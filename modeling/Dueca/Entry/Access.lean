import Dueca.Entry.Points

/-!
# The access counts of an entry

Each point counts one access of its own, and one for each client that holds it.
That holds as long as a sequential reader moves on only while it accesses no point,
and a packer does not fail right behind a gap. Then no write frees a point that
somebody holds, accesses or will pack against.
-/

namespace Dueca.Entry

open Dueca.Lib UChannelEntryData

variable {D B : Type} {e e' : UChannelEntry D} {conv : DataSetConverter D B}

/-- The point that the saveup latch is on: the first one, until the latch goes. -/
def UChannelEntry.latched (e : UChannelEntry D) : List ℕ :=
  if e.saveup = .noSaveUp then [] else [1]

/-- The points that are held, once for each holder. -/
def holdings (e : UChannelEntry D) : List ℕ :=
  e.clients.flatMap Client.holds ++ e.pclients.flatMap (fun p => p.handle.holds) ++
    (e.monitored.toList ++ e.latched)

/-- Every point counts one access and its holders, and the points held exist. -/
structure Counted (e : UChannelEntry D) : Prop where
  linked : Linked e
  count : ∀ a n, e.heap a = some n → n.readAccesses = 1 + (holdings e).count a
  live : ∀ a ∈ holdings e, e.cleanup ≤ a ∧ a ≤ e.latest

theorem count_flatMap_set {α : Type} {l : List α} {f : α → List ℕ} {i : ℕ} {x y : α}
    (hx : l[i]? = some x) (a : ℕ) :
    ((l.set i y).flatMap f).count a + (f x).count a = (l.flatMap f).count a + (f y).count a := by
  induction l generalizing i with
  | nil => simp at hx
  | cons z l ih =>
    cases i with
    | zero =>
      simp only [List.getElem?_cons_zero, Option.some.injEq] at hx
      subst hx
      simp only [List.set_cons_zero, List.flatMap_cons, List.count_append]
      omega
    | succ i =>
      have := ih (by simpa using hx)
      simp only [List.set_cons_succ, List.flatMap_cons, List.count_append]
      omega

theorem count_le_flatMap {α : Type} {l : List α} {f : α → List ℕ} {x : α} (hx : x ∈ l) (a : ℕ) :
    (f x).count a ≤ (l.flatMap f).count a := by
  obtain ⟨l₁, l₂, rfl⟩ := List.append_of_mem hx
  simp only [List.flatMap_append, List.flatMap_cons, List.count_append]
  omega

/-- Accesses move as the holdings do. -/
theorem Counted.moves {src dst taken : List ℕ} (hC : Counted e)
    (hm : Moves e.heap e'.heap src dst taken) (hs : SameChain e e')
    (hsub : ∀ a, src.count a ≤ (holdings e).count a)
    (hH : ∀ a, (holdings e').count a + src.count a = (holdings e).count a + dst.count a) :
    Counted e' where
  linked := hC.linked.same hm hs
  count a n' hn' := by
    obtain ⟨n, hn, -⟩ := hm.exists_of_some hn'
    obtain ⟨k, hk, hcount⟩ := (hm a).2 n hn
    obtain rfl := Option.some.inj (hn'.symm.trans hk)
    have h₁ := hC.count a n hn
    have h₂ := hsub a
    have h₃ := hH a
    have := hcount (by omega)
    dsimp only
    omega
  live a ha := by
    have hpos := List.count_pos_iff.mpr ha
    rw [hs.cleanup, hs.latest]
    by_cases hlive : e.cleanup ≤ a ∧ a ≤ e.latest
    · exact hlive
    · -- an access moved to a point must find it there
      have hnone : e.heap a = none := by
        have := (hC.linked.live a).not.mpr hlive
        simpa using this
      have h₁ := ((hm a).1 hnone).2
      have h₂ := hH a
      exact hC.live a (List.count_pos_iff.mp (by have := hsub a; omega))

theorem holdings_client {i : ℕ} {c c' : Client} {heap : Heap D} (hc : e.clients[i]? = some c)
    (a : ℕ) :
    (holdings { e with heap, clients := e.clients.set i c' }).count a + c.holds.count a =
      (holdings e).count a + c'.holds.count a := by
  have := count_flatMap_set (f := Client.holds) (y := c') hc a
  simp only [holdings, List.count_append, UChannelEntry.latched] at this ⊢
  omega

theorem holdings_packer {idx : ℕ} {p q : PackerClient} {heap : Heap D}
    (hp : e.pclients[idx]? = some p) (a : ℕ) :
    (holdings { e with heap, pclients := e.pclients.set idx q }).count a +
        p.handle.holds.count a =
      (holdings e).count a + q.handle.holds.count a := by
  have := count_flatMap_set (f := fun p : PackerClient => p.handle.holds) (y := q) hp a
  simp only [holdings, List.count_append, UChannelEntry.latched] at this ⊢
  omega

theorem client_le_holdings {c : Client} (hc : c ∈ e.clients) (a : ℕ) :
    c.holds.count a ≤ (holdings e).count a := by
  have := count_le_flatMap (f := Client.holds) hc a
  simp only [holdings, List.count_append]
  omega

theorem packer_le_holdings {p : PackerClient} (hp : p ∈ e.pclients) (a : ℕ) :
    p.handle.holds.count a ≤ (holdings e).count a := by
  have := count_le_flatMap (f := fun p : PackerClient => p.handle.holds) hp a
  simp only [holdings, List.count_append]
  omega

/-- An operation of a client that moves its hold. -/
theorem Counted.client {i : ℕ} {c c' : Client} {heap : Heap D} {taken : List ℕ} (hC : Counted e)
    (hc : e.clients[i]? = some c) (hm : Moves e.heap heap c.holds c'.holds taken) :
    Counted { e with heap, clients := e.clients.set i c' } :=
  (@Counted.moves _ _ { e with heap, clients := e.clients.set i c' }) hC hm
    ⟨rfl, rfl, rfl, rfl, rfl, rfl⟩ (client_le_holdings (List.mem_of_getElem? hc))
    (holdings_client hc)

/-- An operation of a packer that moves its hold. -/
theorem Counted.packer {idx : ℕ} {p q : PackerClient} {heap : Heap D} {taken : List ℕ}
    (hC : Counted e) (hp : e.pclients[idx]? = some p)
    (hm : Moves e.heap heap p.handle.holds q.handle.holds taken) :
    Counted { e with heap, pclients := e.pclients.set idx q } :=
  (@Counted.moves _ _ { e with heap, pclients := e.pclients.set idx q }) hC hm
    ⟨rfl, rfl, rfl, rfl, rfl, rfl⟩ (packer_le_holdings (List.mem_of_getElem? hp))
    (holdings_packer hp)

/-! ### The invariant -/

/-- A packer client reads sequentially and accesses nothing but its next point. If it
packs differentially, it does so against the point before that, or that point itself. -/
structure Packing (e : UChannelEntry D) (p : PackerClient) : Prop where
  sequential : p.handle.sequentialRead = true
  linked : p.handle.linked = true
  index : ∃ r, p.handle.readIndex = some r ∧ e.oldest ≤ r ∧
    (p.handle.accessed = none ∨ p.handle.accessed = some r) ∧
    (p.sendFull = false → e.entryId ≠ entryEnd ∧
      ∃ q, p.previousData = some q ∧ q ≤ r ∧ r ≤ q + 1)

/-- The access counts are right, and the clients and packers are where they should be. -/
structure Accounted (e : UChannelEntry D) : Prop where
  counted : Counted e
  manned : Manned e
  steady : ∀ c ∈ e.clients, c.Steady
  packing : ∀ p ∈ e.pclients, Packing e p
  latch : e.saveup ≠ .noSaveUp → e.oldest = 1

theorem Packing.holds_eq {p : PackerClient} {r : ℕ} (hp : Packing e p)
    (hr : p.handle.readIndex = some r) : p.handle.holds = [r] := by
  simp [Client.holds, hp.sequential, hp.linked, hr]

theorem Packing.congr {p : PackerClient} (hp : Packing e p) (ho : e'.oldest = e.oldest)
    (hid : e.entryId ≠ entryEnd → e'.entryId ≠ entryEnd) : Packing e' p where
  sequential := hp.sequential
  linked := hp.linked
  index := by
    obtain ⟨r, hr, hle, hacc, hdiff⟩ := hp.index
    refine ⟨r, hr, ho ▸ hle, hacc, fun hs => ?_⟩
    obtain ⟨hend, hq⟩ := hdiff hs
    exact ⟨hid hend, hq⟩

theorem Client.holds_of_sequential {c : Client} {r : ℕ} (hs : c.sequentialRead = true)
    (hl : c.linked = true) (hr : c.readIndex = some r) : c.holds = [r] := by
  simp [Client.holds, hs, hl, hr]

theorem Client.holds_of_timed {c : Client} (hs : c.sequentialRead = false) :
    c.holds = c.accessed.toList := by
  simp [Client.holds, hs]

theorem Client.steady_of_timed {c : Client} (hs : c.sequentialRead = false) : c.Steady := by
  intro h
  rw [hs] at h
  cases h

theorem Client.Steady.readIndex_eq {c : Client} {a : ℕ} (hst : c.Steady)
    (hs : c.sequentialRead = true) (ha : c.accessed = some a) : c.readIndex = some a := by
  rcases hst hs with hnone | ⟨-, hacc⟩
  · rw [ha] at hnone
    cases hnone
  · rw [← hacc, ha]

/-- Points that are held count more than their own access. -/
theorem Counted.one_lt {a : ℕ} {n : UChannelEntryData D} (hC : Counted e)
    (ha : a ∈ holdings e) (hn : e.heap a = some n) : 1 < n.readAccesses := by
  have := List.count_pos_iff.mpr ha
  have := hC.count a n hn
  omega

theorem Counted.exists_held {a : ℕ} (hC : Counted e) (ha : a ∈ holdings e) :
    ∃ n, e.heap a = some n :=
  hC.linked.exists_node (hC.live a ha).1 (hC.live a ha).2

theorem mem_holdings_client {c : Client} {a : ℕ} (hc : c ∈ e.clients) (ha : a ∈ c.holds) :
    a ∈ holdings e := by
  have := client_le_holdings hc a
  have := List.count_pos_iff.mpr ha
  exact List.count_pos_iff.mp (by omega)

theorem mem_holdings_packer {p : PackerClient} {a : ℕ} (hp : p ∈ e.pclients)
    (ha : a ∈ p.handle.holds) : a ∈ holdings e := by
  have := packer_le_holdings hp a
  have := List.count_pos_iff.mpr ha
  exact List.count_pos_iff.mp (by omega)

theorem mem_holdings_latched {a : ℕ} (ha : a ∈ e.latched) : a ∈ holdings e :=
  List.mem_append_right _ (List.mem_append_right _ ha)

/-! ### Readers, packers and the monitor -/

theorem Accounted.client {i : ℕ} {c c' : Client} {heap : Heap D} {taken : List ℕ}
    (hA : Accounted e) (hc : e.clients[i]? = some c)
    (hm : Moves e.heap heap c.holds c'.holds taken) (hs : c'.Steady) :
    Accounted { e with heap, clients := e.clients.set i c' } where
  counted := hA.counted.client hc hm
  manned := ⟨hA.manned.1, hA.manned.2⟩
  steady d hd := by
    rcases List.mem_or_eq_of_mem_set hd with hd | rfl
    · exact hA.steady d hd
    · exact hs
  packing p hp := (hA.packing p hp).congr rfl id
  latch := hA.latch

theorem Accounted.packer {idx r r' : ℕ} {p q : PackerClient} {heap : Heap D} {taken : List ℕ}
    (hA : Accounted e) (hp : e.pclients[idx]? = some p) (hr : p.handle.readIndex = some r)
    (hr' : q.handle.readIndex = some r') (hm : Moves e.heap heap [r] [r'] taken)
    (hq : Packing e q) : Accounted { e with heap, pclients := e.pclients.set idx q } where
  counted := by
    rw [← (hA.packing p (List.mem_of_getElem? hp)).holds_eq hr, ← hq.holds_eq hr'] at hm
    exact hA.counted.packer hp hm
  manned := manned_set hA.manned rfl rfl rfl
  steady := hA.steady
  packing d hd := by
    rcases List.mem_or_eq_of_mem_set hd with hd | rfl
    · exact (hA.packing d hd).congr rfl id
    · exact hq.congr rfl id
  latch := hA.latch

/-- A sequential reader goes from one point to another. -/
theorem Accounted.goesTo {i r r' : ℕ} {c c' : Client} {heap : Heap D} {taken : List ℕ}
    (hA : Accounted e) (hc : e.clients[i]? = some c) (hs : c.sequentialRead = true)
    (hl : c.linked = true) (hr : c.readIndex = some r)
    (hm : Moves e.heap heap [r] [r'] taken) (hs' : c'.sequentialRead = true)
    (hl' : c'.linked = true) (hr' : c'.readIndex = some r')
    (hacc : c'.accessed = none ∨ c'.accessed = c'.readIndex) :
    Accounted { e with heap, clients := e.clients.set i c' } := by
  have hholds : Moves e.heap heap c.holds c'.holds taken := by
    rw [Client.holds_of_sequential hs hl hr, Client.holds_of_sequential hs' hl' hr']
    exact hm
  refine hA.client hc hholds fun _ => ?_
  rcases hacc with hacc | hacc
  · exact .inl hacc
  · exact .inr ⟨hl', hacc⟩

/-- A reader by time gets a point or gives it back. -/
theorem Accounted.timed {i : ℕ} {c c' : Client} {heap : Heap D} {taken : List ℕ}
    (hA : Accounted e) (hc : e.clients[i]? = some c) (hs : c.sequentialRead = false)
    (hs' : c'.sequentialRead = false)
    (hm : Moves e.heap heap c.accessed.toList c'.accessed.toList taken) :
    Accounted { e with heap, clients := e.clients.set i c' } := by
  rw [← Client.holds_of_timed hs, ← Client.holds_of_timed hs'] at hm
  exact hA.client hc hm (Client.steady_of_timed hs')

/-- A sequential reader that accesses nothing may skip points. -/
theorem Accounted.skips {i : ℕ} {c c' : Client} {heap : Heap D} (hA : Accounted e)
    (hc : e.clients[i]? = some c) (hl : c.linked = true) (hacc : c.accessed = none)
    (hs : Skips e c heap c') : Accounted { e with heap, clients := e.clients.set i c' } := by
  obtain ⟨hseq, r, r', hr, hm, rfl⟩ := hs
  exact hA.goesTo hc hseq hl hr hm hseq hl rfl (.inl hacc)

theorem Accounted.withClient {i : ℕ} {f : Client → Except Fault (Heap D × Client)}
    (hf : ∀ c heap c', e.clients[i]? = some c → c.linked = true → f c = .ok (heap, c') →
      Accounted { e with heap, clients := e.clients.set i c' })
    (h : withClient e i f = .ok e') : Accounted e' := by
  obtain ⟨c, heap, c', hc, hl, hfc, rfl⟩ := withClient_eq_ok h
  exact hf c heap c' hc hl hfc

/-- A sequential reader accesses a point without a gap's id, so that it is not moved on
while it accesses one. -/
theorem Accounted.accessData {i : ℕ} {c c' : Client} {heap : Heap D} {t : ℕ}
    {res : Option (Reading D)} (hA : Accounted e) (hc : e.clients[i]? = some c)
    (hl : c.linked = true)
    (hcare : c.sequentialRead = true → c.accessed ≠ none →
      ∀ r n, c.readIndex = some r → e.heap r = some n → n.seqId ≠ 0)
    (h : accessData e c t = .ok (heap, c', res)) :
    Accounted { e with heap, clients := e.clients.set i c' } := by
  rw [Entry.accessData] at h
  split at h
  · simp only [pure_eq_ok, Prod.mk.injEq] at h
    obtain ⟨rfl, rfl, -⟩ := h
    exact hA.client hc (Moves.refl _ _) (hA.steady c (List.mem_of_getElem? hc))
  split at h
  · rename_i hs
    obtain ⟨r, n₀, r', n, hr, hn₀, hn, hm, hcase, hres⟩ := accessSequential_cases
      hA.counted.linked h
    rcases hres with ⟨ts, -, -, -, -, -, rfl, -⟩ | ⟨-, rfl, -⟩
    · exact hA.goesTo hc hs hl hr hm hs hl rfl (.inr rfl)
    · refine hA.goesTo hc hs hl hr hm hs hl rfl ?_
      rcases hcase with ⟨-, rfl, -⟩ | ⟨hz, -⟩
      · rcases hA.steady c (List.mem_of_getElem? hc) hs with hacc | ⟨-, hacc⟩
        · exact .inl hacc
        · exact .inr (hacc.trans hr)
      · exact .inl (by_contra fun hacc => hcare hs hacc r n₀ hr hn₀ hz)
  · rename_i hs
    have hs : c.sequentialRead = false := by simpa using hs
    rcases accessTimed_cases h with ⟨rfl, rfl, -⟩ |
      ⟨_, _, b, n, _, _, _, _, hn, hacc, _, _, _, rfl, ⟨q, rfl⟩, _⟩
    · exact hA.client hc (Moves.refl _ _) (hA.steady c' (List.mem_of_getElem? hc))
    · refine (@Accounted.timed _ _ _ _ _ _ []) hA hc hs hs ?_
      rw [hacc]
      exact Moves.increment hn []

theorem Accounted.releaseData {i : ℕ} {c c' : Client} {heap : Heap D} (hA : Accounted e)
    (hc : e.clients[i]? = some c) (hl : c.linked = true)
    (h : releaseData e c = .ok (heap, c')) :
    Accounted { e with heap, clients := e.clients.set i c' } := by
  obtain ⟨a, ha, ⟨hs, r, n, b, hr, -, -, hm, rfl⟩ | ⟨hs, hm, rfl⟩⟩ := releaseData_cases h
  · -- the point given back is the one that the reader holds
    have har := (hA.steady c (List.mem_of_getElem? hc)).readIndex_eq hs ha
    obtain rfl := Option.some.inj (hr.symm.trans har)
    exact hA.goesTo hc hs hl hr hm hs hl rfl (.inl rfl)
  · exact hA.timed hc hs hs (by rw [ha]; exact hm)

theorem Accounted.releaseDataNoStep {i : ℕ} {c c' : Client} {heap : Heap D} (hA : Accounted e)
    (hc : e.clients[i]? = some c) (hl : c.linked = true)
    (h : releaseDataNoStep e c = .ok (heap, c')) :
    Accounted { e with heap, clients := e.clients.set i c' } := by
  obtain ⟨a, ha, rfl, ⟨hs, hm⟩ | ⟨hs, hm⟩⟩ := releaseDataNoStep_cases h
  · have hr := (hA.steady c (List.mem_of_getElem? hc)).readIndex_eq hs ha
    exact hA.goesTo hc hs hl hr hm hs hl hr (.inl rfl)
  · exact hA.timed hc hs hs (by rw [ha]; exact hm)

theorem Accounted.releaseOnlyAccess {i : ℕ} {c c' : Client} {heap : Heap D} (hA : Accounted e)
    (hc : e.clients[i]? = some c) (hl : c.linked = true)
    (h : releaseOnlyAccess e c = .ok (heap, c')) :
    Accounted { e with heap, clients := e.clients.set i c' } := by
  obtain ⟨a, ha, ⟨hs, n, b, -, -, hm, rfl⟩ | ⟨hs, hm, rfl⟩⟩ := releaseOnlyAccess_cases h
  · have hr := (hA.steady c (List.mem_of_getElem? hc)).readIndex_eq hs ha
    exact hA.goesTo hc hs hl hr hm hs hl rfl (.inl rfl)
  · exact hA.timed hc hs hs (by rw [ha]; exact hm)

theorem Accounted.detach {i : ℕ} {c c' : Client} {heap : Heap D} (hA : Accounted e)
    (hc : e.clients[i]? = some c) (hl : c.linked = true)
    (hcare : c.sequentialRead = true → c.accessed = none)
    (h : detach e c = .ok (heap, c')) :
    Accounted { e with heap, clients := e.clients.set i c' } := by
  obtain ⟨rfl, ⟨hs, r, hr, hm⟩ | ⟨hno, rfl⟩⟩ := detach_cases h
  · refine (@Accounted.client _ _ _ _ _ _ []) hA hc ?_ fun _ => .inl (hcare hs)
    rw [Client.holds_of_sequential hs hl hr]
    simpa [Client.holds, hs] using hm
  · refine (@Accounted.client _ _ _ _ _ _ []) hA hc ?_ fun hs => .inl (hcare hs)
    have hholds : ({ c with linked := false } : Client).holds = c.holds := by
      rcases hno with hs | hr
      · simp [Client.holds, hs]
      · simp [Client.holds, hr]
    rw [hholds]
    exact Moves.refl _ _

/-- A new reader. -/
theorem Accounted.link {sequentialRead : Bool} {span depth : ℕ} (hA : Accounted e)
    (h : link e sequentialRead span depth = .ok e') : Accounted e' := by
  have steady {c : Client} (hc : c.accessed = none) : ∀ d ∈ e.clients ++ [c], d.Steady := by
    intro d hd
    rcases List.mem_append.mp hd with hd | hd
    · exact hA.steady d hd
    · rw [List.mem_singleton.mp hd]
      exact fun _ => .inl hc
  rcases link_cases h with ⟨-, n, heap, hn, -, rfl, rfl⟩ | ⟨-, rfl⟩
  · refine ⟨?_, ⟨hA.manned.1, hA.manned.2⟩, steady rfl, fun p hp =>
      (hA.packing p hp).congr rfl id, hA.latch⟩
    refine hA.counted.moves (Moves.increment hn []) ⟨rfl, rfl, rfl, rfl, rfl, rfl⟩
      (fun a => Nat.zero_le _) fun a => ?_
    simp only [holdings, UChannelEntry.latched, List.flatMap_append, List.flatMap_cons,
      List.flatMap_nil, List.count_append, Client.holds, if_true, Option.toList_some,
      List.append_nil, List.count_nil]
    omega
  · refine ⟨?_, ⟨hA.manned.1, hA.manned.2⟩, steady rfl, fun p hp =>
      (hA.packing p hp).congr rfl id, hA.latch⟩
    refine hA.counted.moves (Moves.refl _ []) ⟨rfl, rfl, rfl, rfl, rfl, rfl⟩
      (fun a => Nat.zero_le _) fun a => ?_
    simp [holdings, UChannelEntry.latched, Client.holds]

theorem Accounted.monitorLatestData {res : Option (Reading D)} (hA : Accounted e)
    (h : monitorLatestData e = .ok (e', res)) : Accounted e' := by
  obtain ⟨hnone, heap, monitored, rfl, hcase⟩ := monitorLatestData_cases h
  refine ⟨?_, ⟨hA.manned.1, hA.manned.2⟩, hA.steady, fun p hp =>
    (hA.packing p hp).congr rfl id, hA.latch⟩
  rcases hcase with ⟨rfl, rfl | ⟨a, n, rfl, hn, hno, l, hl, hla⟩⟩ | ⟨a, n, hn, rfl, rfl⟩
  · refine hA.counted.moves (Moves.refl _ []) ⟨rfl, rfl, rfl, rfl, rfl, rfl⟩
      (fun a => Nat.zero_le _) fun a => ?_
    simp [holdings, UChannelEntry.latched, hnone]
  · -- the point before the sentinel has a next point, and counts its own access
    exfalso
    have hL := hA.counted.linked
    have hlt := hL.cleanup_lt
    have hle := hL.oldest_le
    have hold := hL.older_eq _ l hl (by omega)
    have hlast : a = e.latest - 1 := by simpa [hla] using hold
    rcases hno with hno | hno
    · rw [hL.newer_of_lt hn (by omega)] at hno
      cases hno
    · have := hA.counted.count a n hn
      omega
  · refine hA.counted.moves (Moves.increment hn []) ⟨rfl, rfl, rfl, rfl, rfl, rfl⟩
      (fun a => Nat.zero_le _) fun b => ?_
    simp only [holdings, UChannelEntry.latched, hnone, List.count_append, Option.toList_some,
      Option.toList_none, List.count_nil]
    omega

theorem Accounted.monitorReleaseData (hA : Accounted e) (h : monitorReleaseData e = .ok e') :
    Accounted e' := by
  obtain ⟨a, heap, ha, rfl, hm⟩ := monitorReleaseData_cases h
  refine ⟨?_, ⟨hA.manned.1, hA.manned.2⟩, hA.steady, fun p hp =>
    (hA.packing p hp).congr rfl id, hA.latch⟩
  refine hA.counted.moves hm ⟨rfl, rfl, rfl, rfl, rfl, rfl⟩ (fun b => ?_) fun b => ?_
  all_goals
    simp only [holdings, UChannelEntry.latched, ha, List.count_append, Option.toList_some,
      Option.toList_none, List.count_nil]
    omega

/-- A packer that could not pack behind a gap would pack the point differentially the
next time, with the point before the gap no longer held. -/
theorem Accounted.packData {idx seqid : ℕ} {room : List (Item B) → Bool}
    {res : PackResult B} (hA : Accounted e)
    (hcare : ∀ p r n, e.pclients[idx]? = some p → p.handle.readIndex = some r →
      e.heap r = some n → res ≠ .boundary ∨ p.sendFull = true ∨ n.seqId ≠ 0)
    (h : packData conv e idx seqid room = .ok (e', res)) : Accounted e' := by
  rcases packData_cases h with ⟨-, rfl, -⟩ | ⟨p, heap, p', reading, q, -, hp, hacc, rfl, hres⟩
  · exact hA
  have hpp := hA.packing p (List.mem_of_getElem? hp)
  obtain ⟨r₀, hr₀, hle, -, hdiff⟩ := hpp.index
  obtain ⟨r, n₀, r', n, ts, d, hr, hn₀, hn, hm, hcase, -, -, -, -, -, rfl⟩ :=
    accessPackData_cases hA.counted.linked hacc
  obtain rfl := Option.some.inj (hr.symm.trans hr₀)
  have hrr : r ≤ r' := by rcases hcase with ⟨-, rfl, -⟩ | ⟨-, rfl, -⟩ <;> omega
  have failed (hno : p.sendFull = true ∨ n₀.seqId ≠ 0) {q : PackerClient}
      (hh : q.handle = { p.handle with readIndex := some r', accessed := some r' })
      (hd : q.toPackerClientData = p.toPackerClientData) : Packing e q := by
    refine ⟨hh ▸ hpp.sequential, hh ▸ hpp.linked, r', by rw [hh], by omega, ?_, fun hs => ?_⟩
    · exact .inr (by rw [hh])
    · have hsf : p.sendFull = false := hd ▸ hs
      rcases hcase with ⟨-, rfl, -⟩ | ⟨hz, -⟩
      · exact hd ▸ hdiff hsf
      · rcases hno with hsend | hnz
        · rw [hsf] at hsend
          cases hsend
        · exact absurd hz hnz
  rcases hres with ⟨hend, ⟨rfl, -⟩ | ⟨rfl, rfl⟩⟩ |
    ⟨hend, -, items, data, hitems, ⟨-, -, rfl⟩ | ⟨-, rfl, rfl⟩⟩
  · -- an entry without an id has packed nothing yet
    refine hA.packer hp hr rfl hm
      ⟨hpp.sequential, hpp.linked, r', rfl, by omega, .inr rfl, fun hs => ?_⟩
    simp only [Bool.or_eq_false_iff] at hs
    exact absurd hend (hdiff hs.1).1
  · refine hA.packer hp hr rfl hm (failed ?_ rfl rfl)
    exact (hcare p r n₀ hp hr hn₀).resolve_left fun hne => hne rfl
  · -- what was packed is the point that the packer accesses
    refine hA.packer hp hr rfl hm
      ⟨hpp.sequential, hpp.linked, r', rfl, by omega, .inr rfl, fun hs => ?_⟩
    exact ⟨hend, r', rfl, le_rfl, Nat.le_succ _⟩
  · refine hA.packer hp hr rfl hm (failed ?_ rfl rfl)
    exact (hcare p r n₀ hp hr hn₀).resolve_left fun hne => hne rfl

/-- A packer goes on to the next point only when it packed the one it accesses. -/
theorem Accounted.packComplete {idx : ℕ} (hA : Accounted e)
    (hcare : ∀ p, e.pclients[idx]? = some p →
      p.sendFull = true ∨ p.previousData = p.handle.accessed)
    (h : packComplete e idx = .ok e') : Accounted e' := by
  obtain ⟨p, r, n, a, m, b, heap, hp, hr, hn, ha, hma, hmb, hm, rfl⟩ := packComplete_cases h
  have hpp := hA.packing p (List.mem_of_getElem? hp)
  obtain ⟨r₀, hr₀, hle, hacc, hdiff⟩ := hpp.index
  obtain rfl := Option.some.inj (hr.symm.trans hr₀)
  obtain rfl : a = r := by
    rcases hacc with hacc | hacc
    · rw [ha] at hacc
      cases hacc
    · exact Option.some.inj (ha.symm.trans hacc)
  obtain rfl := Option.some.inj (hn.symm.trans hma)
  have hb : b = a + 1 := by
    have := hA.counted.linked.newer_eq a n hn
    rw [hmb] at this
    split at this
    · cases this
    · exact Option.some.inj this
  have hq : Packing e { p with handle := { p.handle with readIndex := n.newer, accessed := none } } := by
    refine ⟨hpp.sequential, hpp.linked, b, hmb, by omega, .inl rfl, fun hs => ?_⟩
    refine ⟨(hdiff hs).1, a, ?_, by omega, by omega⟩
    rcases hcare p hp with hsend | hprev
    · have hs : p.sendFull = false := hs
      rw [hs] at hsend
      cases hsend
    · exact hprev.trans ha
  exact hA.packer hp hr hmb hm hq

theorem Accounted.packFailed {idx : ℕ} (hA : Accounted e) (h : packFailed e idx = .ok e') :
    Accounted e' := by
  rw [Entry.packFailed] at h
  split at h
  · exact absurd h throw_ne_ok
  rename_i p hp
  simp only [pure_eq_ok] at h
  subst h
  have hpp := hA.packing p (List.mem_of_getElem? hp)
  obtain ⟨r, hr, hle, -, hdiff⟩ := hpp.index
  have hq : Packing e { p with handle := { p.handle with accessed := none } } :=
    ⟨hpp.sequential, hpp.linked, r, hr, hle, .inl rfl, hdiff⟩
  exact hA.packer hp hr hr (Moves.refl _ _) hq

/-! ### New packers -/

theorem newPacker_packing {ids : List ℕ} : Packing e (newPacker e.oldest ids) where
  sequential := rfl
  linked := rfl
  index := ⟨e.oldest, rfl, le_rfl, .inl rfl, nofun⟩

/-- New packers hold the oldest point, and the saveup latch may go. -/
theorem Accounted.staffs {k : ℕ} {ids : List ℕ} {latch taken : List ℕ} (hA : Accounted e)
    (hm : Moves e.heap e'.heap latch (List.replicate k e.oldest) taken) (hs : SameChain e e')
    (hM : Manned e') (hc : e'.clients = e.clients)
    (hp : e'.pclients = e.pclients ++ List.replicate k (newPacker e.oldest ids))
    (hid : e'.entryId = e.entryId) (hmon : e'.monitored = e.monitored)
    (hsave : e'.saveup = e.saveup ∧ latch = [] ∨ e'.saveup = .noSaveUp ∧ latch = e.latched) :
    Accounted e' := by
  refine ⟨?_, hM, fun c h => hA.steady c (hc ▸ h), fun p h => ?_, fun h => ?_⟩
  · have hnew (a : ℕ) : ((List.replicate k (newPacker e.oldest ids)).flatMap
        fun p => p.handle.holds).count a = (List.replicate k e.oldest).count a := by
      rw [List.flatMap_replicate]
      have : (newPacker e.oldest ids).handle.holds = [e.oldest] := rfl
      rw [this]
      congr 1
      induction k with
      | zero => rfl
      | succ k ih => simp [List.replicate_succ]
    have hlatch (a : ℕ) : e'.latched.count a + latch.count a = e.latched.count a := by
      rcases hsave with ⟨h, rfl⟩ | ⟨h, rfl⟩
      · simp [UChannelEntry.latched, h]
      · simp [UChannelEntry.latched, h]
    refine hA.counted.moves hm hs (fun a => ?_) fun a => ?_
    · have := hlatch a
      simp only [holdings, List.count_append]
      omega
    · have h₁ := hlatch a
      have h₂ := hnew a
      simp only [holdings, hc, hp, hmon, List.flatMap_append, List.count_append]
      omega
  · rw [hp] at h
    rcases List.mem_append.mp h with h | h
    · exact (hA.packing p h).congr hs.oldest fun hne => hid ▸ hne
    · rw [List.eq_of_mem_replicate h]
      exact newPacker_packing.congr hs.oldest fun hne => hid ▸ hne
  · rw [hs.oldest]
    rcases hsave with ⟨hsv, -⟩ | ⟨hsv, -⟩
    · exact hA.latch (hsv ▸ h)
    · exact absurd hsv h

/-! ### A write -/

theorem readAccesses_of_retirable {now a : ℕ} {n : UChannelEntryData D}
    (h : retirable e now a = true) (hn : e.heap a = some n) : n.readAccesses = 1 := by
  rw [retirable, hn] at h
  by_contra hne
  cases hl : e.heap e.latest with
  | none => simp [hl] at h
  | some l => simp [hl, obsolete, hne, pure, Except.pure] at h

/-- The clean-up frees and retires no point that somebody holds. -/
theorem Accounted.cleaned {now c o : ℕ} (hA : Accounted e) (hC : Cleaning e now c o) :
    Accounted (e.cleaned c o) := by
  have hL := hA.counted.linked
  have held {a : ℕ} (ha : a ∈ holdings e) (hle : e.oldest ≤ a) : o ≤ a := by
    by_contra hlt
    obtain ⟨n, hn⟩ := hA.counted.exists_held ha
    have := readAccesses_of_retirable (hC.retired a hle (by omega)) hn
    have := hA.counted.one_lt ha hn
    omega
  refine ⟨⟨hL.cleaned hC.cleanup_le hC.lt_oldest hC.oldest_le hC.le_latest, ?_, ?_⟩,
    ⟨hA.manned.1, hA.manned.2⟩, hA.steady, fun p hp => ?_, fun hs => ?_⟩
  · intro a n hn
    have hn : (if a < c then none else e.heap a) = some n := hn
    split at hn
    · cases hn
    · exact hA.counted.count a n hn
  · intro a ha
    have ha : a ∈ holdings e := ha
    refine ⟨?_, (hA.counted.live a ha).2⟩
    show c ≤ a
    by_contra hlt
    obtain ⟨n, hn⟩ := hA.counted.exists_held ha
    have := hC.unused a n (hA.counted.live a ha).1 (by omega) hn
    have := hA.counted.one_lt ha hn
    omega
  · have hpp := hA.packing p hp
    obtain ⟨r, hr, hle, hrest⟩ := hpp.index
    refine ⟨hpp.sequential, hpp.linked, r, hr, ?_, hrest⟩
    exact held (mem_holdings_packer hp (by rw [hpp.holds_eq hr]; exact List.mem_singleton_self r)) hle
  · -- the latched point is held
    have hone := hA.latch hs
    have hs : e.saveup ≠ .noSaveUp := hs
    have := held (a := 1) (mem_holdings_latched (by simp [UChannelEntry.latched, hs])) (by omega)
    have := hC.oldest_le
    show o = 1
    omega

/-- The new points of a write have no holders. -/
theorem Accounted.written {m : UChannelEntry D} {l : UChannelEntryData D} {data : D}
    {t : DataTimeSpec} (hA : Accounted e) (hl : e.heap e.latest = some l)
    (hw : e.written l data t = some m) : Accounted m := by
  have hL := hA.counted.linked
  have hfr := hL.fresh_eq
  have hLm := hL.written hl hw
  have unheld {a : ℕ} (ha : e.latest < a) : (holdings e).count a = 0 := by
    refine List.count_eq_zero.mpr fun hmem => ?_
    have := (hA.counted.live a hmem).2
    omega
  have same (hh : holdings m = holdings e) (hc : m.cleanup = e.cleanup)
      (hlt : e.latest ≤ m.latest)
      (hcount : ∀ a n, m.heap a = some n → n.readAccesses = 1 + (holdings e).count a) :
      Counted m :=
    ⟨hLm, fun a n hn => hh ▸ hcount a n hn, fun a ha => by
      have := hA.counted.live a (hh ▸ ha)
      omega⟩
  rcases written_cases hw with ⟨start, ts, rfl, -⟩ | ⟨rfl, -⟩
  · refine ⟨same rfl rfl ?_ fun a n hn => ?_, ⟨hA.manned.1, hA.manned.2⟩, hA.steady,
      fun p hp => (hA.packing p hp).congr rfl id, hA.latch⟩
    · show e.latest ≤ e.fresh
      omega
    rw [filled_heap] at hn
    split at hn
    · cases hn
      rename_i ha
      rw [unheld (by omega)]
      rfl
    split at hn
    · cases hn
      rename_i ha
      exact ha ▸ hA.counted.count _ l hl
    · exact hA.counted.count a n hn
  · refine ⟨same rfl rfl ?_ fun a n hn => ?_, ⟨hA.manned.1, hA.manned.2⟩, hA.steady,
      fun p hp => (hA.packing p hp).congr rfl id, hA.latch⟩
    · show e.latest ≤ e.fresh + 1
      omega
    rw [gapped_heap] at hn
    split at hn
    · cases hn
      rw [unheld (by omega)]
      rfl
    split at hn
    · cases hn
      rw [unheld (by omega)]
      rfl
    split at hn
    · cases hn
      rename_i ha
      exact ha ▸ hA.counted.count _ l hl
    · exact hA.counted.count a n hn

theorem settled_saveup {stop seqId : ℕ} {current : Bool} :
    (e.settled stop seqId current).1.saveup =
      if e.unlatches current then .noSaveUp else e.saveup := by
  have hsave : (e.attached stop).1.saveup = e.saveup := by
    rw [UChannelEntry.attached]
    split <;> rfl
  simp only [UChannelEntry.settled, UChannelEntry.unlatched, UChannelEntry.unlatches, hsave,
    Bool.and_eq_true, decide_eq_true_eq]
  split
  · rfl
  · exact hsave

theorem Accounted.settled {stop seqId : ℕ} {current : Bool} (hA : Accounted e) :
    Accounted (e.settled stop seqId current).1 := by
  have hm := (@settled_moves _ _ stop seqId current)
    hA.counted.linked.walkable.exists_oldest
  have hf := settled_frame e stop seqId current
  refine (@Accounted.staffs _ _ _ _ (idsBetween e.heap e.oldest stop)) hA hm
    ⟨hf.cleanup, hf.oldest, hf.latest, hf.fresh, hf.eventtype, hf.writer⟩
    (manned_settled hA.manned) hf.clients ?_ hf.entryId hf.monitored ?_
  · simp only [UChannelEntry.settled, UChannelEntry.unlatched, UChannelEntry.attached,
      UChannelEntry.newcomers]
    split <;> split <;> first | rfl | simp
  · rw [settled_saveup]
    cases hgo : e.unlatches current with
    | true =>
      refine .inr ⟨rfl, ?_⟩
      have hs : e.saveup = .saveUpTryRemove := by
        simp only [UChannelEntry.unlatches, Bool.and_eq_true, decide_eq_true_eq] at hgo
        exact hgo.1
      have hone := hA.latch (by simp [hs])
      simp [UChannelEntry.latched, hs, hone]
    | false => exact .inl ⟨rfl, rfl⟩

theorem Accounted.newData {data : D} {t : DataTimeSpec} {current : Bool} {work : List PackUnit}
    (hA : Accounted e) (h : newData e data t current = .ok (e', work)) : Accounted e' := by
  obtain ⟨l, hl⟩ := hA.counted.linked.exists_latest
  obtain ⟨c, o, hC, -, hl', ⟨-, rfl, -⟩ | ⟨m, _, _, -, hw, -, hres, -, -⟩⟩ :=
    newData_outcome hA.counted.linked hA.manned hl h
  · exact hA.cleaned hC
  · have := (@Accounted.settled _ _ e.latest l.seqId current) ((hA.cleaned hC).written hl' hw)
    rwa [hres] at this

/-- What the operations other than a write leave: only a new reader by time changes the depth, and
only the refresh of the packers announces points. -/
theorem step_rest {op : Op D} {work : List PackUnit} (hL : Linked e) (hM : Manned e)
    (hop : ∀ data t current, op ≠ .newData data t current)
    (h : step conv e op = .ok (e', work)) :
    (e'.depth = e.depth ∨ ∃ span depth, op = .link false span depth ∧
      e'.depth = max depth e.depth) ∧
    (op ≠ .refreshTransporters → work = [] ∧ e'.pclients.length = e.pclients.length ∧
      e'.configVersion = e.configVersion ∧
      (e'.channelVersion = e.channelVersion ∧ e'.transporters = e.transporters ∨
        e.channelVersion < e'.channelVersion)) := by
  cases op with
  | newData data t current => exact absurd rfl (hop data t current)
  | refreshTransporters =>
    simp only [step] at h
    obtain ⟨rfl, -⟩ := Prod.mk.inj (refreshTransporters_ok hL.walkable hM h)
    exact ⟨.inl rfl, fun hno => absurd rfl hno⟩
  | link sequentialRead span depth =>
    simp only [step, bind_eq_ok, pure_eq_ok, Prod.mk.injEq] at h
    obtain ⟨_, h, rfl, rfl⟩ := h
    rcases link_cases h with ⟨-, n, heap, -, -, -, rfl⟩ | ⟨rfl, rfl⟩
    · exact ⟨.inl rfl, fun _ => ⟨rfl, rfl, rfl, .inl ⟨rfl, rfl⟩⟩⟩
    · exact ⟨.inr ⟨span, depth, rfl, rfl⟩, fun _ => ⟨rfl, rfl, rfl, .inl ⟨rfl, rfl⟩⟩⟩
  | detach i | accessData i t | releaseData i | releaseDataNoStep i | releaseOnlyAccess i
  | flushOne i | flushAll i | spinToLast i | spinToLastBefore i t =>
    simp only [step, bind_eq_ok, pure_eq_ok, Prod.mk.injEq] at h
    obtain ⟨_, h, rfl, rfl⟩ := h
    obtain ⟨_, _, _, -, -, -, rfl⟩ := withClient_eq_ok h
    exact ⟨.inl rfl, fun _ => ⟨rfl, rfl, rfl, .inl ⟨rfl, rfl⟩⟩⟩
  | monitorLatestData =>
    simp only [step, bind_eq_ok, pure_eq_ok, Prod.mk.injEq] at h
    obtain ⟨⟨_, _⟩, h, rfl, rfl⟩ := h
    obtain ⟨-, heap, monitored, rfl, -⟩ := monitorLatestData_cases h
    exact ⟨.inl rfl, fun _ => ⟨rfl, rfl, rfl, .inl ⟨rfl, rfl⟩⟩⟩
  | monitorReleaseData =>
    simp only [step, bind_eq_ok, pure_eq_ok, Prod.mk.injEq] at h
    obtain ⟨_, h, rfl, rfl⟩ := h
    obtain ⟨a, heap, -, rfl, -⟩ := monitorReleaseData_cases h
    exact ⟨.inl rfl, fun _ => ⟨rfl, rfl, rfl, .inl ⟨rfl, rfl⟩⟩⟩
  | addRemoteDestination | incrementVersion =>
    simp only [step, pure_eq_ok, Prod.mk.injEq] at h
    obtain ⟨rfl, rfl⟩ := h
    exact ⟨.inl rfl, fun _ => ⟨rfl, rfl, rfl, .inr (Nat.lt_succ_self _)⟩⟩
  | setConfValid =>
    simp only [step, pure_eq_ok, Prod.mk.injEq] at h
    obtain ⟨rfl, rfl⟩ := h
    exact ⟨.inl rfl, fun _ => ⟨rfl, rfl, rfl, .inl ⟨rfl, rfl⟩⟩⟩
  | packData idx seqid fits =>
    simp only [step, bind_eq_ok, pure_eq_ok, Prod.mk.injEq] at h
    obtain ⟨⟨_, _⟩, h, rfl, rfl⟩ := h
    rcases packData_cases h with ⟨-, rfl, -⟩ | ⟨_, _, _, _, _, -, -, -, rfl, -⟩
    · exact ⟨.inl rfl, fun _ => ⟨rfl, rfl, rfl, .inl ⟨rfl, rfl⟩⟩⟩
    · exact ⟨.inl rfl, fun _ => ⟨rfl, List.length_set, rfl, .inl ⟨rfl, rfl⟩⟩⟩
  | packComplete idx =>
    simp only [step, bind_eq_ok, pure_eq_ok, Prod.mk.injEq] at h
    obtain ⟨_, h, rfl, rfl⟩ := h
    obtain ⟨_, _, _, _, _, _, _, -, -, -, -, -, -, -, rfl⟩ := packComplete_cases h
    exact ⟨.inl rfl, fun _ => ⟨rfl, List.length_set, rfl, .inl ⟨rfl, rfl⟩⟩⟩
  | packFailed idx =>
    simp only [step, packFailed, bind_eq_ok, pure_eq_ok, Prod.mk.injEq] at h
    obtain ⟨_, h, rfl, rfl⟩ := h
    split at h
    · exact absurd h throw_ne_ok
    · simp only [pure_eq_ok] at h
      subst h
      exact ⟨.inl rfl, fun _ => ⟨rfl, List.length_set, rfl, .inl ⟨rfl, rfl⟩⟩⟩
  | removeSaveUp | setValid id =>
    simp only [step, bind_eq_ok, pure_eq_ok, Prod.mk.injEq] at h
    obtain ⟨_, -, rfl, rfl⟩ := h
    exact ⟨.inl rfl, fun _ => ⟨rfl, rfl, rfl, .inl ⟨rfl, rfl⟩⟩⟩

/-! ### Runs -/

/-- The condition on an operation. A sequential reader neither skips points nor detaches
while it accesses a point, and does not ask for more data at a point that looks like a gap.
A packer that fails is not right behind a gap, unless it packs in full; and it goes on only
from the point that it packed. -/
def Careful (e : UChannelEntry D) : Op D → Prop
  | .detach i | .flushOne i | .flushAll i | .spinToLast i | .spinToLastBefore i _ =>
    ∀ c ∈ e.clients[i]?, c.sequentialRead = true → c.accessed = none
  | .accessData i _ =>
    ∀ c ∈ e.clients[i]?, c.sequentialRead = true → c.accessed ≠ none →
      ∀ r ∈ c.readIndex, ∀ n ∈ e.heap r, n.seqId ≠ 0
  | .packData idx _ fits =>
    fits = true ∨ ∀ p ∈ e.pclients[idx]?, ∀ r ∈ p.handle.readIndex, ∀ n ∈ e.heap r,
      p.sendFull = true ∨ n.seqId ≠ 0
  | .packComplete idx =>
    ∀ p ∈ e.pclients[idx]?, p.sendFull = true ∨ p.previousData = p.handle.accessed
  | _ => True

instance (e : UChannelEntry D) : (op : Op D) → Decidable (Careful e op)
  | .detach i | .flushOne i | .flushAll i | .spinToLast i | .spinToLastBefore i _ =>
    inferInstanceAs (Decidable (∀ c ∈ e.clients[i]?, c.sequentialRead = true → c.accessed = none))
  | .accessData i _ =>
    inferInstanceAs (Decidable (∀ c ∈ e.clients[i]?, c.sequentialRead = true →
      c.accessed ≠ none → ∀ r ∈ c.readIndex, ∀ n ∈ e.heap r, n.seqId ≠ 0))
  | .packData idx _ fits =>
    inferInstanceAs (Decidable (fits = true ∨ ∀ p ∈ e.pclients[idx]?, ∀ r ∈ p.handle.readIndex,
      ∀ n ∈ e.heap r, p.sendFull = true ∨ n.seqId ≠ 0))
  | .packComplete idx =>
    inferInstanceAs (Decidable (∀ p ∈ e.pclients[idx]?,
      p.sendFull = true ∨ p.previousData = p.handle.accessed))
  | .newData .. | .link .. | .releaseData _ | .releaseDataNoStep _ | .releaseOnlyAccess _
  | .monitorLatestData | .monitorReleaseData | .addRemoteDestination | .incrementVersion
  | .refreshTransporters | .packFailed _ | .removeSaveUp | .setValid _ | .setConfValid =>
    inferInstanceAs (Decidable True)

/-- A store without room is the only way to the boundary. -/
theorem packData_ne_boundary {idx seqid : ℕ} {room : List (Item B) → Bool} {res : PackResult B}
    (hroom : ∀ items, room items = true) (h : packData conv e idx seqid room = .ok (e', res)) :
    res ≠ .boundary := by
  rcases packData_cases h with ⟨-, -, rfl⟩ | ⟨p, heap, p', reading, q, -, hp, hacc, -, hres⟩
  · exact fun h => by cases h
  · rcases hres with ⟨-, ⟨-, hne⟩ | ⟨-, rfl⟩⟩ |
      ⟨-, -, items, data, -, ⟨-, rfl, -⟩ | ⟨hno, -⟩⟩
    · exact hne
    · rw [packData] at h
      split at h
      · simp only [pure_eq_ok, Prod.mk.injEq] at h
        cases h.2
      split at h
      · exact absurd h throw_ne_ok
      obtain ⟨⟨heap, p', reading⟩, -, h⟩ := bind_eq_ok.mp h
      dsimp only at h
      split at h
      · rw [if_pos (hroom _)] at h
        simp only [pure_eq_ok, Prod.mk.injEq] at h
        cases h.2
      · simp only [bind_eq_ok, require_eq_ok] at h
        obtain ⟨-, -, ⟨items, data⟩, -, h⟩ := h
        dsimp only at h
        rw [if_pos (hroom _)] at h
        simp only [pure_eq_ok, Prod.mk.injEq] at h
        cases h.2
    · exact fun h => by cases h
    · rw [hroom] at hno
      cases hno

/-- A careful operation keeps the access counts right. -/
theorem accounted_step {op : Op D} (hA : Accounted e) (hcare : Careful e op)
    (hstep : advance conv e op = .ok e') : Accounted e' := by
  obtain ⟨work, h⟩ := advance_eq_ok hstep
  clear hstep
  have plain (he : e'.heap = e.heap) (hs : SameChain e e') (hM : Manned e')
      (hc : e'.clients = e.clients) (hp : e'.pclients = e.pclients)
      (hid : e'.entryId = e.entryId ∨ e'.entryId ≠ entryEnd) (hmon : e'.monitored = e.monitored)
      (hl : e'.latched = e.latched) (hlatch : e'.saveup ≠ .noSaveUp → e.saveup ≠ .noSaveUp) :
      Accounted e' := by
    have hh : holdings e' = holdings e := by simp only [holdings, hc, hp, hmon, hl]
    refine ⟨?_, hM, hc ▸ hA.steady, fun p hpm => ?_, fun hsv => ?_⟩
    · have hm : Moves e.heap e'.heap [] [] [] := he ▸ Moves.refl e.heap []
      exact hA.counted.moves hm hs (fun _ => Nat.zero_le _) fun a => by rw [hh]
    · refine (hA.packing p (hp ▸ hpm)).congr hs.oldest fun hne => ?_
      rcases hid with hid | hid
      · exact hid ▸ hne
      · exact hid
    · exact hs.oldest ▸ hA.latch (hlatch hsv)
  cases op with
  | newData data t current => exact hA.newData h
  | link sequentialRead span depth =>
    simp only [step, bind_eq_ok, pure_eq_ok, Prod.mk.injEq] at h
    obtain ⟨_, h, rfl, -⟩ := h
    exact hA.link h
  | detach i =>
    simp only [step, bind_eq_ok, pure_eq_ok, Prod.mk.injEq] at h
    obtain ⟨_, h, rfl, -⟩ := h
    exact .withClient (fun c heap c' hc hl hf => hA.detach hc hl (hcare c hc) hf) h
  | accessData i t =>
    simp only [step, bind_eq_ok, pure_eq_ok, Prod.mk.injEq] at h
    obtain ⟨_, h, rfl, -⟩ := h
    refine .withClient (fun c heap c' hc hl hf => ?_) h
    obtain ⟨res, hf⟩ := dropResult_eq_ok hf
    exact hA.accessData hc hl (fun hs hacc r n hr hn => hcare c hc hs hacc r hr n hn) hf
  | releaseData i =>
    simp only [step, bind_eq_ok, pure_eq_ok, Prod.mk.injEq] at h
    obtain ⟨_, h, rfl, -⟩ := h
    exact .withClient (fun c heap c' hc hl hf => hA.releaseData hc hl hf) h
  | releaseDataNoStep i =>
    simp only [step, bind_eq_ok, pure_eq_ok, Prod.mk.injEq] at h
    obtain ⟨_, h, rfl, -⟩ := h
    exact .withClient (fun c heap c' hc hl hf => hA.releaseDataNoStep hc hl hf) h
  | releaseOnlyAccess i =>
    simp only [step, bind_eq_ok, pure_eq_ok, Prod.mk.injEq] at h
    obtain ⟨_, h, rfl, -⟩ := h
    exact .withClient (fun c heap c' hc hl hf => hA.releaseOnlyAccess hc hl hf) h
  | flushOne i =>
    simp only [step, bind_eq_ok, pure_eq_ok, Prod.mk.injEq] at h
    obtain ⟨_, h, rfl, -⟩ := h
    refine .withClient (fun c heap c' hc hl hf => ?_) h
    obtain ⟨_, hf⟩ := dropResult_eq_ok hf
    have hs := flushOne_skips hA.counted.linked hf
    exact hA.skips hc hl (hcare c hc hs.1) hs
  | flushAll i =>
    simp only [step, bind_eq_ok, pure_eq_ok, Prod.mk.injEq] at h
    obtain ⟨_, h, rfl, -⟩ := h
    refine .withClient (fun c heap c' hc hl hf => ?_) h
    obtain ⟨_, hf⟩ := dropResult_eq_ok hf
    have hs := flushAll_skips hA.counted.linked hf
    exact hA.skips hc hl (hcare c hc hs.1) hs
  | spinToLast i =>
    simp only [step, bind_eq_ok, pure_eq_ok, Prod.mk.injEq] at h
    obtain ⟨_, h, rfl, -⟩ := h
    refine .withClient (fun c heap c' hc hl hf => ?_) h
    obtain ⟨_, hf⟩ := dropResult_eq_ok hf
    have hs := spinToLast_skips hA.counted.linked hf
    exact hA.skips hc hl (hcare c hc hs.1) hs
  | spinToLastBefore i t =>
    simp only [step, bind_eq_ok, pure_eq_ok, Prod.mk.injEq] at h
    obtain ⟨_, h, rfl, -⟩ := h
    refine .withClient (fun c heap c' hc hl hf => ?_) h
    obtain ⟨_, hf⟩ := dropResult_eq_ok hf
    have hs := spinToLastBefore_skips hf
    exact hA.skips hc hl (hcare c hc hs.1) hs
  | monitorLatestData =>
    simp only [step, bind_eq_ok, pure_eq_ok, Prod.mk.injEq] at h
    obtain ⟨⟨_, _⟩, h, rfl, -⟩ := h
    exact hA.monitorLatestData h
  | monitorReleaseData =>
    simp only [step, bind_eq_ok, pure_eq_ok, Prod.mk.injEq] at h
    obtain ⟨_, h, rfl, -⟩ := h
    exact hA.monitorReleaseData h
  | addRemoteDestination =>
    simp only [step, pure_eq_ok, Prod.mk.injEq] at h
    obtain ⟨rfl, -⟩ := h
    exact plain rfl ⟨rfl, rfl, rfl, rfl, rfl, rfl⟩
      ⟨hA.manned.1.trans (Nat.le_succ _), hA.manned.2⟩ rfl rfl (.inl rfl) rfl rfl id
  | incrementVersion =>
    simp only [step, pure_eq_ok, Prod.mk.injEq] at h
    obtain ⟨rfl, -⟩ := h
    exact plain rfl ⟨rfl, rfl, rfl, rfl, rfl, rfl⟩ ⟨hA.manned.1, hA.manned.2⟩ rfl rfl (.inl rfl)
      rfl rfl id
  | refreshTransporters =>
    simp only [step] at h
    have hr := refreshTransporters_ok hA.counted.linked.walkable hA.manned h
    obtain ⟨rfl, -⟩ := Prod.mk.inj hr
    obtain ⟨n, hn⟩ := hA.counted.linked.walkable.exists_oldest
    exact hA.staffs (bump_moves hn) ⟨rfl, rfl, rfl, rfl, rfl, rfl⟩ (manned_staffed hA.manned)
      rfl rfl rfl rfl (.inl ⟨rfl, rfl⟩)
  | packData idx seqid fits =>
    simp only [step, bind_eq_ok, pure_eq_ok, Prod.mk.injEq] at h
    obtain ⟨⟨_, res⟩, h, rfl, -⟩ := h
    refine hA.packData (fun p r n hp hr hn => ?_) h
    rcases hcare with rfl | hcare
    · exact .inl (packData_ne_boundary (fun _ => rfl) h)
    · exact .inr (hcare p hp r hr n hn)
  | packComplete idx =>
    simp only [step, bind_eq_ok, pure_eq_ok, Prod.mk.injEq] at h
    obtain ⟨_, h, rfl, -⟩ := h
    exact hA.packComplete hcare h
  | packFailed idx =>
    simp only [step, bind_eq_ok, pure_eq_ok, Prod.mk.injEq] at h
    obtain ⟨_, h, rfl, -⟩ := h
    exact hA.packFailed h
  | removeSaveUp =>
    simp only [step, bind_eq_ok, pure_eq_ok, require_eq_ok, Prod.mk.injEq,
      decide_eq_true_eq] at h
    obtain ⟨_, hs, rfl, -⟩ := h
    exact plain rfl ⟨rfl, rfl, rfl, rfl, rfl, rfl⟩ ⟨hA.manned.1, hA.manned.2⟩ rfl rfl (.inl rfl)
      rfl (by simp [UChannelEntry.latched, hs]) fun _ => by simp [hs]
  | setValid id =>
    simp only [step, bind_eq_ok, pure_eq_ok, require_eq_ok, Prod.mk.injEq,
      decide_eq_true_eq] at h
    obtain ⟨_, hid, rfl, -⟩ := h
    exact plain rfl ⟨rfl, rfl, rfl, rfl, rfl, rfl⟩ ⟨hA.manned.1, hA.manned.2⟩ rfl rfl (.inr hid)
      rfl rfl (fun h => h)
  | setConfValid =>
    simp only [step, pure_eq_ok, Prod.mk.injEq] at h
    obtain ⟨rfl, -⟩ := h
    exact plain rfl ⟨rfl, rfl, rfl, rfl, rfl, rfl⟩ ⟨hA.manned.1, hA.manned.2⟩ rfl rfl (.inl rfl)
      rfl rfl id

theorem accounted_create (writer eventtype fullpackmode : Bool) (nreservations : ℕ) :
    Accounted (UChannelEntry.create writer eventtype fullpackmode nreservations :
      UChannelEntry D) := by
  have hheld : holdings (UChannelEntry.create writer eventtype fullpackmode nreservations :
      UChannelEntry D) = if 0 < nreservations then [1] else [] := by
    simp only [holdings, UChannelEntry.latched, UChannelEntry.create]
    split <;> rfl
  refine ⟨⟨linked_create .., fun a n hn => ?_, fun a ha => ?_⟩, manned_create .., ?_, ?_,
    fun _ => rfl⟩
  · rw [hheld]
    simp only [UChannelEntry.create] at hn
    split at hn
    · rename_i ha
      cases hn
      subst ha
      split <;> rfl
    split at hn
    · rename_i ha
      subst ha
      cases hn
      split <;> rfl
    · cases hn
  · rw [hheld] at ha
    split at ha
    · rw [List.mem_singleton.mp ha]
      exact ⟨Nat.zero_le _, le_rfl⟩
    · cases ha
  · intro c hc
    cases hc
  · intro p hp
    cases hp

theorem accounted_of_run {ops : List (Op D)} {s : UChannelEntry D} (hA : Accounted s)
    (hcare : Allowed (advance conv) Careful s ops) (hrun : exec (advance conv) s ops = .ok e) :
    Accounted e :=
  exec_invariant (fun _ _ _ hI hok hstep => accounted_step hI hok hstep) hA hcare hrun

/-- The sequential readers that read the point `a` next. -/
def readersAt (e : UChannelEntry D) (a : ℕ) : ℕ :=
  e.clients.countP fun c => c.sequentialRead && c.linked && c.readIndex = some a

/-- The packers that pack the point `a` next. -/
def packersAt (e : UChannelEntry D) (a : ℕ) : ℕ :=
  e.pclients.countP fun p => p.handle.readIndex = some a

/-- The readers by time, and the monitor, that access the point `a`. -/
def accessesAt (e : UChannelEntry D) (a : ℕ) : ℕ :=
  e.clients.countP (fun c => !c.sequentialRead && c.accessed = some a) +
    if e.monitored = some a then 1 else 0

/-- The latch of the saveup, on the first point. -/
def latchAt (e : UChannelEntry D) (a : ℕ) : ℕ :=
  if e.saveup ≠ .noSaveUp ∧ a = 1 then 1 else 0

/-- Somebody reads the point `a` next or accesses it, or it holds the data that a
transporter packs against. -/
def InUse (e : UChannelEntry D) (a : ℕ) : Prop :=
  (∃ c ∈ e.clients, c.sequentialRead = true ∧ c.linked = true ∧ c.readIndex = some a ∨
      c.accessed = some a) ∨
    (∃ p ∈ e.pclients, p.handle.readIndex = some a ∨ p.handle.accessed = some a ∨
      p.sendFull = false ∧ p.previousData = some a) ∨
    e.monitored = some a

theorem count_toList (o : Option ℕ) (a : ℕ) : o.toList.count a = if o = some a then 1 else 0 := by
  cases o with
  | none => rfl
  | some b => simp [List.count_singleton]

theorem count_clients (l : List Client) (a : ℕ) : (l.flatMap Client.holds).count a =
    l.countP (fun c => c.sequentialRead && c.linked && c.readIndex = some a) +
      l.countP (fun c => !c.sequentialRead && c.accessed = some a) := by
  induction l with
  | nil => rfl
  | cons c l ih =>
    have hc : c.holds.count a = (if c.sequentialRead && c.linked && c.readIndex = some a then 1
        else 0) + if !c.sequentialRead && c.accessed = some a then 1 else 0 := by
      rw [Client.holds, count_toList]
      cases c.sequentialRead <;> cases c.linked <;> simp
    rw [List.flatMap_cons, List.count_append, ih, hc, List.countP_cons, List.countP_cons]
    omega

theorem count_packers {l : List PackerClient} (hl : ∀ p ∈ l, Packing e p) (a : ℕ) :
    (l.flatMap fun p => p.handle.holds).count a =
      l.countP fun p => p.handle.readIndex = some a := by
  induction l with
  | nil => rfl
  | cons p l ih =>
    have hp := hl p List.mem_cons_self
    obtain ⟨r, hr, -⟩ := hp.index
    rw [List.flatMap_cons, List.count_append, ih fun q hq => hl q (List.mem_cons_of_mem _ hq),
      hp.holds_eq hr, List.countP_cons, List.count_singleton, hr]
    simp only [Option.some.injEq, beq_iff_eq, decide_eq_true_eq]
    omega

theorem Accounted.count_holdings (hA : Accounted e) (a : ℕ) : (holdings e).count a =
    readersAt e a + packersAt e a + accessesAt e a + latchAt e a := by
  have hlatch : e.latched.count a = latchAt e a := by
    rw [UChannelEntry.latched, latchAt]
    by_cases hs : e.saveup = .noSaveUp
    · simp [hs]
    · by_cases ha : a = 1
      · simp [hs, ha]
      · simp [hs, ha, Ne.symm ha]
  simp only [holdings, List.count_append, count_clients, count_packers hA.packing, count_toList,
    hlatch, readersAt, packersAt, accessesAt]
  omega

/-- A point in use is there. -/
theorem Accounted.inUse {a : ℕ} (hA : Accounted e) (hu : InUse e a) : ∃ n, e.heap a = some n := by
  have hL := hA.counted.linked
  rcases hu with ⟨c, hc, hu⟩ | ⟨p, hp, hu⟩ | hmon
  · refine hA.counted.exists_held (mem_holdings_client hc ?_)
    rcases hu with ⟨hs, hl, hr⟩ | hacc
    · rw [Client.holds_of_sequential hs hl hr]
      exact List.mem_singleton_self a
    · cases hs : c.sequentialRead with
      | false =>
        rw [Client.holds_of_timed hs, hacc]
        exact List.mem_singleton_self a
      | true =>
        have hst := hA.steady c hc
        rcases hst hs with hnone | ⟨hl, -⟩
        · rw [hacc] at hnone
          cases hnone
        · rw [Client.holds_of_sequential hs hl (hst.readIndex_eq hs hacc)]
          exact List.mem_singleton_self a
  · have hpp := hA.packing p hp
    obtain ⟨r, hr, hle, hacc, hdiff⟩ := hpp.index
    have hheld := hA.counted.live r (mem_holdings_packer hp (by
      rw [hpp.holds_eq hr]
      exact List.mem_singleton_self r))
    have hlt := hL.cleanup_lt
    rcases hu with hu | hu | ⟨hs, hu⟩
    · obtain rfl := Option.some.inj (hr.symm.trans hu)
      exact hL.exists_node hheld.1 hheld.2
    · rw [hu] at hacc
      obtain rfl : a = r := by simpa using hacc
      exact hL.exists_node hheld.1 hheld.2
    · -- the clean-up keeps the last point before the oldest one
      obtain ⟨-, q, hq, h₁, h₂⟩ := hdiff hs
      obtain rfl := Option.some.inj (hq.symm.trans hu)
      exact hL.exists_node (by omega) (by omega)
  · refine hA.counted.exists_held ?_
    refine List.mem_append_right _ (List.mem_append_left _ ?_)
    rw [hmon]
    exact List.mem_singleton_self a

/-- A write leaves the clients, and adds packers. -/
theorem InUse.newData {data : D} {t : DataTimeSpec} {current : Bool} {work : List PackUnit}
    {a : ℕ} (hL : Linked e) (hM : Manned e) (hu : InUse e a)
    (h : newData e data t current = .ok (e', work)) : InUse e' a := by
  obtain ⟨l, hl⟩ := hL.exists_latest
  obtain ⟨c, o, -, -, -, ⟨-, rfl, -⟩ | ⟨m, _, _, -, hw, -, hres, -, hf⟩⟩ :=
    newData_outcome hL hM hl h
  · exact hu
  · have hm : m.clients = e.clients ∧ m.pclients = e.pclients ∧ m.monitored = e.monitored := by
      rcases written_cases hw with ⟨_, _, rfl, -⟩ | ⟨rfl, -⟩ <;> exact ⟨rfl, rfl, rfl⟩
    have hp : ∃ ps, (m.settled e.latest l.seqId current).1.pclients = m.pclients ++ ps := by
      simp only [UChannelEntry.settled, UChannelEntry.unlatched, UChannelEntry.attached]
      split <;> split <;> first | exact ⟨_, rfl⟩ | exact ⟨[], (List.append_nil _).symm⟩
    obtain ⟨ps, hp⟩ := hp
    rw [hres] at hp
    rcases hu with ⟨c, hc, hu⟩ | ⟨p, hpm, hu⟩ | hmon
    · exact .inl ⟨c, by rw [hf.clients, hm.1]; exact hc, hu⟩
    · refine .inr (.inl ⟨p, ?_, hu⟩)
      rw [hp, hm.2.1]
      exact List.mem_append_left _ hpm
    · exact .inr (.inr (by rw [hf.monitored, hm.2.2]; exact hmon))

/-- After any run of careful operations, each point counts one access and one for each
reader, packer, access and latch on it, and a write frees no point in use. -/
theorem accessCounts_of_run {writer eventtype fullpackmode : Bool} {nreservations : ℕ}
    {ops : List (Op D)}
    (hcare : Allowed (advance conv) Careful
      (UChannelEntry.create writer eventtype fullpackmode nreservations) ops)
    (hrun : exec (advance conv)
      (UChannelEntry.create writer eventtype fullpackmode nreservations) ops = .ok e) :
    (∀ a n, e.heap a = some n → n.readAccesses =
      1 + readersAt e a + packersAt e a + accessesAt e a + latchAt e a) ∧
    (∀ a, InUse e a → ∃ n, e.heap a = some n) ∧
    ∀ data t current e' work, newData e data t current = .ok (e', work) →
      ∀ a, InUse e a → ∃ n, e'.heap a = some n := by
  have hA := accounted_of_run (accounted_create ..) hcare hrun
  refine ⟨fun a n hn => ?_, fun a hu => hA.inUse hu, fun data t current e' work h a hu => ?_⟩
  · rw [hA.counted.count a n hn, hA.count_holdings]
    omega
  · exact (hA.newData h).inUse (hu.newData hA.counted.linked hA.manned h)

theorem accessCounts_reader_and_packer :
    ∃ e, exec (advance (.verbatim ℕ)) (UChannelEntry.create true false false 1)
      [.setValid 1, .addRemoteDestination, .link true 0 0, .newData 5 (.of 0 10) true,
        .accessData 0 20, .packData 0 1 true, .packComplete 0] = .ok e ∧
      ∀ n, e.heap 1 = some n → n.readAccesses =
        1 + readersAt e 1 + packersAt e 1 + accessesAt e 1 + latchAt e 1 := by
  obtain ⟨e, he, -⟩ := exists_of_endsIn (advance (.verbatim ℕ))
    (UChannelEntry.create true false false 1)
    [.setValid 1, .addRemoteDestination, .link true 0 0, .newData 5 (.of 0 10) true,
      .accessData 0 20, .packData 0 1 true, .packComplete 0] (fun _ => true) (by decide +kernel)
  refine ⟨e, he, (accessCounts_of_run ?_ he).1 1⟩
  exact (@allowed_of_checks _ _ _ _ _ _ _ (fun e op => decide (Careful e op)))
    (fun _ _ h => of_decide_eq_true h) (by decide +kernel)

/-- A reader that skips all points while it accesses one loses it; and so does a packer that
fails behind a gap lose the point that it then packs against. -/
theorem not_inUse_kept :
    (∃ e, exec (advance (.verbatim ℕ)) (UChannelEntry.create true false false 0)
        [.setValid 1, .link true 0 0, .newData 5 (.of 0 10) true, .accessData 0 20,
          .newData 6 (.of 10 20) true, .flushAll 0, .newData 7 (.of 20 50) true,
          .newData 8 (.of 50 60) true, .newData 9 (.of 60 70) true] = .ok e ∧ InUse e 1 ∧ e.heap 1 = none) ∧
    ∃ e, exec (advance (.verbatim ℕ)) (UChannelEntry.create true false false 0)
        [.setValid 1, .addRemoteDestination, .newData 5 (.of 0 10) true, .packData 0 1 true,
          .packComplete 0, .newData 6 (.of 20 30) true, .packData 0 2 false, .packFailed 0,
          .newData 7 (.of 50 60) true, .newData 8 (.of 60 70) true] = .ok e ∧
      InUse e 1 ∧ e.heap 1 = none := by
  constructor
  · obtain ⟨e, he, htest⟩ := exists_of_endsIn (advance (.verbatim ℕ))
      (UChannelEntry.create true false false 0)
      [.setValid 1, .link true 0 0, .newData 5 (.of 0 10) true, .accessData 0 20,
        .newData 6 (.of 10 20) true, .flushAll 0, .newData 7 (.of 20 50) true,
        .newData 8 (.of 50 60) true, .newData 9 (.of 60 70) true]
      (fun e => e.clients.any (fun c => c.accessed = some 1) && (e.heap 1).isNone)
      (by decide +kernel)
    simp only [Bool.and_eq_true, List.any_eq_true, decide_eq_true_eq,
      Option.isNone_iff_eq_none] at htest
    obtain ⟨⟨c, hc, hacc⟩, hfree⟩ := htest
    exact ⟨e, he, .inl ⟨c, hc, .inr hacc⟩, hfree⟩
  · obtain ⟨e, he, htest⟩ := exists_of_endsIn (advance (.verbatim ℕ))
      (UChannelEntry.create true false false 0)
      [.setValid 1, .addRemoteDestination, .newData 5 (.of 0 10) true, .packData 0 1 true,
        .packComplete 0, .newData 6 (.of 20 30) true, .packData 0 2 false, .packFailed 0,
        .newData 7 (.of 50 60) true, .newData 8 (.of 60 70) true]
      (fun e => e.pclients.any (fun p => !p.sendFull && p.previousData = some 1) &&
        (e.heap 1).isNone) (by decide +kernel)
    simp only [Bool.and_eq_true, List.any_eq_true, decide_eq_true_eq, Bool.not_eq_true',
      Option.isNone_iff_eq_none] at htest
    obtain ⟨⟨p, hp, hsend, hprev⟩, hfree⟩ := htest
    exact ⟨e, he, .inr (.inl ⟨p, hp, .inr (.inr ⟨hsend, hprev⟩)⟩), hfree⟩

end Dueca.Entry
