import Dueca.Entry.Chain

/-!
# The access counts of the operations

Readers change the points of an entry in one way only: they move accesses from
some points to others, and sometimes take the data of a point along. `Moves` says
which accesses an operation moves. A decrement at zero would wrap, so `Moves`
speaks of the points that count more accesses than are taken off them; the
invariant of the access counts shows that these are all.
-/

namespace Dueca.Entry

open Dueca.Lib UChannelEntryData

variable {D B : Type} {e : UChannelEntry D} {h h' h'' : Heap D} {src mid dst : List ℕ}
variable {a b : ℕ} {taken taken' : List ℕ}

/-- Accesses on the points `src` go to the points `dst`, and the data of the points
`taken` go. Nothing else changes. -/
def Moves (h h' : Heap D) (src dst taken : List ℕ) : Prop :=
  ∀ a, (h a = none → h' a = none ∧ dst.count a ≤ src.count a) ∧
    ∀ n, h a = some n → ∃ k,
      h' a = some { n with readAccesses := k, data := if a ∈ taken then none else n.data } ∧
      (src.count a < n.readAccesses → k + src.count a = n.readAccesses + dst.count a)

namespace Moves

protected theorem refl (h : Heap D) (src : List ℕ) : Moves h h src src [] := by
  intro a
  exact ⟨fun ha => ⟨ha, le_rfl⟩, fun n hn => ⟨n.readAccesses, by simpa using hn, fun _ => rfl⟩⟩

protected theorem trans (h₁ : Moves h h' src mid taken) (h₂ : Moves h' h'' mid dst taken') :
    Moves h h'' src dst (taken ++ taken') := by
  intro a
  constructor
  · intro ha
    obtain ⟨ha', hle⟩ := (h₁ a).1 ha
    obtain ⟨ha'', hle'⟩ := (h₂ a).1 ha'
    exact ⟨ha'', hle'.trans hle⟩
  · intro n hn
    obtain ⟨k, hk, hcount⟩ := (h₁ a).2 n hn
    obtain ⟨k', hk', hcount'⟩ := (h₂ a).2 _ hk
    refine ⟨k', ?_, fun hlt => ?_⟩
    · rw [hk']
      by_cases hat : a ∈ taken <;> simp [hat]
    · have := hcount hlt
      have := hcount' (by dsimp only; omega)
      dsimp only at this
      omega

/-- Only the numbers of accesses matter. -/
theorem congr {src' dst' : List ℕ} (hm : Moves h h' src dst taken)
    (hs : ∀ x, src'.count x = src.count x) (hd : ∀ x, dst'.count x = dst.count x) :
    Moves h h' src' dst' taken := by
  intro a
  rw [hs, hd]
  exact hm a

/-- Other accesses stay where they are. -/
theorem frame (hm : Moves h h' src dst taken) (l : List ℕ) :
    Moves h h' (l ++ src) (l ++ dst) taken := by
  intro a
  obtain ⟨hnone, hsome⟩ := hm a
  simp only [List.count_append]
  refine ⟨fun ha => ⟨(hnone ha).1, Nat.add_le_add_left (hnone ha).2 _⟩, fun n hn => ?_⟩
  obtain ⟨k, hk, hcount⟩ := hsome n hn
  exact ⟨k, hk, fun hlt => by have := hcount (by omega); omega⟩

/-- Only the point at `a` changes. -/
theorem at_point {n : UChannelEntryData D} {k : ℕ} (hn : h a = some n)
    (hother : ∀ b, b ≠ a → b ∉ taken ∧ src.count b = dst.count b)
    (hk : src.count a < n.readAccesses → k + src.count a = n.readAccesses + dst.count a) :
    Moves h (store h a { n with
      readAccesses := k, data := if a ∈ taken then none else n.data }) src dst taken := by
  intro b
  by_cases hb : b = a
  · subst hb
    refine ⟨fun hnone => (nomatch hnone.symm.trans hn), fun m hm => ?_⟩
    cases hn.symm.trans hm
    exact ⟨k, store_self _ _ _, hk⟩
  · obtain ⟨htaken, hcount⟩ := hother b hb
    rw [store_of_ne hb, hcount]
    exact ⟨fun hnone => ⟨hnone, le_rfl⟩, fun m hm => ⟨m.readAccesses, by simpa [htaken] using hm,
      fun _ => rfl⟩⟩

theorem increment {n : UChannelEntryData D} (hn : h a = some n) (l : List ℕ) :
    Moves h (store h a n.increment) l (a :: l) [] := by
  refine at_point hn (fun b hb => ⟨List.not_mem_nil, ?_⟩) fun _ => ?_
  · rw [List.count_cons_of_ne (Ne.symm hb)]
  · rw [List.count_cons_self]
    omega

theorem decrement {n : UChannelEntryData D} (hn : h a = some n) (l : List ℕ) :
    Moves h (store h a n.decrement) (a :: l) l [] := by
  refine at_point hn (fun b hb => ⟨List.not_mem_nil, ?_⟩) fun hlt => ?_
  · rw [List.count_cons_of_ne (Ne.symm hb)]
  · rw [List.count_cons_self] at hlt ⊢
    split <;> omega

/-- The client takes the data of the point, and its access. -/
theorem assume {n : UChannelEntryData D} (hn : h a = some n) (l : List ℕ) :
    Moves h (store h a { n.decrement with data := none }) (a :: l) l [a] := by
  have hn' : { n.decrement with data := none } = { n with
      readAccesses := n.decrement.readAccesses, data := if a ∈ [a] then none else n.data } := by
    rw [if_pos List.mem_cons_self]
    rfl
  rw [hn']
  refine at_point hn (fun b hb => ⟨by simpa using hb, ?_⟩) fun hlt => ?_
  · rw [List.count_cons_of_ne (Ne.symm hb)]
  · rw [List.count_cons_self] at hlt ⊢
    simp only [UChannelEntryData.decrement]
    split <;> omega

theorem of_increment {l : List ℕ} (hi : incrementReadAccess h a = .ok h') :
    Moves h h' l (a :: l) [] := by
  obtain ⟨n, hn, rfl⟩ := modifyAt_eq_ok.mp hi
  exact increment hn l

theorem of_release {l : List ℕ} (hr : releaseReadAccess h a = .ok h') :
    Moves h h' (a :: l) l [] := by
  obtain ⟨n, hn, rfl⟩ := modifyAt_eq_ok.mp hr
  exact decrement hn l

/-- A point that exists afterwards is an earlier one. -/
theorem exists_of_some {n' : UChannelEntryData D} (hm : Moves h h' src dst taken)
    (ha : h' a = some n') : ∃ n, h a = some n ∧ n'.timeOrTimeEnd = n.timeOrTimeEnd ∧
      n'.older = n.older ∧ n'.newer = n.newer ∧ n'.seqId = n.seqId ∧
      n'.data = if a ∈ taken then none else n.data := by
  cases hn : h a with
  | none => exact nomatch ((hm a).1 hn).1.symm.trans ha
  | some n =>
    obtain ⟨k, hk, _⟩ := (hm a).2 n hn
    cases ha.symm.trans hk
    exact ⟨n, rfl, rfl, rfl, rfl, rfl, rfl⟩

theorem isSome_iff (hm : Moves h h' src dst taken) (a : ℕ) : (h' a).isSome ↔ (h a).isSome := by
  cases hn : h a with
  | none => simp [((hm a).1 hn).1]
  | some n =>
    obtain ⟨k, hk, _⟩ := (hm a).2 n hn
    simp [hk]

end Moves

/-- Moving accesses keeps the chain. -/
theorem Linked.moves {e' : UChannelEntry D} (hL : Linked e)
    (hm : Moves e.heap e'.heap src dst taken) (hc : e'.cleanup = e.cleanup)
    (ho : e'.oldest = e.oldest) (hl : e'.latest = e.latest) (hf : e'.fresh = e.fresh) :
    Linked e' where
  cleanup_lt := by rw [hc, ho]; exact hL.cleanup_lt
  oldest_le := by rw [hl, ho]; exact hL.oldest_le
  fresh_eq := by rw [hf, hl]; exact hL.fresh_eq
  live a := by rw [hc, hl, hm.isSome_iff, hL.live]
  newer_eq a n' hn' := by
    obtain ⟨n, hn, -, -, hnewer, -⟩ := hm.exists_of_some hn'
    rw [hnewer, hl]
    exact hL.newer_eq a n hn
  older_eq a n' hn' ha := by
    obtain ⟨n, hn, -, holder, -⟩ := hm.exists_of_some hn'
    rw [holder]
    exact hL.older_eq a n hn (hc ▸ ha)

/-! ### The end of a write -/

theorem bump_moves {k : ℕ} {n : UChannelEntryData D} (hn : h a = some n) :
    Moves h (bump h a k) [] (List.replicate k a) [] := by
  intro b
  by_cases hb : b = a
  · subst hb
    refine ⟨fun hnone => (nomatch hnone.symm.trans hn), fun m hm => ?_⟩
    cases hn.symm.trans hm
    exact ⟨n.readAccesses + k, by simp [bump, hn], fun _ => by simp⟩
  · rw [bump_of_ne hb]
    have hcount : (List.replicate k a).count b = 0 :=
      List.count_eq_zero.mpr fun hmem => hb (List.eq_of_mem_replicate hmem)
    have := Moves.refl h [] b
    rwa [hcount]

/-- The accesses that new packers get at the end of a write. -/
def UChannelEntry.newcomers (e : UChannelEntry D) : ℕ :=
  if e.channelVersion ≠ e.configVersion then e.vacancies else 0

/-- The saveup latch goes at the end of a write. -/
def UChannelEntry.unlatches (e : UChannelEntry D) (current : Bool) : Bool :=
  e.saveup = .saveUpTryRemove && current

theorem attached_moves {stop : ℕ} (ho : ∃ n, e.heap e.oldest = some n) :
    Moves e.heap (e.attached stop).1.heap [] (List.replicate e.newcomers e.oldest) [] := by
  obtain ⟨n, hn⟩ := ho
  rw [UChannelEntry.attached, UChannelEntry.newcomers]
  split
  · exact bump_moves hn
  · exact Moves.refl _ _

theorem unlatched_moves {current : Bool} (ho : ∃ n, e.heap e.oldest = some n) :
    Moves e.heap (e.unlatched current).heap
      (if e.unlatches current then [e.oldest] else []) [] [] := by
  obtain ⟨n, hn⟩ := ho
  rw [UChannelEntry.unlatched, UChannelEntry.unlatches]
  split
  · rename_i hgo
    have hheap : (fun a => if a = e.oldest then (e.heap a).map UChannelEntryData.decrement
        else e.heap a) = store e.heap e.oldest n.decrement := by
      funext a
      rw [store_apply]
      split
      · rename_i ha
        simp [ha, hn]
      · rfl
    rw [if_pos (by simpa using hgo)]
    dsimp only
    rw [hheap]
    exact Moves.decrement hn []
  · rename_i hgo
    rw [if_neg (by simpa using hgo)]
    exact Moves.refl _ _

/-- The parts of an entry that the end of a write does not touch. -/
structure SameFrame (e e' : UChannelEntry D) : Prop where
  cleanup : e'.cleanup = e.cleanup
  oldest : e'.oldest = e.oldest
  latest : e'.latest = e.latest
  fresh : e'.fresh = e.fresh
  monitored : e'.monitored = e.monitored
  writer : e'.writer = e.writer
  entryId : e'.entryId = e.entryId
  valid : e'.valid = e.valid
  eventtype : e'.eventtype = e.eventtype
  fullpackmode : e'.fullpackmode = e.fullpackmode
  span : e'.span = e.span
  depth : e'.depth = e.depth
  jumptime : e'.jumptime = e.jumptime
  clients : e'.clients = e.clients
  transporters : e'.transporters = e.transporters
  channelVersion : e'.channelVersion = e.channelVersion

theorem settled_frame (e : UChannelEntry D) (stop seqId : ℕ) (current : Bool) :
    SameFrame e (e.settled stop seqId current).1 := by
  simp only [UChannelEntry.settled, UChannelEntry.unlatched, UChannelEntry.attached]
  split <;> split <;> exact ⟨rfl, rfl, rfl, rfl, rfl, rfl, rfl, rfl, rfl, rfl, rfl, rfl, rfl, rfl,
    rfl, rfl⟩

theorem settled_moves {stop seqId : ℕ} {current : Bool} (ho : ∃ n, e.heap e.oldest = some n) :
    Moves e.heap (e.settled stop seqId current).1.heap
      (if e.unlatches current then [e.oldest] else []) (List.replicate e.newcomers e.oldest)
      [] := by
  have hatt := (@attached_moves _ _ stop) ho
  have hun := (@unlatched_moves _ _ current) ((@exists_oldest_attached _ _ stop) ho)
  have hframe : (e.attached stop).1.oldest = e.oldest ∧ (e.attached stop).1.saveup = e.saveup := by
    rw [UChannelEntry.attached]
    split <;> exact ⟨rfl, rfl⟩
  rw [hframe.1, UChannelEntry.unlatches, hframe.2, ← UChannelEntry.unlatches] at hun
  have h₁ := hatt.frame (if e.unlatches current then [e.oldest] else [])
  have h₂ := hun.frame (List.replicate e.newcomers e.oldest)
  rw [List.append_nil] at h₁ h₂
  refine (h₁.congr (fun _ => rfl) fun x => ?_).trans h₂
  rw [List.count_append, List.count_append, Nat.add_comm]

/-! ### Readers -/

/-- The point that a client holds: a sequential reader the one it reads next, another
reader the one it accesses. -/
def Client.holds (c : Client) : List ℕ :=
  (if c.sequentialRead then (if c.linked then c.readIndex else none) else c.accessed).toList

/-- A sequential reader accesses no other point than the one it reads next. -/
def Client.Steady (c : Client) : Prop :=
  c.sequentialRead = true → c.accessed = none ∨ c.linked = true ∧ c.accessed = c.readIndex

/-- Stepping over a gap moves the access to the next point. -/
theorem skipGap_moves {n : UChannelEntryData D} (hL : Linked e) (hn : e.heap a = some n)
    (h : skipGap e.heap a = .ok (h', b)) :
    Moves e.heap h' [a] [b] [] ∧
      (n.seqId ≠ 0 ∧ b = a ∧ h' = e.heap ∨ n.seqId = 0 ∧ b = a + 1 ∧ a < e.latest) := by
  simp only [skipGap, bind_eq_ok, deref_eq_ok, hn, Option.some.injEq, exists_eq_left'] at h
  split at h
  · rename_i hz
    simp only [bind_eq_ok, follow_eq_ok, deref_eq_ok, pure_eq_ok, Prod.mk.injEq] at h
    obtain ⟨b', hb', h₁, hinc, m', hm', p, hp, h₂, hdec, rfl, rfl⟩ := h
    have hlt : a < e.latest := by
      have := hL.mem_range hn
      rw [hL.newer_eq a n hn] at hb'
      split at hb'
      · cases hb'
      · omega
    obtain rfl : a + 1 = b' := Option.some.inj ((hL.newer_of_lt hn hlt).symm.trans hb')
    have hinc' : Moves e.heap h₁ [a] [a + 1, a] [] := Moves.of_increment hinc
    obtain ⟨m, hm, -, holder, -⟩ := hinc'.exists_of_some hm'
    have hr := hL.mem_range hn
    obtain rfl : a = p := by
      have := hL.older_eq (a + 1) m hm (by omega)
      simpa [holder, this] using hp
    refine ⟨?_, .inr ⟨hz, rfl, hlt⟩⟩
    have hdec' : Moves h₁ h₂ [a + 1, a] [a + 1] [] :=
      (Moves.of_release hdec (l := [a + 1])).congr (fun x => by
        simp only [List.count_cons, List.count_nil]; omega) fun _ => rfl
    exact hinc'.trans hdec'
  · rename_i hz
    simp only [pure_eq_ok, Prod.mk.injEq] at h
    obtain ⟨rfl, rfl⟩ := h
    exact ⟨Moves.refl _ _, .inl ⟨hz, rfl, rfl⟩⟩

theorem switchAccess_moves {c c' : Client} (hsw : switchAccess h c a b = .ok (h', c')) :
    Moves h h' [a] [b] [] ∧ c' = { c with readIndex := some b } := by
  simp only [switchAccess, bind_eq_ok, pure_eq_ok, Prod.mk.injEq] at hsw
  obtain ⟨h₁, hinc, h₂, hdec, rfl, rfl⟩ := hsw
  have hinc' : Moves h h₁ [a] [b, a] [] := Moves.of_increment hinc
  have hdec' : Moves h₁ h₂ [b, a] [b] [] :=
    (Moves.of_release hdec (l := [b])).congr (fun x => by
      simp only [List.count_cons, List.count_nil]; omega) fun _ => rfl
  exact ⟨hinc'.trans hdec', rfl⟩

theorem getSequentialData_eq_ok {c c' : Client} {ev : Bool} {res : Option (Reading D)}
    (hg : getSequentialData h a c ev = .ok (c', res)) :
    ∃ n ts, h a = some n ∧ c.accessed = none ∧ n.newer.isSome ∧ 1 < n.readAccesses ∧
      actualTime h n ev = .ok ts ∧ c' = { c with accessed := some a } ∧
      res = n.data.map fun d => (ts, d) := by
  simp only [getSequentialData, bind_eq_ok, require_eq_ok, deref_eq_ok, pure_eq_ok,
    Prod.mk.injEq, Option.isNone_iff_eq_none, decide_eq_true_eq] at hg
  obtain ⟨_, hacc, n, hn, _, hnewer, _, hcount, ts, hts, rfl, rfl⟩ := hg
  exact ⟨n, ts, hn, hacc, hnewer, hcount, hts, rfl, rfl⟩

/-- A sequential reader steps over a gap, and then gets its next point or nothing. -/
theorem accessSequential_cases {c c' : Client} {t : ℕ} {res : Option (Reading D)} (hL : Linked e)
    (h : accessSequential e c t = .ok (h', c', res)) :
    ∃ r n₀ r' n, c.readIndex = some r ∧ e.heap r = some n₀ ∧ h' r' = some n ∧
      Moves e.heap h' [r] [r'] [] ∧
      (n₀.seqId ≠ 0 ∧ r' = r ∧ h' = e.heap ∨ n₀.seqId = 0 ∧ r' = r + 1 ∧ r < e.latest) ∧
      ((∃ ts, n.newer.isSome ∧ n.timeOrTimeEnd ≤ t ∧ c.accessed = none ∧ 1 < n.readAccesses ∧
          actualTime h' n e.eventtype = .ok ts ∧
          c' = { c with readIndex := some r', seqId := n.seqId, accessed := some r' } ∧
          res = n.data.map fun d => (ts, d)) ∨
        (¬ (n.newer.isSome ∧ n.timeOrTimeEnd ≤ t) ∧
          c' = { c with readIndex := some r' } ∧ res = none)) := by
  simp only [accessSequential, bind_eq_ok, follow_eq_ok, deref_eq_ok] at h
  obtain ⟨r, hr, ⟨h₁, r'⟩, hskip, n, hn, h⟩ := h
  obtain ⟨n₀, hn₀, _⟩ := bind_eq_ok.mp hskip
  rw [deref_eq_ok] at hn₀
  obtain ⟨hmoves, hcase⟩ := skipGap_moves hL hn₀ hskip
  split at h
  · rename_i hgo
    simp only [beforeTick, Bool.and_eq_true, decide_eq_true_eq] at hgo
    obtain ⟨⟨c₁, res₁⟩, hget, h⟩ := bind_eq_ok.mp h
    simp only [pure_eq_ok, Prod.mk.injEq] at h
    obtain ⟨rfl, rfl, rfl⟩ := h
    obtain ⟨m, ts, hm, hacc, hnewer, hcount, hts, rfl, rfl⟩ := getSequentialData_eq_ok hget
    obtain rfl := Option.some.inj (hn.symm.trans hm)
    exact ⟨r, n₀, r', n, hr, hn₀, hn, hmoves, hcase,
      .inl ⟨ts, hnewer, hgo.2, hacc, hcount, hts, rfl, rfl⟩⟩
  · rename_i hgo
    simp only [pure_eq_ok, Prod.mk.injEq] at h
    obtain ⟨rfl, rfl, rfl⟩ := h
    refine ⟨r, n₀, r', n, hr, hn₀, hn, hmoves, hcase, .inr ⟨?_, rfl, rfl⟩⟩
    simpa [beforeTick] using hgo

theorem getData_eq_ok {c c' : Client} {ev : Bool} {res : Option (Reading D)}
    (hg : getData h a c ev = .ok (h', c', res)) :
    ∃ n, h a = some n ∧ c.accessed = none ∧
      ((h' = h ∧ c' = c ∧ res = none ∧ (n.newer = none ∨ n.readAccesses = 0)) ∨
        ∃ ts, n.newer.isSome ∧ n.readAccesses ≠ 0 ∧ actualTime h n ev = .ok ts ∧
          h' = store h a n.increment ∧ c' = { c with accessed := some a } ∧
          res = n.data.map fun d => (ts, d)) := by
  simp only [getData, bind_eq_ok, require_eq_ok, deref_eq_ok, Option.isNone_iff_eq_none] at hg
  obtain ⟨_, hacc, n, hn, hg⟩ := hg
  refine ⟨n, hn, hacc, ?_⟩
  split at hg
  · rename_i hno
    simp only [pure_eq_ok, Prod.mk.injEq] at hg
    obtain ⟨rfl, rfl, rfl⟩ := hg
    exact .inl ⟨rfl, rfl, rfl, by simpa using hno⟩
  · rename_i hno
    simp only [bind_eq_ok, pure_eq_ok, Prod.mk.injEq] at hg
    obtain ⟨ts, hts, rfl, rfl, rfl⟩ := hg
    simp only [Bool.or_eq_true, decide_eq_true_eq, not_or, Option.isNone_iff_eq_none] at hno
    exact .inr ⟨ts, Option.isSome_iff_ne_none.mpr hno.1, hno.2, hts, rfl, rfl, rfl⟩

/-- A reader by time finds no point, or gets one it then holds. -/
theorem accessTimed_cases {c c' : Client} {t : ℕ} {res : Option (Reading D)}
    (h : accessTimed e c t = .ok (h', c', res)) :
    (h' = e.heap ∧ c' = c ∧ res = none) ∨
      ∃ l a₀ b n ts, e.heap e.latest = some l ∧ l.older = some a₀ ∧
        findBefore e.heap e.oldest t (e.fresh + 1) a₀ = .ok (some b) ∧ e.heap b = some n ∧
        c.accessed = none ∧ n.newer.isSome ∧ n.readAccesses ≠ 0 ∧
        actualTime e.heap n e.eventtype = .ok ts ∧ h' = store e.heap b n.increment ∧
        (∃ q, c' = { c with accessed := some b, seqId := q }) ∧
        res = n.data.map fun d => (ts, d) := by
  simp only [accessTimed, bind_eq_ok, deref_eq_ok] at h
  obtain ⟨o, ho, h⟩ := h
  split at h
  · exact absurd h throw_ne_ok
  simp only [bind_eq_ok, follow_eq_ok, deref_eq_ok] at h
  obtain ⟨l, hl, a₀, ha₀, n, hn, h⟩ := h
  split at h
  · simp only [pure_eq_ok, Prod.mk.injEq] at h
    exact .inl ⟨h.1.symm, h.2.1.symm, h.2.2.symm⟩
  obtain ⟨found, hfound, h⟩ := bind_eq_ok.mp h
  cases found with
  | none =>
    simp only [pure_eq_ok, Prod.mk.injEq] at h
    exact .inl ⟨h.1.symm, h.2.1.symm, h.2.2.symm⟩
  | some b =>
    simp only [bind_eq_ok, deref_eq_ok] at h
    obtain ⟨m, hm, ⟨h₁, c₁, res₁⟩, hget, h⟩ := h
    simp only [pure_eq_ok, Prod.mk.injEq] at h
    obtain ⟨rfl, rfl, rfl⟩ := h
    obtain ⟨n', hn', hacc, hcase⟩ := getData_eq_ok hget
    rcases hcase with ⟨rfl, rfl, rfl, _⟩ | ⟨ts, hnewer, hcount, hts, rfl, rfl, rfl⟩
    · exact .inl ⟨rfl, by simp, rfl⟩
    · refine .inr ⟨l, a₀, b, n', ts, hl, ha₀, hfound, hn', hacc, hnewer, hcount, hts, rfl, ?_, rfl⟩
      split
      · exact ⟨_, rfl⟩
      · exact ⟨c.seqId, rfl⟩

theorem returnData_eq_ok {c c' : Client} (hr : returnData h c = .ok (h', c')) :
    ∃ a, c.accessed = some a ∧ c' = { c with accessed := none } ∧
      ∀ l, Moves h h' (a :: l) l [] := by
  simp only [returnData, bind_eq_ok, follow_eq_ok, pure_eq_ok, Prod.mk.injEq] at hr
  obtain ⟨a, ha, h₁, hrel, rfl, rfl⟩ := hr
  exact ⟨a, ha, rfl, fun l => Moves.of_release hrel⟩

theorem assumeData_eq_ok {c c' : Client} (hr : assumeData h c = .ok (h', c')) :
    ∃ a, c.accessed = some a ∧ c' = { c with accessed := none } ∧
      ∀ l, Moves h h' (a :: l) l [a] := by
  simp only [assumeData, bind_eq_ok, follow_eq_ok, pure_eq_ok, Prod.mk.injEq] at hr
  obtain ⟨a, ha, h₁, hmod, rfl, rfl⟩ := hr
  obtain ⟨n, hn, rfl⟩ := modifyAt_eq_ok.mp hmod
  exact ⟨a, ha, rfl, fun l => Moves.assume hn l⟩

/-- One more access at `b`, and then one less at `a`. -/
theorem Moves.swap (h₁ : incrementReadAccess h b = .ok h')
    (h₂ : ∀ l, Moves h' h'' (a :: l) l taken) : Moves h h'' [a] [b] taken := by
  have hinc : Moves h h' [a] [b, a] [] := Moves.of_increment h₁
  have hdec : Moves h' h'' [b, a] [b] taken :=
    (h₂ [b]).congr (fun x => by simp only [List.count_cons, List.count_nil]; omega) fun _ => rfl
  exact hinc.trans hdec

theorem releaseData_cases {c c' : Client} (h : releaseData e c = .ok (h', c')) :
    ∃ a, c.accessed = some a ∧
      ((c.sequentialRead = true ∧ ∃ r n b, c.readIndex = some r ∧ e.heap r = some n ∧
          n.newer = some b ∧ Moves e.heap h' [a] [b] [] ∧
          c' = { c with readIndex := some b, accessed := none }) ∨
        (c.sequentialRead = false ∧ Moves e.heap h' [a] [] [] ∧
          c' = { c with accessed := none })) := by
  rw [releaseData] at h
  split at h
  · rename_i hs
    simp only [bind_eq_ok, follow_eq_ok, deref_eq_ok] at h
    obtain ⟨r, hr, n, hn, b, hb, h₁, hinc, h⟩ := h
    obtain ⟨a, ha, rfl, hm⟩ := returnData_eq_ok h
    exact ⟨a, ha, .inl ⟨hs, r, n, b, hr, hn, hb, Moves.swap hinc hm, rfl⟩⟩
  · rename_i hs
    obtain ⟨a, ha, rfl, hm⟩ := returnData_eq_ok h
    exact ⟨a, ha, .inr ⟨by simpa using hs, hm [], rfl⟩⟩

theorem releaseDataNoStep_cases {c c' : Client} (h : releaseDataNoStep e c = .ok (h', c')) :
    ∃ a, c.accessed = some a ∧ c' = { c with accessed := none } ∧
      ((c.sequentialRead = true ∧ Moves e.heap h' [a] [a] []) ∨
        (c.sequentialRead = false ∧ Moves e.heap h' [a] [] [])) := by
  rw [releaseDataNoStep] at h
  split at h
  · rename_i hs
    simp only [bind_eq_ok, follow_eq_ok] at h
    obtain ⟨a, ha, h₁, hinc, h⟩ := h
    obtain ⟨a', ha', rfl, hm⟩ := returnData_eq_ok h
    obtain rfl := Option.some.inj (ha.symm.trans ha')
    exact ⟨a, ha, rfl, .inl ⟨hs, Moves.swap hinc hm⟩⟩
  · rename_i hs
    obtain ⟨a, ha, rfl, hm⟩ := returnData_eq_ok h
    exact ⟨a, ha, rfl, .inr ⟨by simpa using hs, hm []⟩⟩

theorem releaseOnlyAccess_cases {c c' : Client} (h : releaseOnlyAccess e c = .ok (h', c')) :
    ∃ a, c.accessed = some a ∧
      ((c.sequentialRead = true ∧ ∃ n b, e.heap a = some n ∧ n.newer = some b ∧
          Moves e.heap h' [a] [b] [a] ∧
          c' = { c with readIndex := some b, accessed := none }) ∨
        (c.sequentialRead = false ∧ Moves e.heap h' [a] [] [a] ∧
          c' = { c with accessed := none })) := by
  rw [releaseOnlyAccess] at h
  split at h
  · rename_i hs
    simp only [bind_eq_ok, follow_eq_ok, deref_eq_ok] at h
    obtain ⟨a, ha, n, hn, b, hb, h₁, hinc, h⟩ := h
    obtain ⟨a', ha', rfl, hm⟩ := assumeData_eq_ok h
    obtain rfl := Option.some.inj (ha.symm.trans ha')
    exact ⟨a, ha, .inl ⟨hs, n, b, hn, hb, Moves.swap hinc hm, rfl⟩⟩
  · rename_i hs
    obtain ⟨a, ha, rfl, hm⟩ := assumeData_eq_ok h
    exact ⟨a, ha, .inr ⟨by simpa using hs, hm [], rfl⟩⟩

/-- Skipping points moves the access of a sequential reader, and nothing else. -/
def Skips (e : UChannelEntry D) (c : Client) (h' : Heap D) (c' : Client) : Prop :=
  c.sequentialRead = true ∧ ∃ r r', c.readIndex = some r ∧
    Moves e.heap h' [r] [r'] [] ∧ c' = { c with readIndex := some r' }

theorem Skips.rfl_of {c : Client} {r : ℕ} (hs : c.sequentialRead = true)
    (hr : c.readIndex = some r) : Skips e c e.heap c :=
  ⟨hs, r, r, hr, Moves.refl _ _, by rw [← hr]⟩

/-- Stepping over a gap and moving on. -/
theorem Skips.of_skipGap {c c' : Client} {r r₁ r₂ : ℕ} (hL : Linked e)
    (hs : c.sequentialRead = true) (hr : c.readIndex = some r)
    (hskip : skipGap e.heap r = .ok (h', r₁)) (hsw : switchAccess h' c r₁ r₂ = .ok (h'', c')) :
    Skips e c h'' c' := by
  obtain ⟨n, hn, _⟩ := bind_eq_ok.mp hskip
  obtain ⟨hmoves, rfl⟩ := switchAccess_moves hsw
  exact ⟨hs, r, r₂, hr, (skipGap_moves hL (deref_eq_ok.mp hn) hskip).1.trans hmoves, rfl⟩

theorem spinToLast_skips {c c' : Client} {n : ℕ} (hL : Linked e)
    (h : spinToLast e c = .ok (h', c', n)) : Skips e c h' c' := by
  simp only [spinToLast, bind_eq_ok, require_eq_ok, follow_eq_ok, deref_eq_ok] at h
  obtain ⟨_, hs, r, hr, l, hl, h⟩ := h
  split at h
  · simp only [pure_eq_ok, Prod.mk.injEq] at h
    obtain ⟨rfl, rfl, -⟩ := h
    exact .rfl_of hs hr
  split at h
  · simp only [pure_eq_ok, Prod.mk.injEq] at h
    obtain ⟨rfl, rfl, -⟩ := h
    exact .rfl_of hs hr
  simp only [bind_eq_ok, deref_eq_ok, pure_eq_ok, Prod.mk.injEq] at h
  obtain ⟨⟨h₁, r₁⟩, hskip, _, _, _, _, ⟨h₂, c₂⟩, hsw, rfl, rfl, -⟩ := h
  exact .of_skipGap hL hs hr hskip hsw

theorem spinToLastBefore_skips {c c' : Client} {t n : ℕ}
    (h : spinToLastBefore e c t = .ok (h', c', n)) : Skips e c h' c' := by
  simp only [spinToLastBefore, bind_eq_ok, require_eq_ok, follow_eq_ok, deref_eq_ok] at h
  obtain ⟨_, hs, r, hr, l, hl, a, ha, m, hm, h⟩ := h
  split at h
  · simp only [pure_eq_ok, Prod.mk.injEq] at h
    obtain ⟨rfl, rfl, -⟩ := h
    exact .rfl_of hs hr
  simp only [bind_eq_ok] at h
  obtain ⟨b, hb, spinto, hspin, h⟩ := h
  split at h
  · simp only [pure_eq_ok, Prod.mk.injEq] at h
    obtain ⟨rfl, rfl, -⟩ := h
    exact .rfl_of hs hr
  simp only [bind_eq_ok, deref_eq_ok, pure_eq_ok, Prod.mk.injEq] at h
  obtain ⟨_, _, _, _, ⟨h₂, c₂⟩, hsw, rfl, rfl, -⟩ := h
  obtain ⟨hmoves, rfl⟩ := switchAccess_moves hsw
  exact ⟨hs, r, spinto, hr, hmoves, rfl⟩

theorem flushAll_skips {c c' : Client} {n : ℕ} (hL : Linked e)
    (h : flushAll e c = .ok (h', c', n)) : Skips e c h' c' := by
  simp only [flushAll, bind_eq_ok, require_eq_ok, follow_eq_ok] at h
  obtain ⟨_, hs, r, hr, h⟩ := h
  split at h
  · simp only [pure_eq_ok, Prod.mk.injEq] at h
    obtain ⟨rfl, rfl, -⟩ := h
    exact .rfl_of hs hr
  simp only [bind_eq_ok, deref_eq_ok, follow_eq_ok, pure_eq_ok, Prod.mk.injEq] at h
  obtain ⟨⟨h₁, r₁⟩, hskip, _, _, _, _, _, _, _, _, ⟨h₂, c₂⟩, hsw, rfl, rfl, -⟩ := h
  exact .of_skipGap hL hs hr hskip hsw

theorem flushOne_skips {c c' : Client} {n : ℕ} (hL : Linked e)
    (h : flushOne e c = .ok (h', c', n)) : Skips e c h' c' := by
  simp only [flushOne, bind_eq_ok, require_eq_ok, follow_eq_ok] at h
  obtain ⟨_, hs, r, hr, h⟩ := h
  split at h
  · simp only [pure_eq_ok, Prod.mk.injEq] at h
    obtain ⟨rfl, rfl, -⟩ := h
    exact .rfl_of hs hr
  simp only [bind_eq_ok, deref_eq_ok, follow_eq_ok, pure_eq_ok, Prod.mk.injEq] at h
  obtain ⟨⟨h₁, r₁⟩, hskip, _, _, _, _, ⟨h₂, c₂⟩, hsw, rfl, rfl, -⟩ := h
  exact .of_skipGap hL hs hr hskip hsw

theorem detach_cases {c c' : Client} (h : detach e c = .ok (h', c')) :
    c' = { c with linked := false } ∧
      ((c.sequentialRead = true ∧ ∃ r, c.readIndex = some r ∧ Moves e.heap h' [r] [] []) ∨
        ((c.sequentialRead = false ∨ c.readIndex = none) ∧ h' = e.heap)) := by
  rw [detach] at h
  split at h
  · rename_i a hs hr
    simp only [bind_eq_ok, pure_eq_ok, Prod.mk.injEq] at h
    obtain ⟨h₁, hrel, rfl, rfl⟩ := h
    exact ⟨rfl, .inl ⟨hs, a, hr, Moves.of_release hrel⟩⟩
  · rename_i hno
    simp only [pure_eq_ok, Prod.mk.injEq] at h
    obtain ⟨rfl, rfl⟩ := h
    refine ⟨rfl, .inr ⟨?_, rfl⟩⟩
    cases hs : c.sequentialRead with
    | false => exact .inl rfl
    | true =>
      cases hr : c.readIndex with
      | none => exact .inr rfl
      | some a => exact absurd hr (hno a hs)

/-! ### The monitor -/

theorem monitorLatestData_cases {e' : UChannelEntry D} {res : Option (Reading D)}
    (h : monitorLatestData e = .ok (e', res)) :
    e.monitored = none ∧ ∃ heap monitored, e' = { e with heap, monitored } ∧
      (heap = e.heap ∧ (monitored = none ∨ ∃ a n, monitored = some a ∧ e.heap a = some n ∧
          (n.newer = none ∨ n.readAccesses = 0) ∧ ∃ l, e.heap e.latest = some l ∧ l.older = some a) ∨
        ∃ a n, e.heap a = some n ∧ heap = store e.heap a n.increment ∧ monitored = some a) := by
  simp only [monitorLatestData, bind_eq_ok, require_eq_ok, deref_eq_ok,
    Option.isNone_iff_eq_none] at h
  obtain ⟨_, hmon, o, ho, h⟩ := h
  refine ⟨hmon, ?_⟩
  split at h
  · exact absurd h throw_ne_ok
  simp only [bind_eq_ok, follow_eq_ok, deref_eq_ok] at h
  obtain ⟨l, hl, a, ha, n, hn, h⟩ := h
  split at h
  · simp only [pure_eq_ok, Prod.mk.injEq] at h
    exact ⟨e.heap, none, by rw [← h.1, ← hmon], .inl ⟨rfl, .inl rfl⟩⟩
  · split at h
    · rename_i hno
      simp only [pure_eq_ok, Prod.mk.injEq] at h
      exact ⟨e.heap, some a, h.1.symm,
        .inl ⟨rfl, .inr ⟨a, n, rfl, hn, by simpa using hno, l, hl, ha⟩⟩⟩
    · simp only [bind_eq_ok, pure_eq_ok, Prod.mk.injEq] at h
      obtain ⟨ts, hts, rfl, -⟩ := h
      exact ⟨_, some a, rfl, .inr ⟨a, n, hn, rfl, rfl⟩⟩

theorem monitorReleaseData_cases {e' : UChannelEntry D} (h : monitorReleaseData e = .ok e') :
    ∃ a heap, e.monitored = some a ∧ e' = { e with heap, monitored := none } ∧
      Moves e.heap heap [a] [] [] := by
  simp only [monitorReleaseData, bind_eq_ok, require_eq_ok, follow_eq_ok, pure_eq_ok] at h
  obtain ⟨_, _, a, ha, heap, hrel, rfl⟩ := h
  exact ⟨a, heap, ha, rfl, Moves.of_release hrel⟩

/-! ### Transport -/

/-- A packer steps over a gap, and then gets its next point. -/
theorem accessPackData_cases {p p' : PackerClient} {reading : Reading D} (hL : Linked e)
    (h : accessPackData e p = .ok (h', p', reading)) :
    ∃ r n₀ r' n ts d, p.handle.readIndex = some r ∧ e.heap r = some n₀ ∧ h' r' = some n ∧
      Moves e.heap h' [r] [r'] [] ∧
      (n₀.seqId ≠ 0 ∧ r' = r ∧ h' = e.heap ∨ n₀.seqId = 0 ∧ r' = r + 1 ∧ r < e.latest) ∧
      p.handle.accessed = none ∧ n.newer.isSome ∧ actualTime h' n e.eventtype = .ok ts ∧
      n.data = some d ∧ reading = (ts, d) ∧
      p' = { p with
        sendFull := p.sendFull || n₀.seqId = 0
        seqId := n.seqId
        handle := { p.handle with readIndex := some r', accessed := some r' } } := by
  simp only [accessPackData, bind_eq_ok, follow_eq_ok, deref_eq_ok] at h
  obtain ⟨r, hr, n₀, hn₀, ⟨h₁, r'⟩, hskip, n, hn, ⟨handle, res⟩, hget, h⟩ := h
  obtain ⟨hmoves, hcase⟩ := skipGap_moves hL hn₀ hskip
  obtain ⟨m, ts, hm, hacc, hnewer, -, hts, rfl, rfl⟩ := getSequentialData_eq_ok hget
  obtain rfl := Option.some.inj (hn.symm.trans hm)
  cases hd : n.data with
  | none => simp [hd, throw_ne_ok] at h
  | some d =>
    simp only [hd, Option.map_some, pure_eq_ok, Prod.mk.injEq] at h
    obtain ⟨rfl, rfl, rfl⟩ := h
    exact ⟨r, n₀, r', n, ts, d, hr, hn₀, hn, hmoves, hcase, hacc, hnewer, hts, hd, rfl, rfl⟩

/-- What packing a point does to an entry. -/
theorem packData_cases {conv : DataSetConverter D B} {idx seqid : ℕ}
    {room : List (Item B) → Bool} {e' : UChannelEntry D} {res : PackResult B}
    (h : packData conv e idx seqid room = .ok (e', res)) :
    (e.valid = false ∧ e' = e ∧ res = .invalid) ∨
      ∃ p heap p' reading q, e.valid = true ∧ e.pclients[idx]? = some p ∧
        accessPackData e p = .ok (heap, p', reading) ∧
        e' = { e with heap, pclients := e.pclients.set idx q } ∧
        ((e.entryId = entryEnd ∧
            (q = p' ∧ res ≠ .boundary ∨ q = { p with handle := p'.handle } ∧ res = .boundary)) ∨
          (e.entryId ≠ entryEnd ∧ seqid = p'.seqId ∧ ∃ items data,
            packItems conv e heap p'.toPackerClientData reading = .ok (items, data) ∧
            (room items = true ∧ res = .packed items ∧
                q = { data with previousData := p'.handle.accessed, handle := p'.handle } ∨
              room items = false ∧ res = .boundary ∧ q = { p with handle := p'.handle }))) := by
  rw [packData] at h
  split at h
  · rename_i hv
    simp only [pure_eq_ok, Prod.mk.injEq] at h
    exact .inl ⟨by simpa using hv, h.1.symm, h.2.symm⟩
  rename_i hv
  have hv : e.valid = true := by simpa using hv
  split at h
  · exact absurd h throw_ne_ok
  rename_i p hp
  obtain ⟨⟨heap, p', reading⟩, hacc, h⟩ := bind_eq_ok.mp h
  refine .inr ⟨p, heap, p', reading, ?_⟩
  dsimp only at h
  split at h
  · rename_i hend
    split at h
    · simp only [pure_eq_ok, Prod.mk.injEq] at h
      exact ⟨p', hv, hp, hacc, h.1.symm, .inl ⟨hend, .inl ⟨rfl, h.2 ▸ nofun⟩⟩⟩
    · simp only [pure_eq_ok, Prod.mk.injEq] at h
      exact ⟨_, hv, hp, hacc, h.1.symm, .inl ⟨hend, .inr ⟨rfl, h.2.symm⟩⟩⟩
  · rename_i hend
    simp only [bind_eq_ok, require_eq_ok, decide_eq_true_eq] at h
    obtain ⟨_, hseq, ⟨items, data⟩, hitems, h⟩ := h
    dsimp only at h
    split at h
    · rename_i hroom
      simp only [pure_eq_ok, Prod.mk.injEq] at h
      exact ⟨_, hv, hp, hacc, h.1.symm,
        .inr ⟨hend, hseq, items, data, hitems, .inl ⟨hroom, h.2.symm, rfl⟩⟩⟩
    · rename_i hroom
      simp only [pure_eq_ok, Prod.mk.injEq] at h
      exact ⟨_, hv, hp, hacc, h.1.symm,
        .inr ⟨hend, hseq, items, data, hitems, .inr ⟨by simpa using hroom, h.2.symm, rfl⟩⟩⟩

theorem packComplete_cases {idx : ℕ} {e' : UChannelEntry D} (h : packComplete e idx = .ok e') :
    ∃ p r n a m b heap, e.pclients[idx]? = some p ∧ p.handle.readIndex = some r ∧
      e.heap r = some n ∧ p.handle.accessed = some a ∧ e.heap a = some m ∧ m.newer = some b ∧
      Moves e.heap heap [a] [b] [] ∧
      e' = { e with
        heap
        pclients := e.pclients.set idx
          { p with handle := { p.handle with readIndex := n.newer, accessed := none } } } := by
  rw [packComplete] at h
  split at h
  · exact absurd h throw_ne_ok
  rename_i p hp
  simp only [bind_eq_ok, follow_eq_ok, deref_eq_ok, pure_eq_ok] at h
  obtain ⟨r, hr, n, hn, a, ha, m, hm, b, hb, h₁, hinc, ⟨h₂, c⟩, hret, rfl⟩ := h
  obtain ⟨a', ha', rfl, hmoves⟩ := returnData_eq_ok hret
  obtain rfl := Option.some.inj (ha.symm.trans ha')
  exact ⟨p, r, n, a, m, b, h₂, hp, hr, hn, ha, hm, hb, Moves.swap hinc hmoves, rfl⟩

/-- A new reader: a sequential one holds the oldest point. -/
theorem link_cases {e' : UChannelEntry D} {sequentialRead : Bool} {span depth : ℕ}
    (h : link e sequentialRead span depth = .ok e') :
    (sequentialRead = true ∧ ∃ n heap, e.heap e.oldest = some n ∧ n.readAccesses ≠ 0 ∧
        heap = store e.heap e.oldest n.increment ∧
        e' = { e with
          heap
          clients := e.clients ++ [{ sequentialRead := true, readIndex := some e.oldest }] }) ∨
      (sequentialRead = false ∧ e' = { e with
        span := max span e.span
        depth := max depth e.depth
        clients := e.clients ++ [{ sequentialRead := false, readIndex := none }] }) := by
  rw [link] at h
  split at h
  · rename_i hs
    simp only [latchSequentialRead, bind_eq_ok, deref_eq_ok, pure_eq_ok] at h
    obtain ⟨e₁, ⟨n, hn, hlatch⟩, rfl⟩ := h
    split at hlatch
    · exact absurd hlatch throw_ne_ok
    · rename_i hpos
      simp only [pure_eq_ok] at hlatch
      subst hlatch
      exact .inl ⟨hs, n, _, hn, hpos, rfl, rfl⟩
  · rename_i hs
    simp only [pure_eq_ok] at h
    exact .inr ⟨by simpa using hs, h.symm⟩

end Dueca.Entry
