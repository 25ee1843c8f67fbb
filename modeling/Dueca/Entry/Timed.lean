import Dueca.Entry.Flushing

/-!
# Access by time

A reader that does not read sequentially asks for the point of a stream that holds at a tick. The
search goes back from the newest point. It compares a data point with the oldest point, but not a
gap, so that it goes past the oldest point when that is a gap, and then gives a point that was
retired, or follows a link to a freed one.
-/

namespace Dueca.Entry

open Dueca.Lib UChannelEntryData

variable {D B : Type} {e e' : UChannelEntry D} {conv : DataSetConverter D B}
variable {a b t : ℕ} {c : Client} {n m : UChannelEntryData D}

/-! ### The oldest point -/

/-- The oldest point comes before the sentinel, once there is a point. -/
def Led (e : UChannelEntry D) : Prop := e.oldest < e.latest ∨ e.latest = 1

/-- The newest point is not retired. -/
theorem not_retirable_newest (hL : Linked e) (hO : Ordered e) (now : ℕ) :
    retirable e now (e.latest - 1) = false := by
  have hlt := hL.cleanup_lt
  have hle := hL.oldest_le
  obtain ⟨l, hl⟩ := hL.exists_latest
  obtain ⟨n, hn⟩ := hL.exists_node (a := e.latest - 1) (by omega) (by omega)
  obtain ⟨hdata, hz, -⟩ := hO.last l hl
  have hnewer : n.newer = some e.latest := by
    have := hL.newer_of_lt hn (by omega)
    rwa [Nat.sub_add_cancel (by omega)] at this
  have hobs : obsolete e.heap n now e.span = .ok false := by
    rw [obsolete]
    split
    · rw [hnewer]
      simp only [deref_eq_ok.mpr hl, bind, Except.bind, hdata, hz]
      rfl
    · rfl
  simp only [retirable, hn, hl, hobs, Bool.false_and]

theorem Cleaning.lt_latest {now o : ℕ} (hL : Linked e) (hO : Ordered e)
    (hC : Cleaning e now a o) (h : e.oldest < e.latest) : o < e.latest := by
  by_contra hge
  have hle := hC.le_latest
  have := hC.retired (e.latest - 1) (by omega) (by omega)
  rw [not_retirable_newest hL hO] at this
  cases this

theorem latest_lt_of_written {data : D} {l : UChannelEntryData D} {w : DataTimeSpec}
    (hL : Linked e) (hw : e.written l data w = some e') :
    e.latest < e'.latest ∧ e'.oldest = e.oldest := by
  have hfr := hL.fresh_eq
  rcases written_cases hw with ⟨start, ts, rfl, -⟩ | ⟨rfl, -⟩
  · refine ⟨?_, rfl⟩
    show e.latest < e.fresh
    omega
  · refine ⟨?_, rfl⟩
    show e.latest < e.fresh + 1
    omega

/-- Every operation leaves the oldest point before the sentinel. -/
theorem led_step {op : Op D} (hS : Sound e) (h : Led e) (hstep : advance conv e op = .ok e') :
    Led e' := by
  obtain ⟨work, hstep⟩ := advance_eq_ok hstep
  have hle := hS.linked.oldest_le
  by_cases hop : ∃ data w current, op = .newData data w current
  · obtain ⟨data, w, current, rfl⟩ := hop
    obtain ⟨l, hl⟩ := hS.linked.exists_latest
    obtain ⟨k, o, hC, hL', -, ⟨-, rfl, -⟩ | ⟨m, _, _, -, hw, -, -, -, hframe⟩⟩ :=
      newData_outcome hS.linked hS.manned hl hstep
    · show o < e.latest ∨ e.latest = 1
      exact h.imp_left (hC.lt_latest hS.linked hS.ordered)
    · obtain ⟨hlt, hold⟩ := latest_lt_of_written hL' hw
      have hlt : e.latest < m.latest := hlt
      have hold : m.oldest = o := hold
      have hol := hC.le_latest
      refine .inl ?_
      rw [hframe.oldest, hframe.latest]
      omega
  · push Not at hop
    obtain ⟨-, hs, -⟩ := step_shape hS.linked hS.manned hop hstep
    rwa [Led, hs.oldest, hs.latest]

theorem led_of_run {ops : List (Op D)} {s : UChannelEntry D} (hS : Sound s)
    (hw : s.lastId + writes ops < 4294967296) (hrun : exec (advance conv) s ops = .ok e)
    (h : Led s) : Led e :=
  invariant_of_run (fun _ _ _ hS _ => led_step hS) hS hw hrun h

/-! ### The point that holds at a tick -/

/-- The available point holds at the tick: its span contains the tick, or it is the newest point
and starts at or before the tick. -/
def Matches (e : UChannelEntry D) (t : ℕ) (p : Point D) : Prop :=
  p ∈ reachable e ∧ p.1.1 ≤ t ∧ (t < p.1.2 ∨ (reachable e).getLast? = some p)

/-- The heap without the points before the oldest one. -/
def availableHeap (e : UChannelEntry D) : Heap D := fun a =>
  if a < e.oldest then none else e.heap a

/-- The search goes through when the points before the oldest one are not there. -/
def StaysAvailable (e : UChannelEntry D) (t : ℕ) : Prop :=
  ∃ x, findBefore (availableHeap e) e.oldest t (e.fresh + 1) (e.latest - 1) = .ok x

/-- A reader gets the data of the point that holds at the tick, or nothing when there is no such
point, and the search visits no point before the oldest one. -/
structure TimedRight (e : UChannelEntry D) (c : Client) (t : ℕ) : Prop where
  result : ∃ heap c' res, accessData e c t = .ok (heap, c', res) ∧
    (∀ p, Matches e t p → res = p.2.map (Prod.mk p.1)) ∧ ((∀ p, ¬ Matches e t p) → res = none)
  available : e.valid = true → newestTaken e = false → StaysAvailable e t

/-- When the entry can be read and the newest point has its data, the oldest point is not a gap
that starts after the tick; otherwise no point that holds at the tick has data. -/
def TimedWhen (e : UChannelEntry D) (t : ℕ) : Prop :=
  if e.valid && !newestTaken e then
    ∀ n ∈ e.heap e.oldest, n.seqId = 0 → n.timeOrTimeEnd ≤ t
  else ∀ p, Matches e t p → p.2 = none

/-- The node at `a` is a data point that holds at the tick. -/
def HoldsAt (e : UChannelEntry D) (t a : ℕ) : Prop :=
  ∃ n, e.heap a = some n ∧ n.seqId ≠ 0 ∧ a < e.latest ∧ n.timeOrTimeEnd ≤ t ∧
    (a + 1 = e.latest ∨ ∃ m, e.heap (a + 1) = some m ∧ t < m.timeOrTimeEnd)

theorem HoldsAt.unique (hT : Tidy e) (hev : e.eventtype = false) (ha : HoldsAt e t a)
    (hb : HoldsAt e t b) : a = b := by
  have key {a b : ℕ} (ha : HoldsAt e t a) (hb : HoldsAt e t b) : b ≤ a := by
    obtain ⟨n, hn, -, hal, -, hnext⟩ := ha
    obtain ⟨k, hk, -, hbl, hkt, -⟩ := hb
    by_contra hlt
    rcases hnext with h | ⟨m, hm, hlate⟩
    · omega
    · have := hT.ordered.time_le hT.linked hev (by omega : a + 1 ≤ b) hm hk
      omega
  exact le_antisymm (key hb ha) (key ha hb)

/-- The last available point is that of the node before the sentinel. -/
theorem getLast?_reachable (hT : Tidy e) (hlt : e.oldest < e.latest)
    (hn : e.heap (e.latest - 1) = some n) (hz : n.seqId ≠ 0) :
    (reachable e).getLast? = pointAt e (e.latest - 1) := by
  obtain ⟨p, hp⟩ := Option.isSome_iff_exists.mp ((pointAt_isSome hT.linked hn (by omega)).mpr hz)
  have hlast : pointsFrom e (e.latest - 1) = [p] := by
    rw [pointsFrom_cons (by omega), hp, Nat.sub_add_cancel (by omega), pointsFrom_latest]
    rfl
  rw [reachable, pointsFrom_split (by omega : e.oldest ≤ e.latest - 1) (by omega), hlast, hp,
    List.getLast?_concat]

/-- The points that hold at a tick, by their nodes. -/
theorem matches_iff (hT : Tidy e) (hev : e.eventtype = false)
    (hlt : e.oldest < e.latest) (hn : e.heap (e.latest - 1) = some n) (hz : n.seqId ≠ 0)
    {p : Point D} :
    Matches e t p ↔ ∃ a, e.oldest ≤ a ∧ HoldsAt e t a ∧ pointAt e a = some p := by
  have hlast := getLast?_reachable hT hlt hn hz
  constructor
  · rintro ⟨hp, hstart, hend⟩
    rcases hend with hend | hnewest
    · obtain ⟨a, hoa, hal, hpa⟩ := mem_reachable hp
      obtain ⟨k, m, hk, hm, hkz, rfl⟩ := pointAt_eq_some hpa
      rw [hev] at hend
      exact ⟨a, hoa, ⟨k, hk, hkz, hal, hstart, .inr ⟨m, hm, hend⟩⟩, hpa⟩
    · rw [hlast] at hnewest
      obtain ⟨k, m, hk, -, hkz, rfl⟩ := pointAt_eq_some hnewest
      exact ⟨e.latest - 1, by omega, ⟨k, hk, hkz, by omega, hstart, .inl (by omega)⟩, hnewest⟩
  · rintro ⟨a, hoa, ⟨k, hk, hkz, hal, hstart, hend⟩, hpa⟩
    obtain ⟨k', m, hk', hm, -, rfl⟩ := pointAt_eq_some hpa
    obtain rfl := Option.some.inj (hk.symm.trans hk')
    refine ⟨List.mem_filterMap.mpr ⟨a, by rw [List.mem_range'_1]; omega, hpa⟩, hstart, ?_⟩
    rcases hend with hnewest | ⟨m', hm', hlate⟩
    · refine .inr ?_
      rw [hlast, show e.latest - 1 = a by omega, hpa]
    · obtain rfl := Option.some.inj (hm.symm.trans hm')
      refine .inl ?_
      rw [hev]
      exact hlate

/-! ### The search -/

/-- The heap without the points before the oldest one, or with them. -/
def Keeps (e : UChannelEntry D) (h : Heap D) : Prop := ∀ a, e.oldest ≤ a → h a = e.heap a

theorem keeps_available (e : UChannelEntry D) : Keeps e (availableHeap e) := fun _ ha =>
  if_neg (Nat.not_lt.mpr ha)

/-- The search finds the point that holds at the tick, unless there is none, when the oldest point
is no gap that starts after the tick. All data points behind `b` are too late. -/
theorem findBefore_spec {h : Heap D} {fuel : ℕ} (hT : Tidy e) (hev : e.eventtype = false)
    (hh : Keeps e h) (hgap : ∀ n ∈ e.heap e.oldest, n.seqId = 0 → n.timeOrTimeEnd ≤ t)
    (hob : e.oldest ≤ b) (hbl : b < e.latest) (hm : e.heap b = some m) (hmz : m.seqId ≠ 0)
    (hlate : ∀ a n, b < a → a < e.latest → e.heap a = some n → n.seqId ≠ 0 →
      t < n.timeOrTimeEnd)
    (hnext : b + 1 < e.latest → ∀ n, e.heap (b + 1) = some n → t < n.timeOrTimeEnd)
    (hf : b - e.oldest < fuel) :
    ∃ x, findBefore h e.oldest t fuel b = .ok x ∧
      (∀ a ∈ x, e.oldest ≤ a ∧ HoldsAt e t a) ∧
      (x = none → ∀ a, e.oldest ≤ a → ¬ HoldsAt e t a) := by
  have hlt := hT.linked.cleanup_lt
  induction fuel generalizing b m with
  | zero => omega
  | succ fuel ih =>
    have hmh : h b = some m := (hh b hob).trans hm
    simp only [findBefore, deref_eq_ok.mpr hmh, bind, Except.bind]
    by_cases hbt : m.timeOrTimeEnd ≤ t
    · -- the point at `b` holds
      rw [if_neg (by simpa [afterTick] using hbt)]
      refine ⟨some b, rfl, fun a ha => ?_, fun h => by cases h⟩
      obtain rfl := Option.some.inj ha
      refine ⟨hob, m, hm, hmz, hbl, hbt, ?_⟩
      rcases Nat.lt_or_ge (b + 1) e.latest with h' | h'
      · obtain ⟨k, hk⟩ := hT.linked.exists_node (a := b + 1) (by omega) (by omega)
        exact .inr ⟨k, hk, hnext h' k hk⟩
      · exact .inl (by omega)
    rw [if_pos (by simpa [afterTick] using hbt)]
    -- from here on the point at `b` is too late as well
    have hnot {a : ℕ} (hba : b ≤ a) : ¬ HoldsAt e t a := by
      rintro ⟨n, hn, hz, hal, hnt, -⟩
      rcases hba.lt_or_eq with hba | rfl
      · have := hlate a n hba hal hn hz
        omega
      · obtain rfl := Option.some.inj (hm.symm.trans hn)
        exact hbt hnt
    have hlate' {x : ℕ} {k : UChannelEntryData D} (hx : b ≤ x) (hxl : x < e.latest)
        (hk : e.heap x = some k) (hkz : k.seqId ≠ 0) : t < k.timeOrTimeEnd := by
      rcases hx.lt_or_eq with hx | rfl
      · exact hlate x k hx hxl hk hkz
      · obtain rfl := Option.some.inj (hm.symm.trans hk)
        omega
    by_cases hbo : b = e.oldest
    · rw [if_pos hbo]
      exact ⟨none, rfl, fun a ha => absurd ha (Option.not_mem_none a), fun _ a hoa => hnot (hbo ▸ hoa)⟩
    rw [if_neg hbo]
    obtain ⟨j, hj⟩ := hT.linked.exists_node (a := b - 1) (by omega) (by omega)
    have hjh : h (b - 1) = some j := (hh _ (by omega)).trans hj
    have hbb : b - 1 + 1 = b := by omega
    simp only [hT.linked.older_eq b m hm (by omega), follow, deref_eq_ok.mpr hjh]
    by_cases hjz : j.seqId = 0
    · rw [if_pos hjz]
      by_cases hjt : j.timeOrTimeEnd ≤ t
      · -- the tick is in the gap
        rw [if_pos (by simpa [beforeTick] using hjt)]
        refine ⟨none, rfl, fun a ha => absurd ha (Option.not_mem_none a), fun _ a hoa hold => ?_⟩
        rcases Nat.lt_or_ge a b with hab | hab
        · obtain ⟨n, hn, hz, -, -, hend⟩ := hold
          have hne : a ≠ b - 1 := fun heq => hz (by
            subst heq
            rwa [← Option.some.inj (hj.symm.trans hn)])
          rcases hend with hend | ⟨k, hk, hkt⟩
          · omega
          · have := hT.ordered.time_le hT.linked hev (by omega : a + 1 ≤ b - 1) hk hj
            omega
        · exact hnot hab hold
      · rw [if_neg (by simpa [beforeTick] using hjt)]
        have hne : b - 1 ≠ e.oldest := fun heq => hjt (hgap j (heq ▸ hj) hjz)
        obtain ⟨i, hi⟩ := hT.linked.exists_node (a := b - 1 - 1) (by omega) (by omega)
        have hih : h (b - 1 - 1) = some i := (hh _ (by omega)).trans hi
        have hiz := (hT.ordered.gap (b - 1 - 1) i j hi
          (by rwa [show b - 1 - 1 + 1 = b - 1 by omega]) hjz).1
        simp only [hT.linked.older_eq (b - 1) j hj (by omega), deref_eq_ok.mpr hih]
        by_cases hio : b - 1 - 1 = e.oldest ∧ t < i.timeOrTimeEnd
        · rw [if_pos (by simpa [afterTick] using hio)]
          refine ⟨none, rfl, fun a ha => absurd ha (Option.not_mem_none a), fun _ a hoa hold => ?_⟩
          rcases Nat.lt_or_ge a b with hab | hab
          · obtain ⟨n, hn, hz, -, hnt, -⟩ := hold
            have hne : a ≠ b - 1 := fun heq => hz (by
              subst heq
              rwa [← Option.some.inj (hj.symm.trans hn)])
            obtain rfl : a = b - 1 - 1 := by omega
            obtain rfl := Option.some.inj (hi.symm.trans hn)
            omega
          · exact hnot hab hold
        · rw [if_neg (by simpa [afterTick] using hio)]
          refine ih (by omega) (by omega) hi hiz (fun x k hx hxl hk hkz => ?_)
            (fun _ k hk => ?_) (by omega)
          · have hne : x ≠ b - 1 := fun heq => hkz (by
              subst heq
              rwa [← Option.some.inj (hj.symm.trans hk)])
            exact hlate' (by omega) hxl hk hkz
          · rw [show b - 1 - 1 + 1 = b - 1 by omega] at hk
            obtain rfl := Option.some.inj (hj.symm.trans hk)
            omega
    · rw [if_neg hjz]
      refine ih (by omega) (by omega) hj hjz (fun x k hx hxl hk hkz => ?_) (fun _ k hk => ?_)
        (by omega)
      · exact hlate' (by omega) hxl hk hkz
      · rw [hbb] at hk
        obtain rfl := Option.some.inj (hm.symm.trans hk)
        omega

/-- When the oldest point is a gap that starts after the tick, the search goes past it. -/
theorem findBefore_lost {h : Heap D} {fuel : ℕ} (hT : Tidy e) (hev : e.eventtype = false)
    (hh : Keeps e h) (hfreed : h (e.oldest - 1) = none) (hn : e.heap e.oldest = some n) (hz : n.seqId = 0) (ht : t < n.timeOrTimeEnd)
    (hob : e.oldest < b) (hbl : b < e.latest) (hm : e.heap b = some m) (hmz : m.seqId ≠ 0)
    (hf : b - e.oldest < fuel) :
    findBefore h e.oldest t fuel b = .error .freedPointer := by
  have hlt := hT.linked.cleanup_lt
  induction fuel generalizing b m with
  | zero => omega
  | succ fuel ih =>
    have hlate {x : ℕ} {k : UChannelEntryData D} (hx : e.oldest ≤ x) (hk : e.heap x = some k) :
        t < k.timeOrTimeEnd :=
      ht.trans_le (hT.ordered.time_le hT.linked hev hx hn hk)
    obtain ⟨j, hj⟩ := hT.linked.exists_node (a := b - 1) (by omega) (by omega)
    simp only [findBefore, deref_eq_ok.mpr ((hh b hob.le).trans hm), bind, Except.bind]
    rw [if_pos (by simpa [afterTick] using hlate hob.le hm), if_neg hob.ne']
    simp only [hT.linked.older_eq b m hm (by omega), follow,
      deref_eq_ok.mpr ((hh (b - 1) (by omega)).trans hj)]
    by_cases hjz : j.seqId = 0
    · have hjt := hlate (by omega : e.oldest ≤ b - 1) hj
      rw [if_pos hjz, if_neg (by simpa [beforeTick] using hjt)]
      simp only [hT.linked.older_eq (b - 1) j hj (by omega)]
      by_cases hbo : b - 1 = e.oldest
      · rw [deref, hbo, hfreed]
      · obtain ⟨i, hi⟩ := hT.linked.exists_node (a := b - 1 - 1) (by omega) (by omega)
        have hiz := (hT.ordered.gap (b - 1 - 1) i j hi
          (by rwa [show b - 1 - 1 + 1 = b - 1 by omega]) hjz).1
        have hne : b - 1 - 1 ≠ e.oldest := fun heq => hiz (by
          rw [heq] at hi
          rwa [← Option.some.inj (hn.symm.trans hi)])
        simp only [deref_eq_ok.mpr ((hh (b - 1 - 1) (by omega)).trans hi)]
        rw [if_neg (by simp [hne])]
        exact ih (by omega) (by omega) hi hiz (by omega)
    · rw [if_neg hjz]
      have hne : b - 1 ≠ e.oldest := fun heq => hjz (by
        rw [heq] at hj
        rwa [← Option.some.inj (hn.symm.trans hj)])
      exact ih (by omega) (by omega) hj hjz (by omega)

/-! ### Access -/

/-- Without a newest point that has its data, or on an entry that is not valid, there is nothing
to read. -/
theorem Tidy.accessData_nothing (hT : Tidy e) (hs : c.sequentialRead = false)
    (h : e.valid = false ∨ newestTaken e = true) : accessData e c t = .ok (e.heap, c, none) := by
  rw [accessData]
  by_cases hv : e.valid = false
  · rw [hv]
    rfl
  have hlt := hT.linked.cleanup_lt
  obtain ⟨l, p, hl, holder, hp⟩ := hT.exists_newest
  obtain ⟨o, ho⟩ := hT.linked.exists_node (a := e.oldest) hlt.le hT.linked.oldest_le
  have hnone : p.data.isNone = true := by
    have := h.resolve_left hv
    rwa [newestTaken, hp, Option.any_some] at this
  rw [if_neg (by simpa using hv), if_neg (by simp [hs]), accessTimed]
  simp only [bind, Except.bind, deref_eq_ok.mpr ho,
    if_neg (hT.accounted.readAccesses_ne_zero ho), deref_eq_ok.mpr hl, holder, follow,
    deref_eq_ok.mpr hp]
  rw [if_pos hnone]
  rfl

/-- Otherwise the reader searches. -/
theorem Tidy.accessData_search (hT : Tidy e) (hv : e.valid = true)
    (hs : c.sequentialRead = false) (htaken : newestTaken e = false) :
    accessData e c t = (do
      match ← findBefore e.heap e.oldest t (e.fresh + 1) (e.latest - 1) with
      | none => pure (e.heap, c, none)
      | some b =>
        let m ← deref e.heap b
        let (h, c, res) ← getData e.heap b c e.eventtype
        pure (h, if res.isSome then { c with seqId := m.seqId } else c, res)) := by
  have hlt := hT.linked.cleanup_lt
  obtain ⟨l, q, hl, holder, hq⟩ := hT.exists_newest
  obtain ⟨o, ho⟩ := hT.linked.exists_node (a := e.oldest) hlt.le hT.linked.oldest_le
  have hdata : ¬ q.data.isNone = true := by
    rw [newestTaken, hq, Option.any_some] at htaken
    simp [htaken]
  rw [accessData, if_neg (by simp [hv]), if_neg (by simp [hs]), accessTimed]
  simp only [bind, Except.bind, deref_eq_ok.mpr ho,
    if_neg (hT.accounted.readAccesses_ne_zero ho), deref_eq_ok.mpr hl, holder, follow,
    deref_eq_ok.mpr hq]
  refine (if_neg hdata).trans ?_
  cases findBefore e.heap e.oldest t (e.fresh + 1) (e.latest - 1) with
  | error f => rfl
  | ok x => cases x <;> rfl

/-- The reader gets what the search finds. -/
theorem Tidy.accessData_found {x : Option ℕ} (hT : Tidy e) (hv : e.valid = true)
    (hs : c.sequentialRead = false) (hidle : c.accessed = none) (htaken : newestTaken e = false)
    (hfind : findBefore e.heap e.oldest t (e.fresh + 1) (e.latest - 1) = .ok x) :
    (x = none → accessData e c t = .ok (e.heap, c, none)) ∧
      ∀ a p n, x = some a → pointAt e a = some p → a < e.latest → e.heap a = some n →
        ∃ c', accessData e c t = .ok (store e.heap a n.increment, c', p.2.map (Prod.mk p.1)) ∧
          c'.accessed = some a ∧ c'.readIndex = c.readIndex ∧ c'.sequentialRead = false := by
  have haccess : accessData e c t = (do
      match x with
      | none => pure (e.heap, c, none)
      | some b =>
        let m ← deref e.heap b
        let (h, c, res) ← getData e.heap b c e.eventtype
        pure (h, if res.isSome then { c with seqId := m.seqId } else c, res)) := by
    rw [hT.accessData_search hv hs htaken, hfind]
    rfl
  rw [haccess]
  refine ⟨fun hx => ?_, fun a p n hx hp hal hn => ?_⟩
  · rw [hx]
    rfl
  · subst hx
    obtain ⟨n', m, hn', hm, hz, rfl⟩ := pointAt_eq_some hp
    obtain rfl := Option.some.inj (hn.symm.trans hn')
    have htime : actualTime e.heap n e.eventtype = .ok (n.timeOrTimeEnd,
        if e.eventtype then n.timeOrTimeEnd else m.timeOrTimeEnd) := by
      rw [actualTime]
      cases e.eventtype with
      | true => rfl
      | false =>
        simp only [hT.linked.newer_of_lt hn hal, follow, bind, Except.bind, deref_eq_ok.mpr hm]
        rfl
    have hget : getData e.heap a c e.eventtype = .ok (store e.heap a n.increment,
        { c with accessed := some a }, n.data.map (Prod.mk (n.timeOrTimeEnd,
          if e.eventtype then n.timeOrTimeEnd else m.timeOrTimeEnd))) := by
      simp only [getData, hidle, require, deref_eq_ok.mpr hn, hT.linked.newer_of_lt hn hal, bind,
        Except.bind, Option.isNone_none, if_true, Option.isNone_some, Bool.false_or,
        decide_eq_true_eq, if_neg (hT.accounted.readAccesses_ne_zero hn), htime]
      rfl
    simp only [bind, Except.bind, deref_eq_ok.mpr hn, hget]
    exact ⟨_, rfl, by simp only [apply_ite Client.accessed, ite_self],
      by simp only [apply_ite Client.readIndex, ite_self],
      by simp only [apply_ite Client.sequentialRead, ite_self, hs]⟩

/-- The newest point has data, so that there is an available one. -/
theorem Tidy.newest (hT : Tidy e) (hled : Led e) (htaken : newestTaken e = false) :
    e.oldest < e.latest ∧ ∃ p, e.heap (e.latest - 1) = some p ∧ p.seqId ≠ 0 := by
  obtain ⟨l, p, hl, holder, hp⟩ := hT.exists_newest
  have hpz : p.seqId ≠ 0 := fun hz => by
    rw [newestTaken, hp, Option.any_some, hT.ordered.gap_data _ p hp hz] at htaken
    cases htaken
  refine ⟨hled.resolve_right fun hone => hpz (by
    rw [hone] at hp
    exact hT.seqId_zero hp), p, hp, hpz⟩

/-- Access by time gives the right point just in the cases that are named above. -/
theorem Tidy.timedRight_iff (hT : Tidy e) (hled : Led e) (hev : e.eventtype = false)
    (hs : c.sequentialRead = false) (hidle : c.accessed = none) :
    TimedRight e c t ↔ TimedWhen e t := by
  have hlt := hT.linked.cleanup_lt
  have hfr := hT.linked.fresh_eq
  rw [TimedWhen]
  by_cases hread : e.valid = true ∧ newestTaken e = false
  · obtain ⟨hv, htaken⟩ := hread
    rw [if_pos (by simp [hv, htaken])]
    obtain ⟨hol, p, hp, hpz⟩ := hT.newest hled htaken
    constructor
    · intro hR n hn hz
      by_contra ht
      have hne : e.oldest ≠ e.latest - 1 := fun heq => hpz (by
        rw [← heq] at hp
        rwa [← Option.some.inj (Eq.trans (Eq.symm hn) hp)])
      obtain ⟨x, hx⟩ := hR.available hv htaken
      have hfreed : availableHeap e (e.oldest - 1) = none := if_pos (by omega)
      have hlost := (@findBefore_lost D e (e.latest - 1) t n p _ (e.fresh + 1)) hT hev
        (keeps_available e) hfreed hn hz (Nat.not_le.mp ht) (by omega) (by omega) hp hpz (by omega)
      rw [hlost] at hx
      cases hx
    · intro hgap
      have hsearch {h : Heap D} (hh : Keeps e h) :=
        (@findBefore_spec D e (e.latest - 1) t p h (e.fresh + 1)) hT hev hh hgap (by omega)
          (by omega) hp hpz (fun _ _ _ _ => by omega) (fun _ => by omega) (by omega)
      obtain ⟨x, hx, hfound, hnone⟩ := hsearch (fun _ _ => rfl)
      obtain ⟨habsent, hpoint⟩ := hT.accessData_found hv hs hidle htaken hx
      refine ⟨?_, fun _ _ => ?_⟩
      · cases x with
        | none =>
          refine ⟨_, _, none, habsent rfl, fun q hq => ?_, fun _ => rfl⟩
          obtain ⟨a, hoa, hold, -⟩ := (matches_iff hT hev hol hp hpz).mp hq
          exact absurd hold (hnone rfl a hoa)
        | some a =>
          obtain ⟨hoa, hold⟩ := hfound a rfl
          obtain ⟨n, hn, hz, hal, -⟩ := hold
          obtain ⟨q, hq⟩ := Option.isSome_iff_exists.mp
            ((pointAt_isSome hT.linked hn hal).mpr hz)
          obtain ⟨c', haccess, -⟩ := hpoint a q n rfl hq hal hn
          refine ⟨_, c', _, haccess, fun q' hq' => ?_, fun hno => ?_⟩
          · obtain ⟨b, -, hold', hb⟩ := (matches_iff hT hev hol hp hpz).mp hq'
            obtain rfl := (hfound a rfl).2.unique hT hev hold'
            rw [Option.some.inj (hq.symm.trans hb)]
          · exact absurd ((matches_iff hT hev hol hp hpz).mpr ⟨a, hoa, (hfound a rfl).2, hq⟩)
              (hno q)
      · obtain ⟨x, hx, -⟩ := hsearch (keeps_available e)
        exact ⟨x, hx⟩
  · rw [if_neg (by simpa using hread)]
    have hnothing := (@Tidy.accessData_nothing D e t c) hT hs (by
      by_contra h
      rw [not_or] at h
      exact hread ⟨by simpa using h.1, by simpa using h.2⟩)
    constructor
    · rintro ⟨⟨heap, c', res, hok, hmatch, -⟩, -⟩ p hp
      cases hnothing.symm.trans hok
      exact Option.map_eq_none_iff.mp (hmatch p hp).symm
    · intro hnone
      refine ⟨⟨_, _, none, hnothing, fun p hp => ?_, fun _ => rfl⟩, fun hv ht => ?_⟩
      · rw [hnone p hp]
        rfl
      · exact absurd ⟨hv, ht⟩ hread

/-- In each state of a stream after a run of careful operations, with fewer than `2 ^ 32 - 1`
writes, access by time gives the right point in these cases and in no other. -/
theorem timedRight_iff_of_run {writer eventtype fullpackmode : Bool} {nreservations : ℕ}
    {ops : List (Op D)} (hcare : Allowed (advance conv) Careful
      (UChannelEntry.create writer eventtype fullpackmode nreservations) ops)
    (hw : writes ops < 4294967295) (hrun : exec (advance conv)
      (UChannelEntry.create writer eventtype fullpackmode nreservations) ops = .ok e)
    (hev : e.eventtype = false) (hs : c.sequentialRead = false) (hidle : c.accessed = none)
    (t : ℕ) : TimedRight e c t ↔ TimedWhen e t := by
  have hid := lastId_create (D := D) writer eventtype fullpackmode nreservations
  exact (tidy_of_run hcare hw hrun).timedRight_iff
    (led_of_run (sound_create ..) (by omega) hrun (.inr rfl)) hev hs hidle

/-- A stream of which the first point is retired, so that the oldest one is a gap. -/
def gapOldest : List (Op ℕ) :=
  [.setValid 1, .link false 0 0, .newData 5 (.of 0 10 zero_ten) true, .newData 6 (.of 15 16) true,
    .newData 7 (.of 28 29) true]

/-- A reader by time. -/
def timedReader : Client := { sequentialRead := false, readIndex := none }

theorem timedRight_iff_gapOldest :
    ∃ e, exec (advance (.verbatim ℕ)) (UChannelEntry.create true false false 0) gapOldest = .ok e ∧
      (TimedRight e timedReader 15 ↔ TimedWhen e 15) := by
  obtain ⟨e, he, hev⟩ := exists_of_endsIn (advance (.verbatim ℕ))
    (UChannelEntry.create true false false 0) gapOldest (fun e => !e.eventtype)
    (by decide +kernel)
  have hcare : Allowed (advance (.verbatim ℕ)) Careful (UChannelEntry.create true false false 0)
      gapOldest :=
    (@allowed_of_checks _ _ _ _ _ _ _ (fun e op => decide (Careful e op)))
      (fun _ _ h => of_decide_eq_true h) (by decide +kernel)
  exact ⟨e, he, timedRight_iff_of_run hcare (by decide) he (by simpa using hev) rfl rfl 15⟩

/-- A reader gets the retired point for a tick before the gap. -/
theorem not_timedRight_gapOldest :
    ∃ e, exec (advance (.verbatim ℕ)) (UChannelEntry.create true false false 0) gapOldest = .ok e ∧
      e.eventtype = false ∧ (∀ p ∈ reachable e, 5 < p.1.1) ∧
      (accessData e timedReader 5).toOption.map (·.2.2) = some (some ((0, 10), 5)) ∧
      ¬ TimedRight e timedReader 5 := by
  obtain ⟨e, he, htest⟩ := exists_of_endsIn (advance (.verbatim ℕ))
    (UChannelEntry.create true false false 0) gapOldest
    (fun e => !e.eventtype && (reachable e).all (fun p => 5 < p.1.1) &&
      (accessData e timedReader 5).toOption.map (·.2.2) = some (some ((0, 10), 5)))
    (by decide +kernel)
  simp only [Bool.and_eq_true, Bool.not_eq_true', List.all_eq_true, decide_eq_true_eq] at htest
  obtain ⟨⟨hev, hlate⟩, haccess⟩ := htest
  refine ⟨e, he, hev, hlate, haccess, fun hR => ?_⟩
  obtain ⟨heap, c', res, hok, -, hnone⟩ := hR.result
  have hno : ∀ p, ¬ Matches e 5 p := fun p hp => by
    have := hlate p hp.1
    have := hp.2.1
    omega
  rw [hok, hnone hno] at haccess
  cases haccess

end Dueca.Entry
