import Dueca.Entry.Flushing

/-!
# Sequential readers

What the operations of a sequential reader do to its unread points, the data points from its read
index on: a read takes the first one, skipping leaves the last ones, and a write adds one behind
the others. All of these go through.
-/

namespace Dueca.Entry

open Dueca.Lib UChannelEntryData

variable {D : Type} {e e' : UChannelEntry D} {i r : ℕ} {c c' : Client}

/-- An entry with its accesses and points in order, of which no data was taken. -/
structure Whole (e : UChannelEntry D) : Prop where
  accounted : Accounted e
  ordered : Ordered e
  full : ∀ a, ¬ Bare e a

/-- The record `i` of an entry is that of a linked sequential reader, which accesses nothing and
reads from the point `r` on, which is not the point before the first one. -/
structure ReadsAt (e : UChannelEntry D) (i r : ℕ) (c : Client) : Prop where
  record : e.clients[i]? = some c
  sequential : c.sequentialRead = true
  linked : c.linked = true
  index : c.readIndex = some r
  idle : c.accessed = none
  pos : 0 < r

theorem Whole.tidy (hW : Whole e) : Tidy e := ⟨hW.accounted, hW.ordered⟩

theorem ReadsAt.reader (hR : ReadsAt e i r c) : Reader e i r c :=
  ⟨hR.record, hR.sequential, hR.linked, hR.index, hR.idle⟩

theorem Reader.readsAt (hR : Reader e i r c) (hpos : 0 < r) : ReadsAt e i r c :=
  ⟨hR.record, hR.sequential, hR.linked, hR.index, hR.idle, hpos⟩

theorem Whole.linked (hW : Whole e) : Linked e := hW.accounted.counted.linked

theorem ReadsAt.range (hR : ReadsAt e i r c) (hW : Whole e) : e.cleanup ≤ r ∧ r ≤ e.latest :=
  hR.reader.range hW.tidy

theorem ReadsAt.exists_node (hR : ReadsAt e i r c) (hW : Whole e) :
    ∃ n, e.heap r = some n ∧ 1 < n.readAccesses :=
  hR.reader.exists_node hW.tidy

/-- Moving accesses, without taking data, leaves an entry whole. -/
theorem Whole.of_moves {src dst : List ℕ} (hW : Whole e) (hA : Accounted e')
    (hm : Moves e.heap e'.heap src dst []) (hl : e'.latest = e.latest)
    (hev : e'.eventtype = e.eventtype) : Whole e' where
  accounted := hA
  ordered := hW.ordered.moves hm hl hev
  full a hb := by
    rcases Bare.of_moves hm hl hb with hb | hnil
    · exact hW.full a hb
    · cases hnil

/-- The reader goes to another point, which it may access. -/
theorem Whole.reread {heap : Heap D} {r' : ℕ} (hW : Whole e) (hR : ReadsAt e i r c)
    (hm : Moves e.heap heap [r] [r'] []) (hs : c'.sequentialRead = true)
    (hl : c'.linked = true) (hr : c'.readIndex = some r')
    (hacc : c'.accessed = none ∨ c'.accessed = c'.readIndex) : Whole (e.reread i heap c') :=
  hW.of_moves (hW.accounted.goesTo hR.record hR.sequential hR.linked hR.index hm hs hl hr hacc)
    hm rfl rfl

/-! ### Gaps -/

/-- A point of a whole entry: it is a gap, or it has data and a point behind it. -/
theorem Whole.pointsFrom_cons {a : ℕ} {n : UChannelEntryData D} (hW : Whole e)
    (hn : e.heap a = some n) (ha : a < e.latest) (hz : n.seqId ≠ 0) :
    ∃ ts d, actualTime e.heap n e.eventtype = .ok ts ∧ n.data = some d ∧
      ts.1 = n.timeOrTimeEnd ∧ pointsFrom e a = (ts, some d) :: pointsFrom e (a + 1) := by
  obtain ⟨ts, hts, hts₁, hcons⟩ := hW.tidy.pointsFrom_cons hn ha hz
  cases hd : n.data with
  | none => exact absurd ⟨n, hn, ha.ne, hz, hd⟩ (hW.full a)
  | some d => exact ⟨ts, d, hts, rfl, hts₁, hd ▸ hcons⟩

/-! ### Reading -/

/-- The record `i` is that of a sequential reader that accesses its next point. -/
structure Holds (e : UChannelEntry D) (i r : ℕ) (c : Client) : Prop where
  record : e.clients[i]? = some c
  sequential : c.sequentialRead = true
  linked : c.linked = true
  index : c.readIndex = some r
  accessed : c.accessed = some r
  pos : 0 < r

/-- A reader gets its first unread point, unless there is none or it is too late. -/
theorem accessData_reads {t : ℕ} (hW : Whole e) (hR : ReadsAt e i r c) (hv : e.valid = true) :
    ∃ heap c' res r', accessData e c t = .ok (heap, c', res) ∧
      Whole (e.reread i heap c') ∧ pointsFrom (e.reread i heap c') r' = pointsFrom e r ∧
      ((res = none ∧ ReadsAt (e.reread i heap c') i r' c' ∧
          ∀ p ∈ (pointsFrom e r).head?, t < p.1.1) ∨
        ∃ ts d, res = some (ts, d) ∧ Holds (e.reread i heap c') i r' c' ∧ r' < e.latest ∧
          ts.1 ≤ t ∧
          pointsFrom e r = (ts, some d) :: pointsFrom (e.reread i heap c') (r' + 1)) := by
  obtain ⟨heap, c', res, r', haccess, hT, hm, hpts, hpos, -, hres⟩ :=
    (@Tidy.accessData_eq D e i r c t) hW.tidy hR.reader hv
  have hW' : Whole (e.reread i heap c') := hW.of_moves hT.accounted hm rfl rfl
  refine ⟨heap, c', res, r', haccess, hW', hpts, ?_⟩
  rcases hres with ⟨rfl, hR', hlate⟩ | ⟨ts, d, rfl, hH, hlt, hts, hcons⟩
  · exact .inl ⟨rfl, hR'.readsAt hpos, hlate⟩
  · -- no data was taken
    obtain ⟨n, hn⟩ := hT.linked.exists_node (hT.accounted.counted.live r'
      (mem_holdings_reader hH.record hH.sequential hH.linked hH.index)).1 hlt.le
    have hz : n.seqId ≠ 0 := fun hz =>
      absurd ((hT.behind_gap hn hz).2.1.symm.trans (hpts.trans hcons)) List.ne_cons_self
    obtain ⟨ts', d', -, -, -, hcons'⟩ := hW'.pointsFrom_cons hn hlt hz
    have heq := hcons'.symm.trans (hpts.trans hcons)
    obtain ⟨rfl, rfl⟩ := Prod.mk.inj (List.cons.inj heq).1
    exact .inr ⟨ts', d', rfl, ⟨hH.record, hH.sequential, hH.linked, hH.index, hH.accessed, hpos⟩,
      hlt, hts, hcons⟩

/-- The reader gives its point back, and goes on. -/
theorem releaseData_reads (hW : Whole e) (hH : Holds e i r c) (hlt : r < e.latest) :
    ∃ heap c', releaseData e c = .ok (heap, c') ∧ Whole (e.reread i heap c') ∧
      ReadsAt (e.reread i heap c') i (r + 1) c' ∧
      pointsFrom (e.reread i heap c') (r + 1) = pointsFrom e (r + 1) := by
  obtain ⟨heap, c', hrel, hT, hm, hR⟩ := hW.tidy.releaseData_eq
    ⟨hH.record, hH.sequential, hH.linked, hH.index, hH.accessed⟩ hlt
  exact ⟨heap, c', hrel, hW.of_moves hT.accounted hm rfl rfl, hR.readsAt (Nat.succ_pos r),
    reread_pointsFrom hm⟩

/-! ### Skipping -/

/-- The reader has gone on to the point `r'`, or stayed. -/
structure Skipped (e : UChannelEntry D) (i r r' : ℕ) (heap : Heap D) (c : Client) : Prop where
  whole : Whole (e.reread i heap c)
  reads : ReadsAt (e.reread i heap c) i r' c
  le : r ≤ r'
  range : r' ≤ e.latest
  points : pointsFrom (e.reread i heap c) r' = pointsFrom e r'

theorem Skipped.suffix {heap : Heap D} {r' : ℕ} (hS : Skipped e i r r' heap c') :
    pointsFrom (e.reread i heap c') r' <:+ pointsFrom e r :=
  hS.points ▸ pointsFrom_suffix hS.le hS.range

theorem Skipped.of_moves {heap : Heap D} {r' : ℕ} (hW : Whole e) (hR : ReadsAt e i r c)
    (hm : Moves e.heap heap [r] [r'] []) (hle : r ≤ r') (hr' : r' ≤ e.latest) :
    Skipped e i r r' heap { c with readIndex := some r' } where
  whole := hW.reread hR hm hR.sequential hR.linked rfl (.inl hR.idle)
  reads := ⟨reread_record hR.record, hR.sequential, hR.linked, rfl, hR.idle, by
    have := hR.pos
    omega⟩
  le := hle
  range := hr'
  points := reread_pointsFrom hm

theorem Skipped.stay (hW : Whole e) (hR : ReadsAt e i r c) : Skipped e i r r e.heap c := by
  have hS := Skipped.of_moves hW hR (Moves.refl e.heap [r]) le_rfl (hR.range hW).2
  rwa [← hR.index] at hS

/-- Skipping all data. -/
theorem flushAll_reads (hW : Whole e) (hR : ReadsAt e i r c) :
    ∃ heap c' k r', flushAll e c = .ok (heap, c', k) ∧ Skipped e i r r' heap c' := by
  by_cases hend : r = e.latest
  · subst hend
    exact ⟨e.heap, c, 0, e.latest, flushAll_latest hR.reader, .stay hW hR⟩
  · obtain ⟨heap, a, n, p, hm, -, -, -, -, -, hflush⟩ := hW.tidy.flushAll_eq hR.reader hend
    exact ⟨heap, _, _, e.latest, hflush, .of_moves hW hR hm (hR.range hW).2 le_rfl⟩

/-- Skipping one point. -/
theorem flushOne_reads (hW : Whole e) (hR : ReadsAt e i r c) :
    ∃ heap c' k r', flushOne e c = .ok (heap, c', k) ∧ Skipped e i r r' heap c' := by
  by_cases hend : r = e.latest
  · subst hend
    exact ⟨e.heap, c, 0, e.latest, flushOne_latest hR.reader, .stay hW hR⟩
  · obtain ⟨a, n, ha, hz, -, hcase, hgo, -⟩ := hW.tidy.flushOne_eq hR.reader hend
    have hlt : a < e.latest := by
      have := (hR.range hW).2
      rcases hcase with rfl | ⟨n₀, hn₀, hz₀, rfl⟩
      · omega
      · exact (hW.ordered.gap_lt r n₀ hn₀ hz₀).resolve_left hR.pos.ne'
    obtain ⟨heap, hm, hflush⟩ := hgo hlt
    have hle : r ≤ a := by rcases hcase with rfl | ⟨-, -, -, rfl⟩ <;> omega
    exact ⟨heap, _, 1, a + 1, hflush, .of_moves hW hR hm (by omega) hlt⟩

/-- Skipping to the latest point, when a point is unread. -/
theorem spinToLast_reads (hW : Whole e) (hR : ReadsAt e i r c) (hun : pointsFrom e r ≠ []) :
    ∃ heap c' k r', spinToLast e c = .ok (heap, c', k) ∧ Skipped e i r r' heap c' := by
  have hlt : r < e.latest := by
    rcases (hR.range hW).2.lt_or_eq with h | rfl
    · exact h
    · exact absurd pointsFrom_latest hun
  by_cases hend : r = e.latest - 1
  · subst hend
    exact ⟨e.heap, c, 0, e.latest - 1, hW.tidy.spinToLast_newest hR.reader, .stay hW hR⟩
  · obtain ⟨heap, a, n, p, hm, -, -, -, -, -, hspin⟩ := hW.tidy.spinToLast_eq hR.reader hend
    exact ⟨heap, _, _, e.latest - 1, hspin, .of_moves hW hR hm (by omega) (by omega)⟩

/-- Skipping to the last point of before a tick, when a point is unread. -/
theorem spinToLastBefore_reads {t : ℕ} (hW : Whole e) (hR : ReadsAt e i r c)
    (hun : pointsFrom e r ≠ []) :
    ∃ heap c' k r', spinToLastBefore e c t = .ok (heap, c', k) ∧ Skipped e i r r' heap c' := by
  have hlt : r < e.latest := by
    rcases (hR.range hW).2.lt_or_eq with h | rfl
    · exact h
    · exact absurd pointsFrom_latest hun
  obtain ⟨l, p, hl, holder, hp⟩ := hW.tidy.exists_newest
  by_cases hd : p.data = none
  · exact ⟨e.heap, c, 0, r, hW.tidy.spinToLastBefore_taken hR.reader hp hd, .stay hW hR⟩
  obtain ⟨b, nb, s, ns, hrb, hb, -, -, -, hcase, hns, -, -, hstay, hgo⟩ :=
    (@Tidy.spinToLastBefore_eq D e i r t c p) hW.tidy hR.reader hlt hp hd
  by_cases hend : s = r
  · exact ⟨e.heap, c, 0, r, hstay hend, .stay hW hR⟩
  · obtain ⟨n, hn, -⟩ := hR.exists_node hW
    obtain ⟨heap, hm, hspin⟩ := hgo hend n hn
    have hrs : r ≤ s := by rcases hcase with ⟨-, rfl⟩ | ⟨-, rfl⟩ <;> omega
    exact ⟨heap, _, _, s, hspin, .of_moves hW hR hm hrs (hW.linked.mem_range hns).2⟩

/-! ### Visible points -/

/-- There is a point to read, not too late. -/
def haveVisibleSets (e : UChannelEntry D) (tick myoldest : ℕ) : Except Fault Bool := do
  let n ← deref e.heap myoldest
  if n.data.isNone then pure false
  else pure (!n.afterTick tick)

/-- The number of points to read that are not too late. -/
def getNumVisibleSets (e : UChannelEntry D) (tick myoldest : ℕ) : Except Fault ℕ := do
  let n ← deref e.heap myoldest
  if n.data.isNone then pure 0
  else
    let nowOldest ← afterGap e.heap myoldest
    let o ← deref e.heap nowOldest
    if o.afterTick tick then pure 0
    else
      let l ← deref e.heap e.latest
      let lookingFor ← spinBack e.heap (·.afterTick tick) nowOldest (e.fresh + 1)
        (← follow l.older)
      let m ← deref e.heap lookingFor
      pure ((idDifference m.seqId o.seqId + 1) % 4294967296)

/-- A reader has a visible point when its first unread point is not too late, and there is no gap
before it. -/
theorem haveVisibleSets_reads {t : ℕ} (hW : Whole e) (hR : ReadsAt e i r c) :
    ∃ v, haveVisibleSets e t r = .ok v ∧
      (v = true ↔ atGap e r = false ∧ ∃ p ∈ (pointsFrom e r).head?, p.1.1 ≤ t) := by
  obtain ⟨n, hn, -⟩ := hR.exists_node hW
  have hgap : atGap e r = decide (n.seqId = 0) := by simp [atGap, hn]
  have hsets : ∀ v, haveVisibleSets e t r = .ok v ↔
      (if n.data.isNone then false else !n.afterTick t) = v := by
    intro v
    rw [haveVisibleSets]
    simp only [bind_eq_ok, deref_eq_ok, hn, Option.some.injEq, exists_eq_left']
    split <;> exact pure_eq_ok
  refine ⟨_, (hsets _).mpr rfl, ?_⟩
  rw [hgap, decide_eq_false_iff_not]
  by_cases hz : n.seqId = 0
  · rw [hW.ordered.gap_data r n hn hz]
    simp [hz]
  · rcases (hR.range hW).2.lt_or_eq with hlt | rfl
    · obtain ⟨ts, d, -, hd, hts, hcons⟩ := hW.pointsFrom_cons hn hlt hz
      rw [hd, hcons]
      simp [hz, afterTick, hts]
    · rw [(hW.ordered.last n hn).1, pointsFrom_latest]
      simp

/-- No point is counted when the first node has no data, or comes too late. -/
theorem getNumVisibleSets_zero {t : ℕ} {n : UChannelEntryData D} (hT : Tidy e)
    (hn : e.heap r = some n) (h : n.data = none ∨ t < n.timeOrTimeEnd) :
    getNumVisibleSets e t r = .ok 0 := by
  rw [getNumVisibleSets]
  refine bind_eq_ok.mpr ⟨n, deref_eq_ok.mpr hn, ?_⟩
  by_cases hnone : n.data = none
  · rw [hnone, if_pos Option.isNone_none]
    rfl
  · have hz : n.seqId ≠ 0 := fun hz => hnone (hT.ordered.gap_data r n hn hz)
    have hafter : afterGap e.heap r = .ok r := by
      rw [afterGap]
      refine bind_eq_ok.mpr ⟨n, deref_eq_ok.mpr hn, ?_⟩
      rw [if_neg hz]
      rfl
    rw [if_neg (by simpa using hnone)]
    refine bind_eq_ok.mpr ⟨r, hafter, bind_eq_ok.mpr ⟨n, deref_eq_ok.mpr hn, ?_⟩⟩
    rw [if_pos (by simpa [afterTick, hnone] using h)]
    rfl

/-- Otherwise the count goes to the last node that is not too late. -/
theorem getNumVisibleSets_of_visible {t : ℕ} {n : UChannelEntryData D} (hT : Tidy e)
    (hn : e.heap r = some n) (hd : n.data ≠ none) (ht : n.timeOrTimeEnd ≤ t) :
    ∃ b m, r ≤ b ∧ b < e.latest ∧ e.heap b = some m ∧ m.timeOrTimeEnd ≤ t ∧
      (∀ x k, b < x → x < e.latest → e.heap x = some k → t < k.timeOrTimeEnd) ∧
      getNumVisibleSets e t r = .ok ((idDifference m.seqId n.seqId + 1) % 4294967296) := by
  have hr := hT.linked.mem_range hn
  have hz : n.seqId ≠ 0 := fun hz => hd (hT.ordered.gap_data r n hn hz)
  have hlt : r < e.latest := by
    rcases hr.2.lt_or_eq with h | rfl
    · exact h
    · exact absurd (hT.ordered.last n hn).1 hd
  have hafter : afterGap e.heap r = .ok r := by
    rw [afterGap]
    refine bind_eq_ok.mpr ⟨n, deref_eq_ok.mpr hn, ?_⟩
    rw [if_neg hz]
    rfl
  obtain ⟨l, hl⟩ := hT.linked.exists_latest
  have holder := hT.linked.older_eq e.latest l hl (by omega)
  have hfr := hT.linked.fresh_eq
  obtain ⟨b, hb, h₁, h₂, hlate, hat⟩ := (@spinBack_spec D e (e.latest - 1) (·.afterTick t) r
    (e.fresh + 1)) hT.linked hr.1 (by omega) (by omega) (by omega)
  obtain ⟨m, hm⟩ := hT.linked.exists_node (a := b) (by omega) (by omega)
  have hmt : m.timeOrTimeEnd ≤ t := by
    by_cases hbr : b = r
    · subst hbr
      rwa [← Option.some.inj (hn.symm.trans hm)]
    · simpa [afterTick] using hat hbr m hm
  refine ⟨b, m, h₁, by omega, hm, hmt, fun x k hx hxl hk => ?_, ?_⟩
  · simpa [afterTick] using hlate x k hx (by omega) hk
  · rw [getNumVisibleSets]
    refine bind_eq_ok.mpr ⟨n, deref_eq_ok.mpr hn, ?_⟩
    rw [if_neg (by simpa using hd)]
    refine bind_eq_ok.mpr ⟨r, hafter, bind_eq_ok.mpr ⟨n, deref_eq_ok.mpr hn, ?_⟩⟩
    rw [if_neg (by simpa [afterTick] using ht)]
    exact bind_eq_ok.mpr ⟨l, deref_eq_ok.mpr hl, bind_eq_ok.mpr ⟨_, follow_eq_ok.mpr holder,
      bind_eq_ok.mpr ⟨b, hb, bind_eq_ok.mpr ⟨m, deref_eq_ok.mpr hm, rfl⟩⟩⟩⟩

/-- Counting the visible points goes through. -/
theorem getNumVisibleSets_reads {t : ℕ} (hW : Whole e) (hR : ReadsAt e i r c) :
    ∃ k, getNumVisibleSets e t r = .ok k := by
  obtain ⟨n, hn, -⟩ := hR.exists_node hW
  by_cases h : n.data = none ∨ t < n.timeOrTimeEnd
  · exact ⟨0, getNumVisibleSets_zero hW.tidy hn h⟩
  · rw [not_or, Nat.not_lt] at h
    obtain ⟨b, m, -, -, -, -, -, hcount⟩ := getNumVisibleSets_of_visible hW.tidy hn h.1 h.2
    exact ⟨_, hcount⟩

/-! ### Writing, linking and detaching -/

/-- A write goes through, leaves the readers, and adds its point to what they have to read. -/
theorem newData_reads {data : D} {t : DataTimeSpec} {current : Bool} (hW : Whole e)
    (hid : e.lastId + 1 < 4294967296) :
    ∃ e' work, newData e data t current = .ok (e', work) ∧ Whole e' ∧ e'.clients = e.clients ∧
      e'.valid = e.valid ∧ e'.eventtype = e.eventtype ∧
      (∀ i r c, ReadsAt e i r c →
        pointsFrom e' r = pointsFrom e r ++ accepted e (.newData data t current)) := by
  have hL := hW.linked
  have hM := hW.accounted.manned
  obtain ⟨⟨e', work⟩, hnew⟩ := (@newData_total D e data t current) hL hM fun a n hn => by
    have := hW.accounted.counted.count a n hn
    omega
  obtain ⟨l, hl⟩ := hL.exists_latest
  have hA := hW.accounted.newData hnew
  have hbare : ∀ a, ¬ Bare e' a := fun a hb => by
    have hadv : advance (.verbatim D) e (.newData data t current) = .ok e' :=
      bind_eq_ok.mpr ⟨_, hnew, rfl⟩
    rcases bare_of_advance hL hM hadv hb with hb | ⟨_, _, hop, _⟩
    · exact hW.full a hb
    · cases hop
  have hordered := newData_ordered hL hM hW.ordered hl (lastId_eq hl ▸ hid) hnew
  refine ⟨e', work, hnew, ⟨hA, hordered, hbare⟩, ?_⟩
  obtain ⟨ch, o, hC, hL', hlc, hcase⟩ := newData_outcome hL hM hl hnew
  -- a reader holds its point, so the clean-up leaves it
  have hstay {i r c} (hR : ReadsAt e i r c) : ch ≤ r := by
    have hmem : r ∈ holdings (e.cleaned ch o) := by
      refine mem_holdings_client (List.mem_of_getElem? hR.record) ?_
      rw [Client.holds_of_sequential hR.sequential hR.linked hR.index]
      exact List.mem_singleton_self r
    exact ((hW.accounted.cleaned hC).counted.live r hmem).1
  rcases hcase with ⟨hno, rfl, -⟩ | ⟨m, _, _, hyes, hw, -, -, hmoves, hframe⟩
  · refine ⟨rfl, rfl, rfl, fun i r c hR => ?_⟩
    rw [pointsFrom_cleaned (hstay hR), accepted, hl]
    simp [hno]
  · have hm : m.clients = e.clients ∧ m.valid = e.valid ∧ m.eventtype = e.eventtype := by
      rcases written_cases hw with ⟨_, _, rfl, -⟩ | ⟨rfl, -⟩ <;> exact ⟨rfl, rfl, rfl⟩
    refine ⟨hframe.clients.trans hm.1, hframe.valid.trans hm.2.1,
      hframe.eventtype.trans hm.2.2, fun i r c hR => ?_⟩
    rw [pointsFrom_moves hmoves hframe.latest hframe.eventtype,
      pointsFrom_written hL' (hW.ordered.cleaned ch o) hlc (hR.range hW).2 hw,
      pointsFrom_cleaned (hstay hR), accepted, hl]
    dsimp only
    rw [if_pos hyes]
    rfl

theorem ReadsAt.of_clients (hR : ReadsAt e i r c) (hc : e'.clients = e.clients) :
    ReadsAt e' i r c :=
  ⟨hc ▸ hR.record, hR.sequential, hR.linked, hR.index, hR.idle, hR.pos⟩

/-- A new sequential reader starts at the oldest point, and the other readers stay. -/
theorem link_reads {span depth : ℕ} (hW : Whole e) :
    ∃ e', link e true span depth = .ok e' ∧ Whole e' ∧ e'.valid = e.valid ∧
      e'.eventtype = e.eventtype ∧ (∀ a, pointsFrom e' a = pointsFrom e a) ∧
      (∀ i r c, ReadsAt e i r c → ReadsAt e' i r c) ∧
      ∃ c, ReadsAt e' e.clients.length e.oldest c := by
  obtain ⟨n, hn⟩ := hW.linked.exists_node (a := e.oldest)
    hW.linked.cleanup_lt.le hW.linked.oldest_le
  have hpos : n.readAccesses ≠ 0 := by
    have := hW.accounted.counted.count e.oldest n hn
    omega
  have hlatch : latchSequentialRead e =
      .ok { e with heap := store e.heap e.oldest n.increment } := by
    rw [latchSequentialRead]
    refine bind_eq_ok.mpr ⟨n, deref_eq_ok.mpr hn, ?_⟩
    rw [if_neg hpos]
    rfl
  let c : Client := { sequentialRead := true, readIndex := some e.oldest }
  have hlink : link e true span depth = .ok { e with
      heap := store e.heap e.oldest n.increment, clients := e.clients ++ [c] } :=
    bind_eq_ok.mpr ⟨_, hlatch, rfl⟩
  have hm : Moves e.heap (store e.heap e.oldest n.increment) [] [e.oldest] [] :=
    Moves.increment hn []
  refine ⟨_, hlink, hW.of_moves (hW.accounted.link hlink) hm rfl rfl, rfl, rfl,
    fun a => ?_, fun i r c' hR => ?_, c, ?_⟩
  · exact (@pointsFrom_moves _ e { e with
      heap := store e.heap e.oldest n.increment, clients := e.clients ++ [c] } _ _ a) hm rfl rfl
  · have hlt := (List.getElem?_eq_some_iff.mp hR.record).1
    exact ⟨(List.getElem?_append_left hlt).trans hR.record, hR.sequential, hR.linked, hR.index,
      hR.idle, hR.pos⟩
  · have := hW.linked.cleanup_lt
    exact ⟨List.getElem?_concat_length, rfl, rfl, rfl, rfl, by omega⟩

/-- A new entry, which can be read. -/
theorem whole_create (writer eventtype fullpackmode : Bool) (nreservations entryId : ℕ) :
    Whole { (UChannelEntry.create writer eventtype fullpackmode nreservations :
      UChannelEntry D) with entryId, valid := true } := by
  have hA := accounted_create (D := D) writer eventtype fullpackmode nreservations
  have hO := ordered_create (D := D) writer eventtype fullpackmode nreservations
  obtain ⟨⟨⟨h₁, h₂, h₃, h₄, h₅, h₆⟩, hcount, hlive⟩, hM, hsteady, -, hlatch⟩ := hA
  refine ⟨⟨⟨⟨h₁, h₂, h₃, h₄, h₅, h₆⟩, hcount, hlive⟩, ⟨hM.1, hM.2⟩, hsteady, nofun, hlatch⟩,
    ⟨hO.seq_succ, hO.gap, hO.gap_data, hO.gap_lt, hO.last, hO.first, hO.zero, hO.times⟩, ?_⟩
  rintro a ⟨n, hn, hne, hnz, -⟩
  -- besides the sentinel there is the point before the first one, which has no id
  have hr := (h₄ a).mp (Option.isSome_iff_exists.mpr ⟨n, hn⟩)
  have hle : a ≤ 1 := hr.2
  have hne : a ≠ 1 := hne
  obtain rfl : a = 0 := by omega
  cases hn
  exact hnz rfl

/-- An entry that is no longer valid. -/
theorem Whole.invalid (hW : Whole e) : Whole { e with valid := false } := by
  obtain ⟨⟨⟨⟨h₁, h₂, h₃, h₄, h₅, h₆⟩, hcount, hlive⟩, hM, hsteady, hpacking, hlatch⟩, hO, hfull⟩ :=
    hW
  exact ⟨⟨⟨⟨h₁, h₂, h₃, h₄, h₅, h₆⟩, hcount, hlive⟩, ⟨hM.1, hM.2⟩, hsteady,
    fun p hp => (hpacking p hp).congr rfl id, hlatch⟩,
    ⟨hO.seq_succ, hO.gap, hO.gap_data, hO.gap_lt, hO.last, hO.first, hO.zero, hO.times⟩, hfull⟩

end Dueca.Entry
