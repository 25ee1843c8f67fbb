import Dueca.Entry.Order

/-!
# The data points of an entry

Read as a list, the chain of an entry holds data points, single gaps between them
and the sentinel. This module follows that list through runs of operations: what a
write adds, what its clean-up takes away, and what holds of the list after any run.
-/

namespace Dueca.Entry

open Dueca.Lib UChannelEntryData

variable {D B : Type} {e : UChannelEntry D} {conv : DataSetConverter D B}
variable {data : D} {t : DataTimeSpec} {current : Bool} {l : UChannelEntryData D}

/-! ### What a write keeps -/

theorem written_cases {m : UChannelEntry D} (hw : e.written l data t = some m) :
    (∃ start ts, m = e.filled l start data ts ∧
      (e.eventtype = true ∧ start = t.validityStart ∨
        e.eventtype = false ∧ ts = t.validityEnd ∧
          (l.seqId = 1 ∧ start = t.validityStart ∨
            l.seqId ≠ 1 ∧ t.validityStart ≤ l.timeOrTimeEnd ∧ start = l.timeOrTimeEnd ∧
              l.timeOrTimeEnd < t.validityEnd))) ∨
      (m = e.gapped l t.validityStart data t.validityEnd ∧ e.eventtype = false ∧ l.seqId ≠ 1 ∧
        l.timeOrTimeEnd < t.validityStart) := by
  rw [UChannelEntry.written] at hw
  split at hw
  · rename_i hev
    exact .inl ⟨_, _, (Option.some.inj hw).symm, .inl ⟨hev, rfl⟩⟩
  rename_i hev
  have hev : e.eventtype = false := by simpa using hev
  split at hw
  · rename_i hfirst
    exact .inl ⟨_, _, (Option.some.inj hw).symm, .inr ⟨hev, rfl, .inl ⟨hfirst, rfl⟩⟩⟩
  rename_i hfirst
  split at hw
  · rename_i hgap
    exact .inr ⟨(Option.some.inj hw).symm, hev, hfirst, hgap⟩
  rename_i hgap
  split at hw
  · rename_i hconn
    exact .inl ⟨_, _, (Option.some.inj hw).symm,
      .inr ⟨hev, rfl, .inr ⟨hfirst, by omega, rfl, hconn⟩⟩⟩
  · cases hw

theorem Linked.written {m : UChannelEntry D} (hL : Linked e) (hl : e.heap e.latest = some l)
    (hw : e.written l data t = some m) : Linked m := by
  rcases written_cases hw with ⟨_, _, rfl, -⟩ | ⟨rfl, -⟩
  · exact hL.filled hl
  · exact hL.gapped hl

theorem Ordered.written {m : UChannelEntry D} (hO : Ordered e) (hL : Linked e)
    (hl : e.heap e.latest = some l) (hseq : l.seqId + 1 < 4294967296)
    (hw : e.written l data t = some m) : Ordered m := by
  have hpos : 0 < e.latest := by have := hL.cleanup_lt; have := hL.oldest_le; omega
  have hord := t.ordered
  rcases written_cases hw with ⟨start, ts, rfl, hcase⟩ | ⟨rfl, hev, hone, hgap⟩
  · refine hO.filled hL hl hseq (fun hs n hn => ?_) fun hs => ?_
    · rcases hcase with ⟨hev, -⟩ | ⟨-, -, ⟨hone, rfl⟩ | ⟨-, -, rfl, -⟩⟩
      · simp [hev] at hs
      · have hlatest := (hO.first e.latest l hl).mp hone
        rw [hlatest] at hn
        rw [hO.zero n hn]
        exact Nat.zero_le _
      · exact hO.times hs (e.latest - 1) n l hn (by rw [Nat.sub_add_cancel hpos]; exact hl)
    · rcases hcase with ⟨hev, -⟩ | ⟨-, rfl, ⟨-, rfl⟩ | ⟨-, -, rfl, hlt⟩⟩
      · simp [hev] at hs
      · exact hord
      · exact hlt.le
  · exact hO.gapped hL hl hseq hone hgap.le hord

theorem manned_settled {stop seqId : ℕ} {current : Bool} (hM : Manned e) :
    Manned (e.settled stop seqId current).1 := by
  have hatt : Manned (e.attached stop).1 := by
    rw [UChannelEntry.attached]
    split
    · exact ⟨(manned_staffed hM).1, (manned_staffed hM).2⟩
    · exact hM
  simp only [UChannelEntry.settled, UChannelEntry.unlatched]
  split
  · exact ⟨hatt.1, hatt.2⟩
  · exact hatt

theorem manned_written {m : UChannelEntry D} (hM : Manned e) (hw : e.written l data t = some m) :
    Manned m := by
  rcases written_cases hw with ⟨_, _, rfl, -⟩ | ⟨rfl, -⟩
  · exact ⟨hM.1, hM.2⟩
  · exact ⟨hM.1, hM.2⟩

/-- A write is accepted on an event entry, for the first point, and when its span
ends after the latest time. -/
def accepts (e : UChannelEntry D) (l : UChannelEntryData D) (t : DataTimeSpec) : Bool :=
  e.eventtype || l.seqId = 1 || l.timeOrTimeEnd < t.validityEnd

theorem written_isSome (e : UChannelEntry D) (l : UChannelEntryData D) (data : D)
    (t : DataTimeSpec) : (e.written l data t).isSome = accepts e l t := by
  have hord := t.ordered
  rw [UChannelEntry.written, accepts]
  split
  · simp [*]
  · split
    · simp [*]
    · split
      · simp [*]
        omega
      · split <;> simp [*]

/-- A write: after the clean-up it is rejected, or it makes `m`, where the rest of the write only
moves accesses. -/
theorem newData_outcome {e' : UChannelEntry D} {work : List PackUnit} (hL : Linked e)
    (hM : Manned e) (hl : e.heap e.latest = some l)
    (h : newData e data t current = .ok (e', work)) :
    ∃ c o, Cleaning e t.validityStart c o ∧ Linked (e.cleaned c o) ∧
      (e.cleaned c o).heap (e.cleaned c o).latest = some l ∧
      (accepts e l t = false ∧ e' = e.cleaned c o ∧ work = [] ∨
        ∃ m src dst, accepts e l t = true ∧ (e.cleaned c o).written l data t = some m ∧
          Linked m ∧ m.settled e.latest l.seqId current = (e', work) ∧
          Moves m.heap e'.heap src dst [] ∧ SameFrame m e') := by
  obtain ⟨c, o, l', hC, hl', hres⟩ := newData_cases hL hM h
  obtain rfl := Option.some.inj (hl.symm.trans hl')
  have hL' := hL.cleaned hC.cleanup_le hC.lt_oldest hC.oldest_le hC.le_latest
  have hlc : (e.cleaned c o).heap (e.cleaned c o).latest = some l := hL.cleaned_latest hC hl
  refine ⟨c, o, hC, hL', hlc, ?_⟩
  have hacc : _ = accepts e l t := written_isSome (e.cleaned c o) l data t
  cases hw : (e.cleaned c o).written l data t with
  | none =>
    rw [hw] at hacc hres
    exact .inl ⟨hacc.symm, hres⟩
  | some m =>
    rw [hw] at hacc hres
    have hm := hL'.written hlc hw
    have hmoves := (@settled_moves _ _ e.latest l.seqId current) hm.walkable.exists_oldest
    have hframe := settled_frame m e.latest l.seqId current
    simp only at hres
    rw [hres] at hmoves hframe
    exact .inr ⟨m, _, _, hacc.symm, rfl, hm, hres, hmoves, hframe⟩

/-- A write keeps the chain. -/
theorem newData_linked {e' : UChannelEntry D} {work : List PackUnit} (hL : Linked e)
    (hM : Manned e) (h : newData e data t current = .ok (e', work)) : Linked e' ∧ Manned e' := by
  obtain ⟨l, hl⟩ := hL.exists_latest
  obtain ⟨c, o, -, hL', -, ⟨-, rfl, -⟩ | ⟨m, _, _, -, hw, hm, hres, hmoves, hframe⟩⟩ :=
    newData_outcome hL hM hl h
  · exact ⟨hL', hM.1, hM.2⟩
  · refine ⟨hm.moves hmoves hframe.cleanup hframe.oldest hframe.latest hframe.fresh, ?_⟩
    have := (@manned_settled _ _ e.latest l.seqId current)
      (manned_written (e := e.cleaned c o) ⟨hM.1, hM.2⟩ hw)
    rwa [hres] at this

/-- Every operation keeps the chain. -/
theorem step_linked {op : Op D} {e' : UChannelEntry D} {work : List PackUnit} (hL : Linked e)
    (hM : Manned e) (h : step conv e op = .ok (e', work)) : Linked e' ∧ Manned e' := by
  by_cases hop : ∃ data t current, op = .newData data t current
  · obtain ⟨data, t, current, rfl⟩ := hop
    exact newData_linked hL hM h
  · push Not at hop
    obtain ⟨⟨_, _, _, hm, -⟩, hs, hM'⟩ := step_shape hL hM hop h
    exact ⟨hL.same hm hs, hM'⟩

/-- A write keeps the order while the ids last. -/
theorem newData_ordered {e' : UChannelEntry D} {work : List PackUnit} (hL : Linked e)
    (hM : Manned e) (hO : Ordered e) (hl : e.heap e.latest = some l)
    (hseq : l.seqId + 1 < 4294967296) (h : newData e data t current = .ok (e', work)) :
    Ordered e' := by
  obtain ⟨c, o, -, hL', hlc, ⟨-, rfl, -⟩ | ⟨m, _, _, -, hw, -, -, hmoves, hframe⟩⟩ :=
    newData_outcome hL hM hl h
  · exact hO.cleaned c o
  · exact ((hO.cleaned c o).written hL' hlc hseq hw).moves hmoves hframe.latest hframe.eventtype

/-! ### The data points -/

/-- A data point as readers see it: its validity and its data. -/
abbrev Point (D : Type) := (ℕ × ℕ) × Option D

/-- The data point at an address. A gap is none, and neither is the sentinel. -/
def pointAt (e : UChannelEntry D) (a : ℕ) : Option (Point D) :=
  match e.heap a, e.heap (a + 1) with
  | some n, some m =>
    if n.seqId = 0 then none
    else some ((n.timeOrTimeEnd, if e.eventtype then n.timeOrTimeEnd else m.timeOrTimeEnd), n.data)
  | _, _ => none

/-- The data points of the chain, the oldest first. -/
def dataPoints (e : UChannelEntry D) : List (Point D) :=
  (List.range' e.cleanup (e.latest - e.cleanup)).filterMap (pointAt e)

/-- The data points from an address on. -/
def pointsFrom (e : UChannelEntry D) (a : ℕ) : List (Point D) :=
  (List.range' a (e.latest - a)).filterMap (pointAt e)

/-- The validity that a written point gets: a stream does not overlap. -/
def validity (e : UChannelEntry D) (l : UChannelEntryData D) (t : DataTimeSpec) : ℕ × ℕ :=
  if e.eventtype then (t.validityStart, t.validityStart)
  else if l.seqId = 1 then (t.validityStart, t.validityEnd)
  else (max l.timeOrTimeEnd t.validityStart, t.validityEnd)

theorem pointAt_congr {e' : UChannelEntry D} {a : ℕ} (hev : e'.eventtype = e.eventtype)
    (h₀ : e'.heap a = e.heap a) (h₁ : e'.heap (a + 1) = e.heap (a + 1)) :
    pointAt e' a = pointAt e a := by
  simp only [pointAt, h₀, h₁, hev]

theorem pointAt_moves {e' : UChannelEntry D} {src dst : List ℕ}
    (hm : Moves e.heap e'.heap src dst []) (hev : e'.eventtype = e.eventtype) (a : ℕ) :
    pointAt e' a = pointAt e a := by
  have hcase (b : ℕ) : (e.heap b = none ∧ e'.heap b = none) ∨
      ∃ n k, e.heap b = some n ∧ e'.heap b = some { n with readAccesses := k } := by
    cases hn : e.heap b with
    | none => exact .inl ⟨rfl, ((hm b).1 hn).1⟩
    | some n =>
      obtain ⟨k, hk, -⟩ := (hm b).2 n hn
      exact .inr ⟨n, k, rfl, by simpa using hk⟩
  simp only [pointAt, hev]
  rcases hcase a with ⟨h₁, h₂⟩ | ⟨n, k, h₁, h₂⟩ <;>
    rcases hcase (a + 1) with ⟨h₃, h₄⟩ | ⟨m, j, h₃, h₄⟩ <;> simp [h₁, h₂, h₃, h₄]

theorem pointsFrom_moves {e' : UChannelEntry D} {src dst : List ℕ} {a : ℕ}
    (hm : Moves e.heap e'.heap src dst []) (hl : e'.latest = e.latest)
    (hev : e'.eventtype = e.eventtype) : pointsFrom e' a = pointsFrom e a := by
  rw [pointsFrom, pointsFrom, hl]
  exact List.filterMap_congr fun a _ => pointAt_moves hm hev a

theorem dataPoints_moves {e' : UChannelEntry D} {src dst : List ℕ}
    (hm : Moves e.heap e'.heap src dst []) (hc : e'.cleanup = e.cleanup)
    (hl : e'.latest = e.latest) (hev : e'.eventtype = e.eventtype) :
    dataPoints e' = dataPoints e := by
  rw [dataPoints, hc]
  exact pointsFrom_moves hm hl hev

/-- The points up to `b`, and those from there on. -/
theorem pointsFrom_split {a b : ℕ} (hab : a ≤ b) (hb : b ≤ e.latest) :
    pointsFrom e a = (List.range' a (b - a)).filterMap (pointAt e) ++ pointsFrom e b := by
  rw [pointsFrom, pointsFrom, show e.latest - a = (b - a) + (e.latest - b) by omega,
    ← List.range'_append_1, List.filterMap_append, show a + (b - a) = b by omega]

/-- A clean-up does not touch the points that stay. -/
theorem pointsFrom_cleaned {a c o : ℕ} (hc : c ≤ a) :
    pointsFrom (e.cleaned c o) a = pointsFrom e a := by
  refine List.filterMap_congr fun x hx => pointAt_congr rfl ?_ ?_
  · rw [List.mem_range'_1] at hx
    show (if x < c then none else e.heap x) = e.heap x
    rw [if_neg (by omega)]
  · rw [List.mem_range'_1] at hx
    show (if x + 1 < c then none else e.heap (x + 1)) = e.heap (x + 1)
    rw [if_neg (by omega)]

/-- A clean-up takes data points off the front. -/
theorem dataPoints_cleaned {c o : ℕ} (hc : e.cleanup ≤ c) (hl : c ≤ e.latest) :
    dataPoints (e.cleaned c o) <:+ dataPoints e := by
  have h₁ : dataPoints (e.cleaned c o) = pointsFrom e c := pointsFrom_cleaned le_rfl
  have h₂ : dataPoints e = pointsFrom e e.cleanup := rfl
  rw [h₁, h₂, pointsFrom_split hc hl]
  exact List.suffix_append _ _

/-- A filled sentinel is one data point more. -/
theorem pointsFrom_filled {start ts b : ℕ} (hL : Linked e) (hl : e.heap e.latest = some l)
    (hnz : l.seqId ≠ 0) (hb : b ≤ e.latest)
    (hstart : e.eventtype = true ∨ start = l.timeOrTimeEnd ∨
      ∀ n, e.heap (e.latest - 1) = some n → n.seqId = 0) :
    pointsFrom (e.filled l start data ts) b =
      pointsFrom e b ++ [((start, if e.eventtype then start else ts), some data)] := by
  have hfr := hL.fresh_eq
  have hlast : pointAt (e.filled l start data ts) e.latest =
      some ((start, if e.eventtype then start else ts), some data) := by
    simp only [pointAt, filled_heap_latest hL, filled_heap_succ hL, fill, if_neg hnz, sentinel]
    rfl
  have hold (a : ℕ) (ha : a < e.latest) :
      pointAt (e.filled l start data ts) a = pointAt e a := by
    simp only [pointAt, filled_heap_of_lt hL ha]
    by_cases hnext : a + 1 = e.latest
    · rw [hnext, filled_heap_latest hL, hl]
      cases hn : e.heap a with
      | none => rfl
      | some n =>
        simp only
        split
        · rfl
        · rename_i hz
          rcases hstart with hev | rfl | hzero
          · simp [hev, show (e.filled l start data ts).eventtype = e.eventtype from rfl]
          · rfl
          · exact absurd (hzero n (by rw [← hnext]; exact hn)) hz
    · rw [filled_heap_of_lt hL (by omega)]
      rfl
  rw [pointsFrom, pointsFrom]
  show (List.range' b (e.fresh - b)).filterMap _ = _
  rw [show e.fresh - b = (e.latest - b) + 1 by omega, List.range'_concat,
    List.filterMap_append, Nat.one_mul, Nat.add_sub_cancel' hb]
  congr 1
  · exact List.filterMap_congr fun a ha => hold a (by rw [List.mem_range'_1] at ha; omega)
  · simp [hlast]

/-- A point behind a gap is one data point more. -/
theorem pointsFrom_gapped {start ts b : ℕ} (hL : Linked e) (hl : e.heap e.latest = some l)
    (hnz : l.seqId ≠ 0) (hb : b ≤ e.latest) (hev : e.eventtype = false) :
    pointsFrom (e.gapped l start data ts) b = pointsFrom e b ++ [((start, ts), some data)] := by
  have hfr := hL.fresh_eq
  have hgap : pointAt (e.gapped l start data ts) e.latest = none := by
    simp [pointAt, gapped_heap_latest hL, gapped_heap_succ hL]
  have hlast : pointAt (e.gapped l start data ts) (e.latest + 1) =
      some ((start, ts), some data) := by
    simp only [pointAt, gapped_heap_succ hL, gapped_heap_succ_succ hL, withData, if_neg hnz, sentinel,
      show (e.gapped l start data ts).eventtype = false from hev]
    rfl
  have hold (a : ℕ) (ha : a < e.latest) :
      pointAt (e.gapped l start data ts) a = pointAt e a := by
    simp only [pointAt, gapped_heap_of_lt hL ha]
    by_cases hnext : a + 1 = e.latest
    · rw [hnext, gapped_heap_latest hL, hl]
      cases e.heap a <;> rfl
    · rw [gapped_heap_of_lt hL (by omega)]
      rfl
  rw [pointsFrom, pointsFrom]
  show (List.range' b (e.fresh + 1 - b)).filterMap _ = _
  rw [show e.fresh + 1 - b = (e.latest - b) + 2 by omega, ← List.range'_append_1,
    List.filterMap_append, Nat.add_sub_cancel' hb]
  congr 1
  · exact List.filterMap_congr fun a ha => hold a (by rw [List.mem_range'_1] at ha; omega)
  · simp [List.range'_succ, hgap, hlast]

/-- What one write does to the data points: some old ones go, and an accepted write
adds one. -/
def WriteEffect (e : UChannelEntry D) (l : UChannelEntryData D) (data : D) (t : DataTimeSpec)
    (e' : UChannelEntry D) : Prop :=
  ∃ old, old <:+ dataPoints e ∧
    dataPoints e' = if accepts e l t then old ++ [(validity e l t, some data)] else old

theorem pointsFrom_written {m : UChannelEntry D} {b : ℕ} (hL : Linked e) (hO : Ordered e)
    (hl : e.heap e.latest = some l) (hb : b ≤ e.latest) (hw : e.written l data t = some m) :
    pointsFrom m b = pointsFrom e b ++ [(validity e l t, some data)] := by
  have hnz := (hO.last l hl).2.1
  rcases written_cases hw with ⟨start, ts, rfl, hcase⟩ | ⟨rfl, hev, hone, hgap⟩
  · rw [pointsFrom_filled hL hl hnz hb]
    · rcases hcase with ⟨hev, rfl⟩ | ⟨hev, rfl, ⟨hone, rfl⟩ | ⟨hone, hle, rfl, -⟩⟩
      · simp [validity, hev]
      · simp [validity, hev, hone]
      · simp [validity, hev, hone, hle]
    · rcases hcase with ⟨hev, -⟩ | ⟨-, -, ⟨hone, -⟩ | ⟨-, -, rfl, -⟩⟩
      · exact .inl hev
      · -- the first point has no data point before it
        refine .inr (.inr fun n hn => ?_)
        have hlatest := (hO.first e.latest l hl).mp hone
        by_contra hz
        have := hO.seq_succ (e.latest - 1) n l hn (by rw [hlatest] at hl ⊢; exact hl) hz hnz
        omega
      · exact .inr (.inl rfl)
  · rw [pointsFrom_gapped hL hl hnz hb hev]
    simp [validity, hev, hone, Nat.max_eq_right hgap.le]

theorem written_cleanup {m : UChannelEntry D} (hw : e.written l data t = some m) :
    m.cleanup = e.cleanup ∧ m.oldest = e.oldest := by
  rcases written_cases hw with ⟨_, _, rfl, -⟩ | ⟨rfl, -⟩ <;> exact ⟨rfl, rfl⟩

theorem dataPoints_written {m : UChannelEntry D} (hL : Linked e) (hO : Ordered e)
    (hl : e.heap e.latest = some l) (hw : e.written l data t = some m) :
    dataPoints m = dataPoints e ++ [(validity e l t, some data)] := by
  have hcl : e.cleanup ≤ e.latest := by have := hL.cleanup_lt; have := hL.oldest_le; omega
  rw [dataPoints, (written_cleanup hw).1]
  exact pointsFrom_written hL hO hl hcl hw

/-- A write takes some points off the front, and adds one when it is accepted. -/
theorem newData_writeEffect {e' : UChannelEntry D} {work : List PackUnit} (hL : Linked e)
    (hM : Manned e) (hO : Ordered e) (hl : e.heap e.latest = some l)
    (h : newData e data t current = .ok (e', work)) : WriteEffect e l data t e' := by
  obtain ⟨c, o, hC, hL', hlc, hcase⟩ := newData_outcome hL hM hl h
  have hcl : c ≤ e.latest := by have := hC.lt_oldest; have := hL.oldest_le; omega
  refine ⟨dataPoints (e.cleaned c o), dataPoints_cleaned hC.cleanup_le hcl, ?_⟩
  rcases hcase with ⟨hno, rfl, -⟩ | ⟨m, _, _, hyes, hw, -, -, hmoves, hframe⟩
  · rw [if_neg (by simp [hno])]
  · rw [if_pos hyes, dataPoints_moves hmoves hframe.cleanup hframe.latest hframe.eventtype,
      dataPoints_written hL' (hO.cleaned c o) hlc hw]
    rfl

/-! ### The chain as a list -/

/-- The addresses `as` are the chain: from `cleanup` to `latest`, linked both ways, with
`oldest` behind `cleanup`. -/
structure IsChainOf (e : UChannelEntry D) (as : List ℕ) : Prop where
  head : as.head? = some e.cleanup
  last : as.getLast? = some e.latest
  newer : Segment (fun a => (e.heap a).bind (·.newer)) as none
  older : Segment (fun a => (e.heap a).bind (·.older)) as.tail.reverse (some e.cleanup)
  oldest : e.oldest ∈ as.tail

/-- What holds of the chain of an entry. A gap is followed by a data point, which is
neither a gap nor the sentinel. -/
structure ChainInvariant (e : UChannelEntry D) : Prop where
  chain : ∃ as, IsChainOf e as
  sentinel : ∃ l, e.heap e.latest = some l ∧ l.data = none ∧ l.seqId ≠ 0
  ids : (idsBetween e.heap e.cleanup (e.latest + 1)).IsChain (fun i j => j = i + 1)
  gaps : ∀ a n, e.heap a = some n → a ≠ e.cleanup → n.seqId = 0 → n.data = none ∧
    ∃ b m, n.newer = some b ∧ b ≠ e.latest ∧ e.heap b = some m ∧ m.seqId ≠ 0
  times : e.eventtype = false → ∀ a n b m, e.heap a = some n → n.newer = some b →
    e.heap b = some m → n.timeOrTimeEnd ≤ m.timeOrTimeEnd
  spans : e.eventtype = false → (∀ p ∈ dataPoints e, p.1.1 ≤ p.1.2) ∧
    (dataPoints e).Pairwise fun p q => p.1.2 ≤ q.1.1

theorem Linked.isChainOf (hL : Linked e) :
    IsChainOf e (List.range' e.cleanup (e.latest + 1 - e.cleanup)) := by
  have hlt := hL.cleanup_lt
  have hle := hL.oldest_le
  have htail : (List.range' e.cleanup (e.latest + 1 - e.cleanup)).tail =
      List.range' (e.cleanup + 1) (e.latest - e.cleanup) := by
    rw [show e.latest + 1 - e.cleanup = (e.latest - e.cleanup) + 1 by omega, List.range'_succ]
    rfl
  refine ⟨?_, ?_, segment_range' fun x h₁ h₂ => ?_, ?_, ?_⟩
  · rw [List.head?_range', if_neg (by omega)]
  · rw [List.getLast?_range', if_neg (by omega)]
    exact congrArg some (by omega)
  · obtain ⟨n, hn⟩ := hL.exists_node h₁ (by omega)
    simp only [hn, Option.bind_some, hL.newer_eq x n hn]
    by_cases hx : x = e.latest
    · rw [if_pos hx, if_pos (by omega)]
    · rw [if_neg hx, if_neg (by omega)]
  · rw [htail]
    refine segment_reverse_range' fun x h₁ h₂ => ?_
    obtain ⟨n, hn⟩ := hL.exists_node (a := x) (by omega) (by omega)
    simp only [hn, Option.bind_some, hL.older_eq x n hn (by omega)]
    split
    · exact congrArg some (by omega)
    · rfl
  · rw [htail, List.mem_range'_1]
    omega

/-- The ids count up from any point on. -/
theorem idsBetween_isChain (hL : Linked e) (hO : Ordered e) {a : ℕ} (ha : e.cleanup ≤ a) :
    (idsBetween e.heap a (e.latest + 1)).IsChain (fun i j => j = i + 1) := by
  generalize hk : e.latest + 1 - a = k
  induction k generalizing a with
  | zero => simp [idsBetween, hk]
  | succ k ih =>
    obtain ⟨n, hn⟩ := hL.exists_node ha (by omega)
    have hrest := ih (a := a + 1) (by omega) (by omega)
    rw [idsBetween_succ (by omega) hn]
    split
    · exact hrest
    · rename_i hnz
      by_cases hlast : a = e.latest
      · simp [hlast, idsBetween_self]
      obtain ⟨m, hm⟩ := hL.exists_node (a := a + 1) (by omega) (by omega)
      rw [idsBetween_succ (by omega) hm] at hrest ⊢
      split
      · -- a gap: the id behind it follows
        rename_i hmz
        rw [if_pos hmz] at hrest
        obtain ⟨-, j, hj, hjs⟩ := hO.gap a n m hn hm hmz
        have hj' := (hL.mem_range hj).2
        rw [idsBetween_succ (by omega) hj, if_neg (by omega)] at hrest ⊢
        exact List.IsChain.cons_cons hjs hrest
      · rename_i hmz
        rw [if_neg hmz] at hrest
        exact List.IsChain.cons_cons (hO.seq_succ a n m hn hm hnz hmz) hrest

/-- The times of a stream do not decrease along the chain. -/
theorem Ordered.time_le (hO : Ordered e) (hL : Linked e) (hev : e.eventtype = false) {a b : ℕ}
    {n m : UChannelEntryData D} (hab : a ≤ b) (hn : e.heap a = some n) (hm : e.heap b = some m) :
    n.timeOrTimeEnd ≤ m.timeOrTimeEnd := by
  induction b, hab using Nat.le_induction generalizing m with
  | base => rw [Option.some.inj (hn.symm.trans hm)]
  | succ b hab ih =>
    have h₁ := (hL.mem_range hn).1
    have h₂ := (hL.mem_range hm).2
    obtain ⟨k, hk⟩ := hL.exists_node (a := b) (by omega) (by omega)
    exact (ih hk).trans (hO.times hev b k m hk hm)

theorem pointAt_eq_some {a : ℕ} {p : Point D} (h : pointAt e a = some p) :
    ∃ n m, e.heap a = some n ∧ e.heap (a + 1) = some m ∧ n.seqId ≠ 0 ∧
      p = ((n.timeOrTimeEnd, if e.eventtype then n.timeOrTimeEnd else m.timeOrTimeEnd), n.data) := by
  rw [pointAt] at h
  split at h
  · rename_i n m hn hm
    split at h
    · cases h
    · exact ⟨n, m, hn, hm, ‹_›, (Option.some.inj h).symm⟩
  · cases h

theorem chainInvariant_of_ordered (hL : Linked e) (hO : Ordered e) : ChainInvariant e where
  chain := ⟨_, hL.isChainOf⟩
  sentinel := by
    obtain ⟨l, hl⟩ := hL.exists_latest
    exact ⟨l, hl, (hO.last l hl).1, (hO.last l hl).2.1⟩
  ids := idsBetween_isChain hL hO le_rfl
  gaps a n hn hac hz := by
    have hr := hL.mem_range hn
    have hlt : a + 1 < e.latest := by
      rcases hO.gap_lt a n hn hz with rfl | h
      · omega
      · exact h
    obtain ⟨m, hm⟩ := hL.exists_node (a := a + 1) (by omega) (by omega)
    refine ⟨hO.gap_data a n hn hz, a + 1, m, hL.newer_of_lt hn (by omega), by omega, hm, ?_⟩
    intro hmz
    exact absurd hz (hO.gap a n m hn hm hmz).1
  times hev a n b m hn hb hm := by
    rw [hL.newer_eq a n hn] at hb
    split at hb
    · cases hb
    · cases hb
      exact hO.times hev a n m hn hm
  spans hev := by
    constructor
    · intro p hp
      obtain ⟨a, -, ha⟩ := List.mem_filterMap.mp hp
      obtain ⟨n, m, hn, hm, -, rfl⟩ := pointAt_eq_some ha
      simp only [hev]
      exact hO.times hev a n m hn hm
    · refine List.Pairwise.filterMap _ (R := (· < ·)) ?_ List.pairwise_lt_range'
      intro a b hab p hp q hq
      obtain ⟨n, m, hn, hm, -, rfl⟩ := pointAt_eq_some hp
      obtain ⟨n', m', hn', -, -, rfl⟩ := pointAt_eq_some hq
      simp only [hev]
      exact hO.time_le hL hev hab hm hn'

/-! ### Runs -/

theorem linked_create (writer eventtype fullpackmode : Bool) (nreservations : ℕ) :
    Linked (UChannelEntry.create writer eventtype fullpackmode nreservations :
      UChannelEntry D) := by
  refine ⟨Nat.zero_lt_one, le_rfl, rfl, fun a => ?_, fun a n hn => ?_, fun a n hn ha => ?_⟩
  · show ((if a = 0 then _ else if a = 1 then _ else _ : Option (UChannelEntryData D))).isSome ↔
      0 ≤ a ∧ a ≤ 1
    split
    · simp [*]
    · split
      · simp [*]
      · simp
        omega
  · simp only [UChannelEntry.create] at hn ⊢
    split at hn
    · cases hn
      simp [*]
    · split at hn
      · cases hn
        split <;> simp [*, sentinel, increment]
      · cases hn
  · simp only [UChannelEntry.create] at hn ha
    split at hn
    · omega
    · split at hn
      · cases hn
        split <;> simp [*, sentinel, increment]
      · cases hn

theorem manned_create (writer eventtype fullpackmode : Bool) (nreservations : ℕ) :
    Manned (UChannelEntry.create writer eventtype fullpackmode nreservations :
      UChannelEntry D) :=
  ⟨le_rfl, fun _ => rfl⟩

/-- The operation is a write. -/
def Op.isWrite : Op D → Bool
  | .newData .. => true
  | _ => false

/-- The number of writes among the operations. -/
def writes (ops : List (Op D)) : ℕ := ops.countP Op.isWrite

theorem advance_eq_ok {op : Op D} {e' : UChannelEntry D} (h : advance conv e op = .ok e') :
    ∃ work, step conv e op = .ok (e', work) := by
  simp only [advance, bind_eq_ok, pure_eq_ok] at h
  obtain ⟨⟨e'', work⟩, h, rfl⟩ := h
  exact ⟨work, h⟩

/-- The id of the sentinel, which counts the accepted writes. -/
def UChannelEntry.lastId (e : UChannelEntry D) : ℕ := ((e.heap e.latest).map (·.seqId)).getD 0

theorem lastId_eq (hl : e.heap e.latest = some l) : e.lastId = l.seqId := by
  simp [UChannelEntry.lastId, hl]

theorem lastId_create (writer eventtype fullpackmode : Bool) (nreservations : ℕ) :
    (UChannelEntry.create writer eventtype fullpackmode nreservations :
      UChannelEntry D).lastId = 1 := by
  rw [UChannelEntry.lastId]
  show ((some (if 0 < nreservations then _ else _)).map fun n : UChannelEntryData D =>
    n.seqId).getD 0 = 1
  split <;> rfl

theorem lastId_moves {e' : UChannelEntry D} {src dst taken : List ℕ}
    (hm : Moves e.heap e'.heap src dst taken) (hl : e'.latest = e.latest) :
    e'.lastId = e.lastId := by
  rw [UChannelEntry.lastId, UChannelEntry.lastId, hl]
  cases hn : e.heap e.latest with
  | none => rw [((hm _).1 hn).1]
  | some n =>
    obtain ⟨k, hk, -⟩ := (hm _).2 n hn
    rw [hk]
    rfl

theorem lastId_written {m : UChannelEntry D} (hL : Linked e)
    (hw : e.written l data t = some m) : m.lastId = (l.seqId + 1) % 4294967296 := by
  have hfr := hL.fresh_eq
  rcases written_cases hw with ⟨start, ts, rfl, -⟩ | ⟨rfl, -⟩
  · have := (@filled_heap_succ _ _ l start ts data) hL
    rw [lastId_eq (l := sentinel ts e.latest (l.fill start data))]
    · rfl
    · rw [← this, ← hfr]
      rfl
  · have := (@gapped_heap_succ_succ _ _ l t.validityStart t.validityEnd data) hL
    rw [lastId_eq (l := sentinel t.validityEnd e.fresh
      (withData t.validityStart (some data) (some e.latest) l.seqId))]
    · rfl
    · rw [← this, ← show e.fresh + 1 = e.latest + 2 by omega]
      rfl

theorem lastId_newData {e' : UChannelEntry D} {work : List PackUnit} (hL : Linked e)
    (hM : Manned e) (h : newData e data t current = .ok (e', work)) :
    e'.lastId = e.lastId ∨ e'.lastId = (e.lastId + 1) % 4294967296 := by
  obtain ⟨l, hl⟩ := hL.exists_latest
  obtain ⟨c, o, -, hL', hlc, ⟨-, rfl, -⟩ | ⟨m, _, _, -, hw, -, -, hmoves, hframe⟩⟩ :=
    newData_outcome hL hM hl h
  · exact .inl ((lastId_eq hlc).trans (lastId_eq hl).symm)
  · right
    rw [lastId_moves hmoves hframe.latest, lastId_written hL' hw, lastId_eq hl]

/-- The order of the points along runs of fewer than `2 ^ 32 - 1` writes. -/
structure Sound (e : UChannelEntry D) : Prop where
  linked : Linked e
  manned : Manned e
  ordered : Ordered e

theorem Sound.advance {op : Op D} {e' : UChannelEntry D} (hS : Sound e)
    (hw : e.lastId + (if op.isWrite then 1 else 0) < 4294967296)
    (h : advance conv e op = .ok e') :
    Sound e' ∧ e'.lastId ≤ e.lastId + if op.isWrite then 1 else 0 := by
  obtain ⟨work, h⟩ := advance_eq_ok h
  obtain ⟨hL', hM'⟩ := step_linked hS.linked hS.manned h
  by_cases hop : ∃ data t current, op = .newData data t current
  · obtain ⟨data, t, current, rfl⟩ := hop
    have hw : e.lastId + 1 < 4294967296 := hw
    obtain ⟨l, hl⟩ := hS.linked.exists_latest
    refine ⟨⟨hL', hM', ?_⟩, ?_⟩
    · exact newData_ordered hS.linked hS.manned hS.ordered hl (lastId_eq hl ▸ hw) h
    · show e'.lastId ≤ e.lastId + 1
      rcases lastId_newData hS.linked hS.manned h with h | h <;> omega
  · push Not at hop
    obtain ⟨⟨_, _, _, hm, -⟩, hs, -⟩ := step_shape hS.linked hS.manned hop h
    refine ⟨⟨hL', hM', hS.ordered.moves hm hs.latest hs.eventtype⟩, ?_⟩
    rw [lastId_moves hm hs.latest]
    exact Nat.le_add_right _ _

theorem sound_create (writer eventtype fullpackmode : Bool) (nreservations : ℕ) :
    Sound (UChannelEntry.create writer eventtype fullpackmode nreservations : UChannelEntry D) :=
  ⟨linked_create .., manned_create .., ordered_create ..⟩

theorem sound_of_run {ops : List (Op D)} {s e : UChannelEntry D} (hS : Sound s)
    (hw : s.lastId + writes ops < 4294967296) (hrun : exec (advance conv) s ops = .ok e) :
    Sound e ∧ e.lastId ≤ s.lastId + writes ops := by
  induction ops generalizing s with
  | nil =>
    cases hrun
    exact ⟨hS, le_rfl⟩
  | cons op ops ih =>
    obtain ⟨u, hu, hrest⟩ := exec_cons_eq_ok.mp hrun
    have hcount : writes (op :: ops) = writes ops + if op.isWrite then 1 else 0 := by
      rw [writes, List.countP_cons]
      rfl
    rw [hcount] at hw ⊢
    obtain ⟨hSu, hle⟩ := hS.advance (by omega) hu
    obtain ⟨hSe, hle'⟩ := ih hSu (by omega) hrest
    exact ⟨hSe, by omega⟩

/-- What the steps from entries in order keep holds after any run. -/
theorem invariant_of_run {I : UChannelEntry D → Prop} {ops : List (Op D)} {s e : UChannelEntry D}
    (hstep : ∀ s op u, Sound s → s.lastId + (if op.isWrite then 1 else 0) < 4294967296 → I s →
      advance conv s op = .ok u → I u)
    (hS : Sound s) (hw : s.lastId + writes ops < 4294967296)
    (hrun : exec (advance conv) s ops = .ok e) (h : I s) : I e := by
  induction ops generalizing s with
  | nil =>
    cases hrun
    exact h
  | cons op ops ih =>
    obtain ⟨u, hu, hrest⟩ := exec_cons_eq_ok.mp hrun
    have hcount : writes (op :: ops) = writes ops + if op.isWrite then 1 else 0 := by
      rw [writes, List.countP_cons]
      rfl
    rw [hcount] at hw
    obtain ⟨hSu, hle⟩ := hS.advance (by omega) hu
    exact ih hSu (by omega) hrest (hstep s op u hS (by omega) h hu)

/-! ### Data that readers take -/

/-- The data point at `a` has lost its data. -/
def Bare (e : UChannelEntry D) (a : ℕ) : Prop :=
  ∃ n, e.heap a = some n ∧ a ≠ e.latest ∧ n.seqId ≠ 0 ∧ n.data = none

/-- In the run a reader that accessed the point `a` called `releaseOnlyAccess`. -/
def TakenIn (conv : DataSetConverter D B) (s : UChannelEntry D) (ops : List (Op D)) (a : ℕ) :
    Prop :=
  ∃ pre i post u c, ops = pre ++ .releaseOnlyAccess i :: post ∧
    exec (advance conv) s pre = .ok u ∧ u.clients[i]? = some c ∧ c.accessed = some a

theorem Bare.of_moves {e' : UChannelEntry D} {src dst taken : List ℕ} {a : ℕ}
    (hm : Moves e.heap e'.heap src dst taken) (hl : e'.latest = e.latest) (hb : Bare e' a) :
    Bare e a ∨ a ∈ taken := by
  obtain ⟨n', hn', hne, hnz, hdata⟩ := hb
  obtain ⟨n, hn, -, -, -, hns, hnd⟩ := hm.exists_of_some hn'
  by_cases hat : a ∈ taken
  · exact .inr hat
  · rw [if_neg hat] at hnd
    exact .inl ⟨n, hn, hl ▸ hne, hns ▸ hnz, hnd ▸ hdata⟩

theorem Bare.of_written {m : UChannelEntry D} {a : ℕ} (hL : Linked e)
    (hw : e.written l data t = some m) (hb : Bare m a) : Bare e a := by
  have hfr := hL.fresh_eq
  obtain ⟨n, hn, hne, hnz, hdata⟩ := hb
  rcases written_cases hw with ⟨start, ts, rfl, -⟩ | ⟨rfl, -⟩
  · have hne : a ≠ e.fresh := hne
    rw [filled_heap, if_neg hne] at hn
    split at hn
    · cases hn
      cases hdata
    · rename_i hlast
      exact ⟨n, hn, hlast, hnz, hdata⟩
  · have hne : a ≠ e.fresh + 1 := hne
    rw [gapped_heap, if_neg hne] at hn
    split at hn
    · cases hn
      cases hdata
    · split at hn
      · cases hn
        exact absurd rfl hnz
      · rename_i hlast
        exact ⟨n, hn, hlast, hnz, hdata⟩

/-- A data point loses its data to the reader that accesses it only. -/
theorem bare_of_advance {op : Op D} {e' : UChannelEntry D} {a : ℕ} (hL : Linked e)
    (hM : Manned e) (h : advance conv e op = .ok e') (hb : Bare e' a) :
    Bare e a ∨ ∃ i c, op = .releaseOnlyAccess i ∧ e.clients[i]? = some c ∧
      c.accessed = some a := by
  obtain ⟨work, h⟩ := advance_eq_ok h
  by_cases hop : ∃ data t current, op = .newData data t current
  · obtain ⟨data, t, current, rfl⟩ := hop
    obtain ⟨l, hl⟩ := hL.exists_latest
    obtain ⟨c, o, -, hL', -, hcase⟩ := newData_outcome hL hM hl h
    have hclean (hb : Bare (e.cleaned c o) a) : Bare e a := by
      obtain ⟨n, hn, hne, hrest⟩ := hb
      have hn : (if a < c then none else e.heap a) = some n := hn
      split at hn
      · cases hn
      · exact ⟨n, hn, hne, hrest⟩
    rcases hcase with ⟨-, rfl, -⟩ | ⟨m, _, _, -, hw, -, -, hmoves, hframe⟩
    · exact .inl (hclean hb)
    · rcases Bare.of_moves hmoves hframe.latest hb with hb | hnil
      · exact .inl (hclean (Bare.of_written hL' hw hb))
      · cases hnil
  · push Not at hop
    obtain ⟨⟨_, _, taken, hm, htaken⟩, hs, -⟩ := step_shape hL hM hop h
    rcases Bare.of_moves hm hs.latest hb with hb | hat
    · exact .inl hb
    · exact .inr (htaken a hat)

theorem takenIn_of_bare {ops : List (Op D)} {s : UChannelEntry D} {a : ℕ} (hL : Linked s)
    (hM : Manned s) (hrun : exec (advance conv) s ops = .ok e) (hb : Bare e a) :
    Bare s a ∨ TakenIn conv s ops a := by
  induction ops generalizing s with
  | nil =>
    cases hrun
    exact .inl hb
  | cons op ops ih =>
    obtain ⟨u, hu, hrest⟩ := exec_cons_eq_ok.mp hrun
    obtain ⟨work, hstep⟩ := advance_eq_ok hu
    obtain ⟨hLu, hMu⟩ := step_linked hL hM hstep
    rcases ih hLu hMu hrest with hbu | ⟨pre, i, post, v, c, rfl, hpre, hc⟩
    · rcases bare_of_advance hL hM hu hbu with hbs | ⟨i, c, rfl, hc⟩
      · exact .inl hbs
      · exact .inr ⟨[], i, ops, s, c, rfl, rfl, hc⟩
    · exact .inr ⟨op :: pre, i, post, v, c, rfl, (exec_cons_ok hu).trans hpre, hc⟩

end Dueca.Entry
