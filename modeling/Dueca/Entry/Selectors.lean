import Dueca.Entry.Timed

/-!
# Data selectors

A `DataReader` reads one point of an entry with a token. Its selector tells what timing is
accepted. The entry searches for a point that holds at the tick, and the selector only looks at
what is found. So a point before a gap is not found for a tick in the gap, and with events that are
not in order the search ends at one that comes too early. A sequential token gives its next point
also when that has ended.
-/

namespace Dueca.Entry

open Dueca.Lib UChannelEntryData

variable {D B : Type} {e e' : UChannelEntry D} {conv : DataSetConverter D B}
variable {a b i r t : ℕ} {c c' : Client} {n m : UChannelEntryData D} {sel : Selector}

/-! ### Readers -/

inductive Selector
  | matchIntervalStart
  | matchIntervalStartOrEarlier
  deriving DecidableEq

/-- The timing of the data that were accessed is accepted. -/
def Selector.validTiming (sel : Selector) (isSequential : Bool) (t : ℕ) (ts : ℕ × ℕ) : Bool :=
  match sel with
  | .matchIntervalStart =>
    -- picking a time, in stream data or event data; or reading from the oldest
    (!isSequential && ((ts.1 ≠ ts.2 && ts.1 ≤ t && t < ts.2) || (ts.1 = ts.2 && ts.1 = t))) ||
      (isSequential && ts.1 ≤ t)
  | .matchIntervalStartOrEarlier => ts.1 ≤ t

/-- A reader with its `data_ptr`, and the time of the data. -/
structure DataReader (D : Type) where
  selector : Selector
  tRequest : ℕ
  firstaccess : Bool
  data : Option (Reading D)

namespace DataReader

/-- The constructor. It does not access the data. -/
def create (sel : Selector) (t : ℕ) : DataReader D := ⟨sel, t, true, none⟩

/-- `access`, with a token that has `c` at the entry. It throws `NoDataAvailable` when the reader
has no data afterwards. -/
def access (rd : DataReader D) (e : UChannelEntry D) (c : Client) :
    Except Fault (DataReader D × Heap D × Client) :=
  if rd.firstaccess then do
    let (heap, c, res) ← accessData e c rd.tRequest
    match res with
    | none => pure ({ rd with firstaccess := false }, heap, c)
    | some (ts, d) =>
      if rd.selector.validTiming c.sequentialRead rd.tRequest ts then
        pure ({ rd with firstaccess := false, data := some (ts, d) }, heap, c)
      else do
        let (heap, c) ← releaseData { e with heap := heap } c
        pure ({ rd with firstaccess := false }, heap, c)
  else pure (rd, e.heap, c)

/-- `release`, which the destructor calls. -/
def release (rd : DataReader D) (e : UChannelEntry D) (c : Client) :
    Except Fault (Heap D × Client) :=
  if rd.data.isSome then releaseData e c else pure (e.heap, c)

end DataReader

/-! ### What is documented -/

/-- The timing that a selector is documented to accept. -/
def Selector.documented (sel : Selector) (eventtype isSequential : Bool) (t : ℕ) (ts : ℕ × ℕ) :
    Bool :=
  match sel with
  | .matchIntervalStart =>
    if !eventtype then ts.1 ≤ t && t < ts.2
    else if isSequential then ts.1 ≤ t
    else ts.1 = t
  | .matchIntervalStartOrEarlier => ts.1 ≤ t

/-- The points that a token can give: the next unread one, or those that are available. -/
def onOffer (e : UChannelEntry D) (c : Client) : List (Point D) :=
  if c.sequentialRead then c.readIndex.toList.flatMap fun r => (pointsFrom e r).take 1
  else reachable e

/-- The latest one with the documented timing. -/
def documented (e : UChannelEntry D) (sel : Selector) (c : Client) (t : ℕ) : Option (Point D) :=
  ((onOffer e c).filter fun p => sel.documented e.eventtype c.sequentialRead t p.1).getLast?

/-- The read position and the access counts are as they were. -/
structure Untouched (e : UChannelEntry D) (c : Client) (heap : Heap D) (c' : Client) : Prop where
  counts : ∀ a, (heap a).map (·.readAccesses) = (e.heap a).map (·.readAccesses)
  index : c'.readIndex = c.readIndex
  accessed : c'.accessed = c.accessed

/-- A new reader gives the documented point. If there is none it throws, and when the reader goes,
everything is as it was. -/
def Selects (e : UChannelEntry D) (sel : Selector) (c : Client) (t : ℕ) : Prop :=
  ∃ rd heap c', (DataReader.create sel t).access e c = .ok (rd, heap, c') ∧
    match documented e sel c t with
    | some p => ∃ d, p.2 = some d ∧ rd.data = some (p.1, d)
    | none => rd.data = none ∧ ∃ heap' c'',
        rd.release { e with heap := heap } c' = .ok (heap', c'') ∧ Untouched e c heap' c''

/-! ### When it is so -/

/-- The last available point that starts at or before the tick. -/
def lastBefore (e : UChannelEntry D) (t : ℕ) : Option (Point D) :=
  ((reachable e).filter fun p => p.1.1 ≤ t).getLast?

/-- The tick is in the gap at the node `a`. -/
def GapAt (e : UChannelEntry D) (t a : ℕ) : Prop :=
  ∃ n m, e.heap a = some n ∧ n.seqId = 0 ∧ n.timeOrTimeEnd ≤ t ∧ e.heap (a + 1) = some m ∧
    t < m.timeOrTimeEnd

/-- The oldest point is a gap that starts after the tick. -/
def StartsLate (e : UChannelEntry D) (t : ℕ) : Prop :=
  ∃ n, e.heap e.oldest = some n ∧ n.seqId = 0 ∧ t < n.timeOrTimeEnd

/-- A sequential token: a next point that is not too late has its data, and for
`MatchIntervalStart` on a stream it has not ended. A reader at a gap has such a point. -/
def SequentialWhen (e : UChannelEntry D) (sel : Selector) (r t : ℕ) : Prop :=
  (∀ p ∈ (pointsFrom e r).head?, p.1.1 ≤ t →
      p.2.isSome ∧ (sel = .matchIntervalStart → e.eventtype = false → t < p.1.2)) ∧
    (atGap e r = true → ∃ p ∈ (pointsFrom e r).head?, p.1.1 ≤ t)

/-- A token by time, on a stream: the oldest point is no gap that starts after the tick, or the
tick is in a retired gap that is still there. The point that holds at the tick has its data, and
for `MatchIntervalStart` it does not start and end at the tick. For `MatchIntervalStartOrEarlier`
the tick is in no gap behind an available point. -/
def StreamWhen (e : UChannelEntry D) (sel : Selector) (t : ℕ) : Prop :=
  (StartsLate e t → ∃ a < e.oldest, GapAt e t a) ∧
    match sel with
    | .matchIntervalStart => ∀ p, Matches e t p → p.2.isSome ∧ p.1 ≠ (t, t)
    | .matchIntervalStartOrEarlier => ∀ p ∈ lastBefore e t, Matches e t p ∧ p.2.isSome

/-- A token by time, on events: the last event that does not come after the tick has its data. For
`MatchIntervalStart` it comes at the tick, when there is an event at the tick. -/
def EventWhen (e : UChannelEntry D) (sel : Selector) (t : ℕ) : Prop :=
  ∀ p ∈ lastBefore e t, p.2.isSome ∧
    (sel = .matchIntervalStart → (∃ q ∈ reachable e, q.1.1 = t) → p.1.1 = t)

/-- A reader gives the documented point. On an entry that is not valid, and by time when the newest
point has no data, it needs that there is none. -/
def SelectsWhen (e : UChannelEntry D) (sel : Selector) (c : Client) (t : ℕ) : Prop :=
  if e.valid = false ∨ c.sequentialRead = false ∧ newestTaken e = true then
    documented e sel c t = none
  else if c.sequentialRead then ∀ r ∈ c.readIndex, SequentialWhen e sel r t
  else if e.eventtype then EventWhen e sel t
  else StreamWhen e sel t

/-- A token that accesses nothing: one by time, or one of a sequential reader of the entry. -/
def Token (e : UChannelEntry D) (c : Client) : Prop :=
  c.accessed = none ∧ (c.sequentialRead = true → ∃ i r, Reader e i r c)

/-! ### Accesses of a reader -/

/-- When the access goes wrong, so does the reader. -/
theorem not_selects_of_error {f : Fault} (h : accessData e c t = .error f) :
    ¬ Selects e sel c t := by
  rintro ⟨rd, heap, c', hrd, -⟩
  rw [DataReader.access, DataReader.create, if_pos rfl, bind_eq_ok] at hrd
  obtain ⟨_, hok, -⟩ := hrd
  cases h.symm.trans hok

/-- When there is no result and nothing changes, there should be no point. -/
theorem selects_iff_of_nothing (h : accessData e c t = .ok (e.heap, c, none)) :
    Selects e sel c t ↔ documented e sel c t = none := by
  have haccess : (DataReader.create sel t).access e c =
      .ok (⟨sel, t, false, none⟩, e.heap, c) := by
    rw [DataReader.access, DataReader.create, if_pos rfl]
    exact bind_eq_ok.mpr ⟨_, h, rfl⟩
  constructor
  · rintro ⟨rd, heap, c', hrd, hres⟩
    cases haccess.symm.trans hrd
    cases hdoc : documented e sel c t with
    | none => rfl
    | some p =>
      rw [hdoc] at hres
      obtain ⟨d, -, hd⟩ := hres
      cases hd
  · intro hdoc
    refine ⟨_, _, _, haccess, ?_⟩
    rw [hdoc]
    exact ⟨rfl, _, _, rfl, fun _ => rfl, rfl, rfl⟩

/-- When a reader has data, these should be the point. -/
theorem selects_iff_of_data {q : Point D} {d : D} {heap : Heap D} (hd : q.2 = some d)
    (haccess : (DataReader.create sel t).access e c =
      .ok (⟨sel, t, false, some (q.1, d)⟩, heap, c')) :
    Selects e sel c t ↔ documented e sel c t = some q := by
  constructor
  · rintro ⟨rd, heap, c', hrd, hres⟩
    cases haccess.symm.trans hrd
    cases hdoc : documented e sel c t with
    | none =>
      rw [hdoc] at hres
      cases hres.1
    | some p =>
      rw [hdoc] at hres
      obtain ⟨d', hp, heq⟩ := hres
      obtain ⟨hts, rfl⟩ := Prod.mk.inj (Option.some.inj heq)
      rw [Prod.ext hts (hd.trans hp.symm)]
  · intro hdoc
    refine ⟨_, _, _, haccess, ?_⟩
    rw [hdoc]
    exact ⟨d, hd, rfl⟩

/-- A reader without data that accesses a point does wrong. -/
theorem not_selects_of_accessed {heap : Heap D} (hidle : c.accessed = none)
    (haccess : (DataReader.create sel t).access e c = .ok (⟨sel, t, false, none⟩, heap, c'))
    (hacc : c'.accessed ≠ none) : ¬ Selects e sel c t := by
  rintro ⟨rd, heap, c', hrd, hres⟩
  cases haccess.symm.trans hrd
  cases hdoc : documented e sel c t with
  | none =>
    rw [hdoc] at hres
    obtain ⟨-, heap', c'', hrel, huntouched⟩ := hres
    cases hrel
    exact hacc (huntouched.accessed.trans hidle)
  | some p =>
    rw [hdoc] at hres
    obtain ⟨d, -, hd⟩ := hres
    cases hd

theorem store_increment_decrement {heap : Heap D} (hn : heap a = some n) :
    store (store heap a n.increment) a n.increment.decrement = heap := by
  funext b
  rw [store_apply, store_apply]
  split
  · next hb =>
    rw [hb, hn]
    rfl
  · rfl

/-- What a reader by time gets from the point that was found. -/
theorem selects_iff_of_found {q : Point D} (hidle : c.accessed = none)
    (hn : e.heap a = some n)
    (haccess : accessData e c t = .ok (store e.heap a n.increment, c', q.2.map (Prod.mk q.1)))
    (hacc : c'.accessed = some a) (hidx : c'.readIndex = c.readIndex)
    (hs : c'.sequentialRead = false) :
    Selects e sel c t ↔ q.2.isSome ∧
      documented e sel c t = if sel.validTiming false t q.1 then some q else none := by
  have hstart : (DataReader.create sel t).access e c = (do
      match q.2.map (Prod.mk q.1) with
      | none => pure (⟨sel, t, false, none⟩, store e.heap a n.increment, c')
      | some (ts, d) =>
        if sel.validTiming c'.sequentialRead t ts then
          pure (⟨sel, t, false, some (ts, d)⟩, store e.heap a n.increment, c')
        else do
          let (heap, c) ← releaseData { e with heap := store e.heap a n.increment } c'
          pure (⟨sel, t, false, none⟩, heap, c)) := by
    rw [DataReader.access, DataReader.create, if_pos rfl, haccess]
    rfl
  cases hd : q.2 with
  | none =>
    rw [hd] at hstart
    have hwrong := not_selects_of_accessed hidle hstart (by rw [hacc]; exact Option.some_ne_none a)
    exact iff_of_false hwrong fun h => absurd h.1 Bool.false_ne_true
  | some d =>
    rw [hd, hs] at hstart
    by_cases hv : sel.validTiming false t q.1 = true
    · rw [if_pos hv, selects_iff_of_data hd (hstart.trans (if_pos hv))]
      exact (and_iff_right rfl).symm
    · have hrel : releaseData { e with heap := store e.heap a n.increment } c' =
          .ok (e.heap, { c' with accessed := none }) := by
        have hdec : releaseReadAccess (store e.heap a n.increment) a = .ok e.heap := by
          have hstore := store_increment_decrement hn
          exact modifyAt_eq_ok.mpr ⟨n.increment, store_self _ _ _, hstore⟩
        rw [releaseData, if_neg (by rw [hs]; exact Bool.false_ne_true), returnData, hacc]
        exact bind_eq_ok.mpr ⟨a, rfl, bind_eq_ok.mpr ⟨_, hdec, rfl⟩⟩
      have haccess' : (DataReader.create sel t).access e c =
          .ok (⟨sel, t, false, none⟩, e.heap, { c' with accessed := none }) :=
        hstart.trans ((if_neg hv).trans (bind_eq_ok.mpr ⟨_, hrel, rfl⟩))
      rw [if_neg hv]
      constructor
      · rintro ⟨rd, heap, c'', hrd, hres⟩
        cases haccess'.symm.trans hrd
        cases hdoc : documented e sel c t with
        | none => exact ⟨rfl, rfl⟩
        | some p =>
          rw [hdoc] at hres
          obtain ⟨d', -, hd'⟩ := hres
          cases hd'
      · rintro ⟨-, hdoc⟩
        refine ⟨_, _, _, haccess', ?_⟩
        rw [hdoc]
        exact ⟨rfl, _, _, rfl, fun _ => rfl, hidx, hidle.symm⟩

end Dueca.Entry
