import Dueca.Lib.Run

/-!
# Combined triggers

A `ConditionAnd` combines the triggers of several pullers. Each puller reports spans
of ticks; the condition keeps, for each puller, a list of the spans that are still
needed, and passes on the parts that all pullers have in common. Successive spans of
one length share an element of the list, whose `endtime` then is the end of the last
of them; the element is moved on by multiples of its span while it is used up.

`received` and `emitted` record the spans a puller reported and those passed on, oldest
first; the source has no such record, and nothing in the model reads it.
-/

namespace Dueca.Trigger

/-- Where a trigger stops: a division by a span of zero, a puller that does not exist, or
a loop that has no end. -/
inductive Fault | divisionByZero | noPuller | outOfFuel
  deriving DecidableEq, Repr

/-- `MAX_TIMETICK`; a tick has 32 bits. -/
def maxTimetick : ℕ := 4294967295

/-- A span of ticks; it ends before its last tick. -/
structure DataTimeSpec where
  validityStart : ℕ
  validityEnd : ℕ
  deriving DecidableEq, Repr

namespace DataTimeSpec

/-- The size of the interval. -/
def validitySpan (ts : DataTimeSpec) : ℕ := ts.validityEnd - ts.validityStart

/-- Whether the span is after the given time, or extends beyond it. -/
def extendsOrIsAfter (ts : DataTimeSpec) (t : ℕ) : Bool := t < ts.validityEnd

/-- The span, not starting earlier than the given time. -/
def modifyToAfter (ts : DataTimeSpec) (t : ℕ) : DataTimeSpec :=
  ⟨max t ts.validityStart, ts.validityEnd⟩

/-- `ts += delta`. -/
def advance (ts : DataTimeSpec) (delta : ℕ) : DataTimeSpec :=
  ⟨ts.validityStart + delta, ts.validityEnd + delta⟩

end DataTimeSpec

/-- An element of the list of a puller: a span, and the end of its last repeat. -/
structure TimingList where
  ts : DataTimeSpec
  endtime : ℕ
  deriving DecidableEq, Repr

/-- A new element. -/
def TimingList.make (ts : DataTimeSpec) : TimingList := ⟨ts, ts.validityEnd⟩

/-- The timing of a puller: the elements before the last one, oldest first, and the last
one. -/
structure PullerData where
  front : List TimingList := []
  timeTail : TimingList := .make ⟨0, 0⟩
  received : List DataTimeSpec := []
  deriving DecidableEq, Repr

namespace PullerData

/-- The first element of the list. -/
def timeHead (p : PullerData) : TimingList := p.front.headD p.timeTail

/-- All elements of the list. -/
def elements (p : PullerData) : List TimingList := p.front ++ [p.timeTail]

/-- Extend the list; tells whether this can tip the trigger. -/
def newSpan (p : PullerData) (tsext : DataTimeSpec) (previousTick : ℕ) : PullerData × Bool :=
  let tail := p.timeTail
  let p' := { p with received := p.received ++ [tsext] }
  if tsext.validityStart = tail.endtime ∧ tsext.validitySpan = tail.ts.validitySpan then
    -- simple expansion of a repeat
    ({ p' with timeTail := { tail with endtime := tsext.validityEnd } },
      tsext.validityEnd == (tail.ts.validitySpan + previousTick) % 2 ^ 32 &&
        previousTick < tsext.validityEnd)
  else if tsext.extendsOrIsAfter tail.endtime then
    let new := TimingList.make (tsext.modifyToAfter tail.endtime)
    ({ p' with front := p.front ++ [tail], timeTail := new },
      tail.endtime ≤ previousTick && previousTick < new.endtime)
  else (p', false)

/-- Move an element on to the period that is not over yet. -/
def updatePeriod (e : TimingList) (previousTick : ℕ) : Except Fault TimingList :=
  if previousTick < e.endtime then
    if e.ts.validityEnd = previousTick then
      .ok { e with ts := e.ts.advance e.ts.validitySpan }
    else if e.ts.validityEnd < previousTick then
      let span := e.ts.validitySpan
      if span = 0 then .error .divisionByZero
      else .ok { e with ts := e.ts.advance ((previousTick - e.ts.validityStart) / span * span) }
    else .ok e
  else .ok e

/-- Remove the elements that are used up, but for the last one, and move the first one on. -/
def cleanUpTimingList (previousTick : ℕ) (p : PullerData) : Except Fault PullerData :=
  match p.front.dropWhile fun e => e.endtime ≤ previousTick with
  | [] =>
    match updatePeriod p.timeTail previousTick with
    | .error e => .error e
    | .ok tail => .ok { p with front := [], timeTail := tail }
  | e :: front =>
    match updatePeriod e previousTick with
    | .error e => .error e
    | .ok e' => .ok { p with front := e' :: front }

end PullerData

/-- Clean up the lists of all pullers. -/
def cleanUpAll (previousTick : ℕ) : List PullerData → Except Fault (List PullerData)
  | [] => .ok []
  | p :: rest =>
    match p.cleanUpTimingList previousTick with
    | .error e => .error e
    | .ok p' =>
      match cleanUpAll previousTick rest with
      | .error e => .error e
      | .ok rest' => .ok (p' :: rest')

/-- The combined trigger. -/
structure ConditionAnd where
  previousTick : ℕ := 0
  pullers : List PullerData
  emitted : List DataTimeSpec := []
  deriving DecidableEq, Repr

namespace ConditionAnd

/-- The start of the span that is left for all pullers. -/
def commonStart (tstart : ℕ) (pullers : List PullerData) : ℕ :=
  pullers.foldl (fun t p => max t p.timeHead.ts.validityStart) tstart

/-- The end of that span. -/
def commonEnd (pullers : List PullerData) : ℕ :=
  pullers.foldl (fun t p => min t p.timeHead.ts.validityEnd) maxTimetick

/-- The loop in `trigger`. -/
def moreTriggers : ℕ → ConditionAnd → ℕ → Except Fault ConditionAnd
  | 0, _, _ => .error .outOfFuel
  | fuel + 1, a, tstart =>
    match cleanUpAll a.previousTick a.pullers with
    | .error e => .error e
    | .ok pullers =>
      let first := commonStart tstart pullers
      let last := commonEnd pullers
      if first < last ∨ last = first ∧ a.previousTick < first then
        moreTriggers fuel
          { a with
            pullers := pullers, previousTick := last, emitted := a.emitted ++ [⟨first, last⟩] } last
      else if a.previousTick < first then
        -- a gap
        moreTriggers fuel { a with pullers := pullers, previousTick := first } first
      else .ok { a with pullers := pullers }

end ConditionAnd

/-- A pull by one of the pullers. -/
structure AndInput where
  idx : ℕ
  ts : DataTimeSpec
  deriving DecidableEq, Repr

open ConditionAnd

/-- A pull triggers the condition. The loop cannot go on for longer than there are
ticks. -/
def trigger (a : ConditionAnd) (i : AndInput) : Except Fault ConditionAnd :=
  match a.pullers[i.idx]? with
  | none => .error .noPuller
  | some p =>
    let (p', tips) := p.newSpan i.ts a.previousTick
    let a' := { a with pullers := a.pullers.set i.idx p' }
    if tips then moreTriggers (maxTimetick + 1) a' a'.previousTick else .ok a'

/-- A combination of a number of pullers. -/
def ConditionAnd.init (n : ℕ) : ConditionAnd := { pullers := List.replicate n {} }

end Dueca.Trigger
