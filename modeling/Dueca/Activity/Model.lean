import Dueca.Lib.Run

/-!
# Critical activities

A `CriticalActivity` has two callbacks: a safe one, which runs from the time it is
switched on, and one that does the work, which runs between a `switchWork` and a
`switchSafe`. One run state encodes whether the activity is switched on and which
callback is due; it is changed by requests, by the activity's despatch, and by the
error handlers, and a callback may make requests while it runs.

A callback is modelled by what it does: the requests it makes, in their order, and
whether it throws in the end. With a periodic time specification `switchOn` first
moves the start to one of its ticks; its argument here is the tick that results.

The `log` records what happened, oldest first; the source has no such record, and
nothing in the model reads it.
-/

namespace Dueca.Activity

open Dueca.Lib

/-- The run states; their order is that of the source's enumeration. -/
inductive RunState
  | off | last | ready | braking | running
  | readyWork | firstWork | runningWork | brakingWork | lastWork
  deriving DecidableEq, Repr

namespace RunState

/-- The place of a state in the enumeration, by which states are compared. -/
def rank : RunState → ℕ
  | off => 0
  | last => 1
  | ready => 2
  | braking => 3
  | running => 4
  | readyWork => 5
  | firstWork => 6
  | runningWork => 7
  | brakingWork => 8
  | lastWork => 9

instance : LT RunState := ⟨fun a b => a.rank < b.rank⟩

instance (a b : RunState) : Decidable (a < b) := inferInstanceAs (Decidable (a.rank < b.rank))

end RunState

/-- `MAX_TIMETICK`; a tick has 32 bits. -/
def maxTimetick : ℕ := 4294967295

/-- A span of ticks. -/
structure TimeSpec where
  validityStart : ℕ
  validityEnd : ℕ
  deriving DecidableEq, Repr

/-- The two callbacks of the activity. -/
inductive Mode | safe | work
  deriving DecidableEq, Repr

/-- What happens to an activity. `permitted` and `withdrawn` are a `switchWork` and a
`switchSafe` that were accepted, `permitted` with the run state at that time; a refused
request tells whether it left the state alone. A despatch tells whether the activity was
idle, and which spans the callbacks were given. -/
inductive Event
  | permitted (was : RunState) (workOn : ℕ)
  | withdrawn (workOff : ℕ)
  | refused (unchanged : Bool)
  | called (mode : Mode) (span : TimeSpec)
  | markedUnsafe
  | despatched (idle : Bool) (span : TimeSpec) (calls : List (Mode × TimeSpec))
  deriving DecidableEq, Repr

/-- The activity. `nodeSafe` is shared by the activities of a node. -/
structure CriticalActivity where
  runState : RunState := .off
  switchOn : ℕ := maxTimetick
  switchOff : ℕ := 0
  workOn : ℕ := maxTimetick
  workOff : ℕ := 0
  stoppedByError : Bool := false
  nodeSafe : Bool := true
  log : List Event := []
  deriving DecidableEq, Repr

/-- What can be asked of the activity, or of the node. -/
inductive Request
  | switchOn (time : ℕ)
  | switchOff (time : ℕ)
  | switchWork (time : ℕ)
  | switchSafe (time : ℕ)
  | criticalError
  | criticalErrorNodeWide
  deriving DecidableEq, Repr

namespace CriticalActivity

/-- Write an event in the log. -/
def note (a : CriticalActivity) (e : Event) : CriticalActivity := { a with log := a.log ++ [e] }

/-- Back to safe run mode; an activity that was not yet running stays off. -/
def backToSafe (a : CriticalActivity) : CriticalActivity :=
  { a with
    stoppedByError := true
    runState :=
      if RunState.running < a.runState then .running
      else if a.runState = .ready then .off
      else a.runState }

/-- An error in this activity. -/
def criticalError (a : CriticalActivity) : CriticalActivity :=
  if a.stoppedByError then a else a.backToSafe.note .markedUnsafe

/-- The node is no longer safe. -/
def nodeUnsafe (a : CriticalActivity) : CriticalActivity :=
  { a with nodeSafe := false }.note .markedUnsafe

/-- Start with the work at this time. -/
def switchWork (a : CriticalActivity) (time : ℕ) : CriticalActivity :=
  if a.runState ≠ .running then a.note (.refused true)
  else if a.stoppedByError then a
  else
    { a with workOn := time, workOff := maxTimetick, runState := .readyWork }.note
      (.permitted a.runState time)

/-- Stop with the work at this time. The warning that the activity is not at work is no
reason to return. -/
def switchSafe (a : CriticalActivity) (time : ℕ) : CriticalActivity :=
  let a' := if a.stoppedByError then a else { a with workOff := time, runState := .brakingWork }
  if a.runState < RunState.readyWork then a'.note (.refused (decide (a' = a)))
  else if a.stoppedByError then a'
  else a'.note (.withdrawn time)

/-- One request. -/
def request (a : CriticalActivity) : Request → CriticalActivity
  | .switchOn time =>
    { a with switchOn := time, switchOff := maxTimetick, runState := .ready }
  | .switchOff time => { a with switchOff := time, runState := .braking }
  | .switchWork time => a.switchWork time
  | .switchSafe time => a.switchSafe time
  | .criticalError => a.criticalError
  | .criticalErrorNodeWide => if a.nodeSafe then a.nodeUnsafe else a

end CriticalActivity

/-- What a callback does when it is called. -/
structure Callback where
  requests : List Request := []
  throws : Bool := false
  deriving DecidableEq, Repr

namespace CriticalActivity

/-- Call one of the callbacks with a span. -/
def call (a : CriticalActivity) (mode : Mode) (t : TimeSpec) (f : Callback) : CriticalActivity :=
  f.requests.foldl request (a.note (.called mode t))

/-- The reaction to a node that is not safe. -/
def nodeReaction (a : CriticalActivity) : CriticalActivity :=
  if !a.nodeSafe && !a.stoppedByError then a.backToSafe else a

/-- The activity has not been switched on, or not yet for this span. -/
def Idle (a : CriticalActivity) (t : TimeSpec) : Prop :=
  a.runState = .off ∨ a.runState = .last ∨
    a.runState = .ready ∧ t.validityStart < a.switchOn ∧ t.validityEnd ≤ a.switchOn

instance (a : CriticalActivity) (t : TimeSpec) : Decidable (a.Idle t) :=
  inferInstanceAs (Decidable (_ ∨ _ ∨ _))

/-- The last cycle before the activity is switched off. -/
def lastCycle (a : CriticalActivity) (t : TimeSpec) : CriticalActivity :=
  if a.switchOff ≤ t.validityEnd then { a with runState := .last } else a

/-- The run state for this span, or nothing when no callback is due. -/
def transition (a : CriticalActivity) (t : TimeSpec) : Except CriticalActivity CriticalActivity :=
  match a.runState with
  | .off | .last => .error { a with runState := .off }
  | .ready =>
    if t.validityStart < a.switchOn ∧ t.validityEnd ≤ a.switchOn then .error a
    -- the source goes on with the next case
    else .ok (a.lastCycle t)
  | .braking => .ok (a.lastCycle t)
  | .readyWork =>
    if a.workOn ≤ t.validityStart ∨ a.workOn < t.validityEnd then
      .ok { a with runState := .firstWork }
    else .ok a
  | .brakingWork =>
    if a.workOff ≤ t.validityEnd then .ok { a with runState := .lastWork } else .ok a
  | .running | .firstWork | .runningWork | .lastWork => .ok a

/-- A span for the safe callback. -/
def runSafe (a : CriticalActivity) (t : TimeSpec) (fsafe : Callback) : CriticalActivity :=
  let a' := a.call .safe t fsafe
  if fsafe.throws then a'.nodeUnsafe
  else if a'.runState = .ready then { a' with runState := .running }
  else a'

/-- A span for the work callback, after the first one. -/
def runWork (a : CriticalActivity) (t : TimeSpec) (fwork : Callback) : CriticalActivity :=
  let a' := a.call .work t fwork
  if fwork.throws then a'.criticalError
  else if a'.runState = .lastWork then { a' with runState := .running }
  else a'

/-- The first span for the work callback. -/
def startWork (a : CriticalActivity) (t : TimeSpec) (fwork : Callback) : CriticalActivity :=
  let a' := a.call .work t fwork
  if fwork.throws then a'.criticalError else { a' with runState := .runningWork }

/-- The callbacks for a span, and the spans that each was given. -/
def invoke (a : CriticalActivity) (t : TimeSpec) (fsafe fwork : Callback) :
    CriticalActivity × List (Mode × TimeSpec) :=
  if a.runState < .firstWork then (a.runSafe t fsafe, [(.safe, t)])
  else if .firstWork < a.runState then (a.runWork t fwork, [(.work, t)])
  else if t.validityStart < a.workOn then
    -- a span that straddles the start of the work
    let before : TimeSpec := ⟨t.validityStart, a.workOn⟩
    let a' := a.call .safe before fsafe
    if fsafe.throws then (a'.nodeUnsafe, [(.safe, before)])
    else
      let after : TimeSpec := ⟨a'.workOn, t.validityEnd⟩
      (a'.startWork after fwork, [(.safe, before), (.work, after)])
  else (a.startWork t fwork, [(.work, t)])

/-- A span given to the activity. -/
def despatch (a : CriticalActivity) (t : TimeSpec) (fsafe fwork : Callback) :
    CriticalActivity :=
  let a' := a.nodeReaction
  match a'.transition t with
  | .error stopped => stopped.note (.despatched (decide (a'.Idle t)) t [])
  | .ok a'' =>
    let (done, calls) := a''.invoke t fsafe fwork
    done.note (.despatched (decide (a'.Idle t)) t calls)

end CriticalActivity

/-- What happens to an activity from outside. -/
inductive ActivityInput
  | request (r : Request)
  | despatch (t : TimeSpec) (fsafe fwork : Callback)
  deriving DecidableEq, Repr

/-- One step of the activity; none fails. -/
def activityStep (a : CriticalActivity) : ActivityInput → Except Empty CriticalActivity
  | .request r => .ok (a.request r)
  | .despatch t fsafe fwork => .ok (a.despatch t fsafe fwork)

end Dueca.Activity
