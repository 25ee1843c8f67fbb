import Dueca.Lib.Run
import Dueca.Channel.Messages

/-!
# The simulation state of the modules

A `DusimeController` takes requests for a simulation state, and sends entity commands to the
simulation and hardware modules. A command to change state holds the time of the change, some
time ahead; the modules keep it, and make the change when they check their state. Modules
confirm their state when they are asked to, and the controller combines what they report.

Commands for snapshots are left out.
-/

namespace Dueca.Dusime

open Dueca.Lib

/-- States of the simulation, and transitions between them. -/
inductive SimulationState
  | holdCurrent
  | advance
  | replay
  | inactive
  | inactiveHoldCurrent
  | calibrateHoldCurrent
  | advanceHoldCurrent
  | replayHoldCurrent
  | holdCurrentInactive
  | neutral
  | undefined
  deriving DecidableEq, Repr

namespace SimulationState

/-- The state after a transition. -/
def transitionFinal : SimulationState → SimulationState
  | holdCurrent => holdCurrent
  | advance => advance
  | replay => replay
  | inactive => inactive
  | inactiveHoldCurrent => holdCurrent
  | calibrateHoldCurrent => holdCurrent
  | advanceHoldCurrent => holdCurrent
  | replayHoldCurrent => holdCurrent
  | holdCurrentInactive => inactive
  | neutral => neutral
  | undefined => undefined

/-- `operator &=`: two different states, of which `neutral` is no state. -/
def combine (s o : SimulationState) : SimulationState :=
  if s = o then s
  else
    match s, o with
    | neutral, r | r, neutral => r
    | holdCurrent, inactiveHoldCurrent | inactiveHoldCurrent, holdCurrent => inactiveHoldCurrent
    | holdCurrent, calibrateHoldCurrent | calibrateHoldCurrent, holdCurrent =>
      calibrateHoldCurrent
    | holdCurrent, advanceHoldCurrent | advanceHoldCurrent, holdCurrent => advanceHoldCurrent
    | holdCurrent, replayHoldCurrent | replayHoldCurrent, holdCurrent => replayHoldCurrent
    | inactive, holdCurrentInactive | holdCurrentInactive, inactive => holdCurrentInactive
    | _, _ => undefined

theorem combine_comm (s o : SimulationState) : s.combine o = o.combine s := by
  cases s <;> cases o <;> rfl

@[simp] theorem transitionFinal_idem (s : SimulationState) :
    s.transitionFinal.transitionFinal = s.transitionFinal := by
  cases s <;> rfl

end SimulationState

open SimulationState

/-! ### Modules -/

/-- A change of state at a tick. -/
structure StateChange where
  time : ℕ
  state : SimulationState
  deriving DecidableEq, Repr

/-- What is known about a module: its state, and its last check. -/
structure EntityConfirm where
  currentState : SimulationState
  lastCheck : ℕ
  deriving DecidableEq, Repr

structure HardwareModule where
  currentState : SimulationState
  lastCheck : ℕ
  futureStates : List StateChange
  deriving DecidableEq, Repr

namespace HardwareModule

def new : HardwareModule := ⟨.inactive, 0, []⟩

/-- Whether a planned state is consistent with the current state. -/
def consistent (currentState : SimulationState) : SimulationState → Bool
  | .inactiveHoldCurrent => currentState = .inactive
  | .calibrateHoldCurrent => currentState = .holdCurrent
  | .advanceHoldCurrent => currentState = .advance
  | .holdCurrentInactive | .advance | .replay =>
    currentState = .holdCurrent || currentState = .replay
  | .replayHoldCurrent => currentState = .replay
  | _ => false

/-- `getAndCheckState`: at most one of the changes that are due is made, and only when it is
consistent. The change, and whether it is made, are returned too. -/
def getAndCheckState (m : HardwareModule) (ts : ℕ) :
    HardwareModule × Option (StateChange × Bool) :=
  let m := { m with lastCheck := ts }
  match m.futureStates with
  | [] => (m, none)
  | f :: fs =>
    if f.time ≤ ts then
      let m := { m with futureStates := fs }
      if consistent m.currentState f.state then
        ({ m with currentState := f.state }, some (f, true))
      else (m, some (f, false))
    else (m, none)

def transitionComplete (m : HardwareModule) : HardwareModule :=
  { m with currentState := m.currentState.transitionFinal }

end HardwareModule

/-- A simulation module changes at once to the state after the transition; only the state that
it reports is that of the transition. -/
structure SimulationModule where
  currentState : SimulationState
  currentReportState : SimulationState
  lastCheck : ℕ
  futureStates : List StateChange
  deriving DecidableEq, Repr

namespace SimulationModule

def new : SimulationModule := ⟨.inactive, .inactive, 0, []⟩

def transitionComplete (m : SimulationModule) : SimulationModule :=
  { m with currentReportState := m.currentReportState.transitionFinal }

/-- `getAndCheckState`: at most one of the changes that are due is made. -/
def getAndCheckState (m : SimulationModule) (ts : ℕ) (confirmTransition : Bool) :
    SimulationModule × Option (StateChange × Bool) :=
  let m := { m with lastCheck := ts }
  match m.futureStates with
  | [] => (m, none)
  | f :: fs =>
    if f.time ≤ ts then
      let m := { m with
        currentReportState := f.state
        currentState := f.state.transitionFinal
        futureStates := fs }
      (if confirmTransition then m.transitionComplete else m, some (f, true))
    else (m, none)

end SimulationModule

inductive DusimeModule
  | hardware (m : HardwareModule)
  | simulation (m : SimulationModule)
  deriving DecidableEq, Repr

namespace DusimeModule

def isHardware : DusimeModule → Bool
  | hardware _ => true
  | simulation _ => false

def lastCheck : DusimeModule → ℕ
  | hardware m => m.lastCheck
  | simulation m => m.lastCheck

def futureStates : DusimeModule → List StateChange
  | hardware m => m.futureStates
  | simulation m => m.futureStates

/-- The state that is reported: with a transition, until that is complete. -/
def reportState : DusimeModule → SimulationState
  | hardware m => m.currentState
  | simulation m => m.currentReportState

/-- The state in which the module runs. -/
def currentState : DusimeModule → SimulationState
  | hardware m => m.currentState
  | simulation m => m.currentState

/-- A new state is planned. -/
def plan (c : StateChange) : DusimeModule → DusimeModule
  | hardware m => hardware { m with futureStates := m.futureStates ++ [c] }
  | simulation m => simulation { m with futureStates := m.futureStates ++ [c] }

def getAndCheckState (ts : ℕ) (confirmTransition : Bool) :
    DusimeModule → DusimeModule × Option (StateChange × Bool)
  | hardware m => ((m.getAndCheckState ts).1 |> hardware, (m.getAndCheckState ts).2)
  | simulation m =>
    ((m.getAndCheckState ts confirmTransition).1 |> simulation,
      (m.getAndCheckState ts confirmTransition).2)

def transitionComplete : DusimeModule → DusimeModule
  | hardware m => hardware m.transitionComplete
  | simulation m => simulation m.transitionComplete

end DusimeModule

/-! ### The controller -/

/-- Commands to the modules. -/
inductive EntityCommand
  | newState (s : SimulationState)
  | confirmState (s : SimulationState)
  deriving DecidableEq, Repr

/-- A command sent at a tick, with its time. -/
structure Sent where
  sentAt : ℕ
  time : ℕ
  command : EntityCommand
  deriving DecidableEq, Repr

/-- The settings of a controller. -/
structure Settings where
  minInterval : ℕ
  minNotification : ℕ
  blockAdvance : Bool
  deriving DecidableEq, Repr

structure DusimeController where
  commandedState : SimulationState
  confirmedState : SimulationState
  previousConfirmedState : SimulationState
  stateHasChanged : Bool
  earliestChange : ℕ
  confirmDivisor : ℤ
  /-- The status of each module, as it has been reported last. -/
  status : List EntityConfirm
  deriving DecidableEq, Repr

/-- Rounding up, with numbers of 32 bits. -/
def roundUpwards (tgt period : ℕ) : ℕ :=
  ((tgt + 2 ^ 32 - 1) % 2 ^ 32 / period + 1) * period % 2 ^ 32

/-- The state change for a request, in a confirmed state. -/
def stateFor (confirmedState : SimulationState) : SimulationState → SimulationState
  | .advance =>
    if confirmedState = .holdCurrent ∨ confirmedState = .replay then .advance else .undefined
  | .replay => if confirmedState = .holdCurrent then .replay else .undefined
  | .holdCurrent =>
    if confirmedState = .advance then .advanceHoldCurrent
    else if confirmedState = .replay then .replayHoldCurrent
    else if confirmedState = .inactive then .inactiveHoldCurrent
    else .undefined
  | .inactive =>
    if confirmedState = .holdCurrent ∨ confirmedState = .undefined then .holdCurrentInactive
    else .undefined
  | .calibrateHoldCurrent =>
    if confirmedState = .holdCurrent then .calibrateHoldCurrent else .undefined
  | _ => .undefined

namespace DusimeController

/-- After the start, with a number of modules that have not reported yet. -/
def new (modules : ℕ) : DusimeController where
  commandedState := .inactive
  confirmedState := .neutral
  previousConfirmedState := .undefined
  stateHasChanged := true
  earliestChange := 0
  confirmDivisor := 2
  status := List.replicate modules ⟨.neutral, maxTimeTick⟩

/-- The new state for a request. The requested state itself, when that has been commanded
already. -/
def newState (c : DusimeController) (reqState : SimulationState) : SimulationState :=
  if c.commandedState = reqState then reqState else stateFor c.confirmedState reqState

/-- `controlModel` at a tick: whether the request is granted, and the command that is sent. -/
def controlModel (settings : Settings) (now : ℕ) (modulesOn : Bool) (c : DusimeController)
    (reqState : SimulationState) (reqTime : ℕ) : Bool × DusimeController × List Sent :=
  if reqTime < c.earliestChange then (false, c, [])
  else if ¬ modulesOn then (false, c, [])
  else if c.newState reqState = .undefined then (false, c, [])
  else
    let reqTime := roundUpwards reqTime settings.minInterval
    let time :=
      if (now + settings.minNotification) % 2 ^ 32 > reqTime
      then roundUpwards ((now + settings.minNotification) % 2 ^ 32) settings.minInterval
      else reqTime
    (true,
      { c with
        commandedState := (c.newState reqState).transitionFinal
        confirmDivisor := 1
        earliestChange := (time + 1) % 2 ^ 32
        stateHasChanged := true },
      [⟨now, time, .newState (c.newState reqState)⟩])

/-- `processConfirm`: the report of a module. -/
def processConfirm (c : DusimeController) (i : ℕ) (e : EntityConfirm) : DusimeController :=
  { c with status := c.status.set i e }

/-- The status of all modules together. -/
def summary (c : DusimeController) : EntityConfirm :=
  c.status.foldl (fun s e => ⟨s.currentState.combine e.currentState, min s.lastCheck e.lastCheck⟩)
    ⟨.neutral, maxTimeTick⟩

/-- The first part of `sendQuery`: the confirmed state, and a change of it that is published. -/
def refresh (c : DusimeController) : DusimeController × List SimulationState :=
  let c := { c with confirmedState := c.summary.currentState }
  if c.summary.lastCheck < c.earliestChange then (c, [])
  else if c.confirmedState ≠ c.previousConfirmedState then
    ({ c with previousConfirmedState := c.confirmedState }, [c.confirmedState])
  else if c.stateHasChanged ∧ c.confirmedState = c.commandedState then
    ({ c with stateHasChanged := false }, [])
  else (c, [])

/-- The last part of `sendQuery`: ask the modules for their state, now and then or, when it is
not the commanded state, each time. -/
def query (c : DusimeController) (now ts : ℕ) (tokenValid : Bool) :
    DusimeController × List Sent :=
  if c.commandedState = c.confirmedState then
    let c := { c with confirmDivisor := c.confirmDivisor - 1 }
    if c.confirmDivisor = 0 ∧ tokenValid then
      ({ c with confirmDivisor := 10 }, [⟨now, ts, .confirmState c.commandedState⟩])
    else (c, [])
  else if tokenValid then
    ({ c with confirmDivisor := 2 }, [⟨now, ts, .confirmState c.commandedState⟩])
  else (c, [])

end DusimeController

/-! ### All together -/

/-- A change that a module has taken from its plan: at the check at `at_`, with the one before
at `before`, and whether it has been made. -/
structure Applied where
  before : ℕ
  at_ : ℕ
  change : StateChange
  accepted : Bool
  deriving DecidableEq, Repr

/-- A module, the number of commands that it has read, its reports that the controller has not
read, and the record of its changes. -/
structure Member where
  module : DusimeModule
  read : ℕ
  confirms : List EntityConfirm
  applied : List Applied
  deriving DecidableEq, Repr

/-- The system, with the commands that have been sent and the states that have been published. -/
structure System where
  now : ℕ
  controller : DusimeController
  commands : List Sent
  published : List SimulationState
  members : List Member
  deriving DecidableEq, Repr

/-- What can happen. -/
inductive Input
  /-- The time goes on. -/
  | advance (ticks : ℕ)
  /-- A request from the interface. -/
  | request (reqState : SimulationState) (modulesOn : Bool)
  /-- `applicationStateChange`: a request from a module. -/
  | applicationStateChange (reqState : SimulationState) (validityStart : ℕ) (modulesOn : Bool)
  | sendQuery (ts : ℕ) (tokenValid : Bool)
  /-- The controller reads the next report of a module. -/
  | processConfirm (i : ℕ)
  /-- A module reads its next command. -/
  | processEntityCommand (i : ℕ)
  | getAndCheckState (i ts : ℕ) (confirmTransition : Bool)
  | transitionComplete (i : ℕ)
  deriving DecidableEq, Repr

inductive Fault
  | noModule
  | nothingToRead
  deriving DecidableEq, Repr

namespace Member

/-- A command is read. -/
def process (m : Member) (c : Sent) : Member :=
  match c.command with
  | .newState s => { m with module := m.module.plan ⟨c.time, s⟩, read := m.read + 1 }
  | .confirmState _ =>
    { m with
      read := m.read + 1
      confirms := m.confirms ++ [⟨m.module.reportState, m.module.lastCheck⟩] }

def check (m : Member) (ts : ℕ) (confirmTransition : Bool) : Member :=
  { m with
    module := (m.module.getAndCheckState ts confirmTransition).1
    applied := m.applied ++ ((m.module.getAndCheckState ts confirmTransition).2.map
      fun x => ⟨m.module.lastCheck, ts, x.1, x.2⟩).toList }

end Member

namespace System

/-- At the start, with a number of modules. -/
def start (modules : List DusimeModule) : System where
  now := 0
  controller := .new modules.length
  commands := []
  published := []
  members := modules.map fun m => ⟨m, 0, [], []⟩

/-- A request is granted or refused. -/
def control (settings : Settings) (sys : System) (reqState : SimulationState) (reqTime : ℕ)
    (modulesOn : Bool) : System :=
  let (_, c, sent) := sys.controller.controlModel settings sys.now modulesOn reqState reqTime
  { sys with controller := c, commands := sys.commands ++ sent }

/-- `sendQuery`. -/
def sendQuery (sys : System) (ts : ℕ) (tokenValid : Bool) : System :=
  let (c, published) := sys.controller.refresh
  let (c, sent) := c.query sys.now ts tokenValid
  { sys with
    controller := c
    commands := sys.commands ++ sent
    published := sys.published ++ published }

/-- Something happens to a module. -/
def atMember (sys : System) (i : ℕ) (f : Member → Except Fault (System × Member)) :
    Except Fault System :=
  match sys.members[i]? with
  | none => .error .noModule
  | some m => do
    let (sys, m) ← f m
    return { sys with members := sys.members.set i m }

end System

/-- The system takes a step. -/
def step (settings : Settings) (sys : System) : Input → Except Fault System
  | .advance ticks => .ok { sys with now := sys.now + ticks }
  | .request reqState modulesOn => .ok (sys.control settings reqState sys.now modulesOn)
  | .applicationStateChange reqState validityStart modulesOn =>
    if reqState = .advance ∧ settings.blockAdvance then .ok sys
    else .ok (sys.control settings reqState (max validityStart sys.now) modulesOn)
  | .sendQuery ts tokenValid => .ok (sys.sendQuery ts tokenValid)
  | .processConfirm i =>
    sys.atMember i fun m =>
      match m.confirms with
      | [] => .error .nothingToRead
      | e :: es =>
        .ok ({ sys with controller := sys.controller.processConfirm i e },
          { m with confirms := es })
  | .processEntityCommand i =>
    sys.atMember i fun m =>
      match sys.commands[m.read]? with
      | none => .error .nothingToRead
      | some c => .ok (sys, m.process c)
  | .getAndCheckState i ts confirmTransition =>
    sys.atMember i fun m => .ok (sys, m.check ts confirmTransition)
  | .transitionComplete i =>
    sys.atMember i fun m => .ok (sys, { m with module := m.module.transitionComplete })

end Dueca.Dusime
