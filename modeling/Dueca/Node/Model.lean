import Dueca.Lib.Run
import Mathlib.Data.List.FinRange

/-!
# The node managers

Each node has a `NodeManager`, that keeps the last reported state of each of the nodes. Node 0
queries the nodes; on a query a node reports what it is, from what it has heard of the others and
from whether its ticker is synchronised. Queries and reports are written in one channel, in which
each node has an entry and from which each node reads the messages of a writer in their order.

Views of the node states are left out, and so is the stop after a break.
-/

namespace Dueca.Node

open Dueca.Lib

/-- `NodeControlMessage::NodeState`: what a node reports, and the commands to the nodes. -/
inductive NodeState
  | nodeLoose
  | nodeJoining
  | nodeJoined
  | nodeSynced
  | nodeBreak
  | nodeBreaking
  | nodeQuery
  | emergency
  deriving DecidableEq, Repr

/-- The only thing that can go wrong is an index past the end of the node states. -/
inductive Fault | outOfBounds
  deriving DecidableEq, Repr

variable {n : ℕ}

/-- The manager in one of `n` nodes, with what it uses of its tokens and its ticker. -/
structure NodeManager (n : ℕ) where
  thisNode : ℕ
  nodeState : Fin n → NodeState := fun _ => .nodeLoose
  slowQuery : Bool := false
  breaking : Bool := false
  /-- Critical activities are in their safe mode. -/
  critical : Bool := false
  /-- `emit_query` is switched on. -/
  emitting : Bool := false
  /-- `t_control.isValid()`. -/
  readValid : Bool := false
  /-- `w_control.isValid()`. -/
  writeValid : Bool := false
  /-- `Ticker::isSynced()`. -/
  synced : Bool := false

namespace NodeManager

/-- All nodes are synchronised. -/
def isDuecaSynced (m : NodeManager n) : Bool :=
  decide (∀ ii, m.nodeState ii = .nodeSynced)

/-- All nodes have joined. -/
def isDuecaComplete (m : NodeManager n) : Bool :=
  decide (∀ ii, m.nodeState ii = .nodeJoined ∨ m.nodeState ii = .nodeSynced)

/-- All nodes are joining, or further. -/
def isDuecaCompleting (m : NodeManager n) : Bool :=
  decide (∀ ii, m.nodeState ii = .nodeJoined ∨ m.nodeState ii = .nodeJoining ∨
    m.nodeState ii = .nodeSynced)

/-- Keep the state that a node reports. The test lets the number of nodes through as a node. -/
def note (m : NodeManager n) (origin : ℕ) (state : NodeState) : Except Fault (NodeManager n) :=
  if origin > n then .ok m
  else if h : origin < n then
    .ok { m with nodeState := Function.update m.nodeState ⟨origin, h⟩ state }
  else .error .outOfBounds

/-- The answer to a query. -/
def reply (m : NodeManager n) : NodeState :=
  if m.breaking then .nodeBreaking
  else if m.isDuecaComplete && m.synced then .nodeSynced
  else if m.isDuecaCompleting then .nodeJoined
  else .nodeJoining

/-- Node 0 slows down its queries when all nodes have joined. -/
def slowDown (m : NodeManager n) : NodeManager n :=
  if m.thisNode = 0 && !m.slowQuery && m.isDuecaComplete then { m with slowQuery := true } else m

/-- Handle one message; gives the messages that are sent in return. -/
def processMessages (m : NodeManager n) (origin : ℕ) (state : NodeState) :
    Except Fault (NodeManager n × List NodeState) :=
  match state with
  | .nodeLoose | .nodeJoined | .nodeJoining | .nodeSynced | .nodeBreaking =>
    match m.note origin state with
    | .ok m' => .ok (m'.slowDown, [])
    | .error e => .error e
  | .nodeQuery => .ok (m.slowDown, if m.writeValid then [m.reply] else [])
  | .nodeBreak => .ok ({ m with breaking := true }.slowDown, [.nodeBreaking])
  | .emergency => .ok ({ m with critical := true }.slowDown, [])

/-- `writeIsValid`: node 0 starts to query. -/
def writeIsValid (m : NodeManager n) : NodeManager n :=
  { m with writeValid := true, emitting := m.emitting || m.thisNode = 0 }

/-- The query that is sent, if there is a valid token. -/
def emitQuery (m : NodeManager n) : List NodeState :=
  if m.writeValid then [.nodeQuery] else []

end NodeManager

/-- The managers, all messages in the order sent, and how many messages each node has read of
each of the writers. -/
structure System (n : ℕ) where
  nodes : Fin n → NodeManager n
  log : List (Fin n × NodeState) := []
  read : Fin n → Fin n → ℕ := fun _ _ => 0

/-- No node has sent anything. -/
def System.init (n : ℕ) : System n where
  nodes i := { thisNode := i }

/-- The messages of one writer. -/
def System.entry (s : System n) (j : Fin n) : List NodeState :=
  (s.log.filter (·.1 = j)).map (·.2)

/-- What happens in a node. -/
inductive Input (n : ℕ)
  /-- The token for writing becomes valid. -/
  | writeIsValid (i : Fin n)
  /-- The token for reading becomes valid. -/
  | readIsValid (i : Fin n)
  /-- The alarm for a query goes off. -/
  | emitQuery (i : Fin n)
  /-- The next message of `j` has arrived at `i`. -/
  | processMessages (i j : Fin n)
  /-- The ticker gets in, or out of synchronisation. -/
  | ticker (i : Fin n) (synced : Bool)
  /-- The system is to be stopped. -/
  | breakUp (i : Fin n)
  /-- An emergency is noticed. -/
  | emergency (i : Fin n)
  deriving DecidableEq

/-- A manager changes, and sends messages. -/
def System.act (s : System n) (i : Fin n) (m : NodeManager n) (sent : List NodeState) : System n :=
  { s with
    nodes := Function.update s.nodes i m
    log := s.log ++ sent.map (i, ·) }

/-- One more message of `j` is read by `i`. -/
def System.advance (s : System n) (i j : Fin n) : System n :=
  { s with read := Function.update s.read i (Function.update (s.read i) j (s.read i j + 1)) }

/-- One event in one node. -/
def step (s : System n) : Input n → Except Fault (System n)
  | .writeIsValid i => .ok (s.act i (s.nodes i).writeIsValid [])
  | .readIsValid i => .ok (s.act i { s.nodes i with readValid := true } [])
  | .emitQuery i =>
    .ok (if (s.nodes i).emitting then s.act i (s.nodes i) (s.nodes i).emitQuery else s)
  | .processMessages i j =>
    if (s.nodes i).readValid then
      match (s.entry j)[s.read i j]? with
      | none => .ok s
      | some state =>
        match (s.nodes i).processMessages j state with
        | .error e => .error e
        | .ok (m, sent) => .ok ((s.advance i j).act i m sent)
    else .ok s
  | .ticker i synced => .ok (s.act i { s.nodes i with synced := synced } [])
  | .breakUp i => .ok (s.act i (s.nodes i) [.nodeBreak])
  | .emergency i =>
    .ok (if (s.nodes i).thisNode = 0 then
      s.act i { s.nodes i with critical := true } [.emergency] else s)

end Dueca.Node
