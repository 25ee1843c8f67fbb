import Dueca.Master.Model
import Dueca.End.Journal

/-!
# The channel protocol

One master and the ends of a channel, which exchange `UChannelCommRequest` messages.
The requests of an end reach the master in the order in which the end wrote them, and
each command of the master goes, in order, to all ends that have joined. The first
request of an end is its `NewEndJoins`, and the end has joined when the master has
served it.

There is one end of a channel at a node, and the node number is part of the ids by
which the end names its entries (`creation_id`); a second end at a node is not made.
-/

namespace Dueca.Protocol

open Dueca.Lib

/-- What an end has received from the master or written for it. -/
inductive Event
  | received (msg : UChannelCommRequest)
  | sent (msg : UChannelCommRequest)
  deriving DecidableEq, Repr

/-- An end in the protocol. -/
structure Participant where
  channel : End.UnifiedChannel
  log : End.Log := {}
  /-- The master has served the `NewEndJoins` of this end. -/
  joined : Bool := false
  /-- The requests the master has not served. -/
  outbox : List UChannelCommRequest := []
  /-- The commands the end has not processed. -/
  inbox : List UChannelCommRequest := []
  history : List Event := []

/-- The master and the ends. -/
structure System where
  master : Master.UnifiedChannelMaster := {}
  ends : List Participant := []

/-- Where a run stops. -/
inductive Fault
  | master (f : Master.Fault)
  | channel (f : End.Fault)
  deriving DecidableEq, Repr

/-- One action: a new end is made, an end serves a call on a token, an end processes the
next command, the master serves the next request of an end, or sweeps. -/
inductive Action
  | newEnd (id : GlobalId)
  | act (k : ℕ) (i : End.Input)
  | receive (k : ℕ)
  | serve (k : ℕ)
  | sweep

/-- A new end, with its request to join. -/
def Participant.create (id : GlobalId) : Participant where
  channel := .create id
  outbox := [{ type := .newEndJoins, data0 := id.location }]

/-- The commands an effect list of the master writes. -/
def commandsSent (out : List Master.Effect) : List UChannelCommRequest :=
  out.filterMap fun
    | .send msg => some msg
    | _ => none

/-- Let an end serve an input; what it writes goes to the master. -/
def Participant.respond (reg : DataClassRegistry) (p : Participant) (i : End.Input) :
    Except Fault Participant :=
  match End.respond reg p.channel i with
  | .error f => .error (.channel f)
  | .ok (s, out) => .ok { p with
      channel := s
      log := (p.log.atInput p.channel i).append out
      outbox := p.outbox ++ End.requestsSent out
      history := p.history ++ (End.requestsSent out).map .sent }

/-- Let an end process the command at the front of its queue. -/
def Participant.receive (reg : DataClassRegistry) (p : Participant) : Except Fault Participant :=
  match p.inbox with
  | [] => .ok p
  | msg :: rest =>
    Participant.respond reg { p with inbox := rest, history := p.history ++ [.received msg] }
      (.updateConfiguration msg)

/-- Commands go to all ends that have joined. -/
def broadcast (cmds : List UChannelCommRequest) (p : Participant) : Participant :=
  if p.joined then { p with inbox := p.inbox ++ cmds } else p

/-- Take the first request of an end; an end whose `NewEndJoins` is taken has joined. -/
def Participant.taken (p : Participant) : Participant :=
  match p.outbox with
  | [] => p
  | r :: rest => { p with outbox := rest, joined := p.joined || r.type == .newEndJoins }

namespace System

/-- The master serves the first request of end `k`. -/
def serve (reg : DataClassRegistry) (sys : System) (k : ℕ) : Except Fault System :=
  match sys.ends[k]? with
  | none => .ok sys
  | some p =>
    match p.outbox with
    | [] => .ok sys
    | r :: _ =>
      match sys.master.processOne reg r with
      | .error f => .error (.master f)
      | .ok (m, out) => .ok ⟨m, (sys.ends.set k p.taken).map (broadcast (commandsSent out))⟩

/-- Let end `k` do something. -/
def onEnd (sys : System) (k : ℕ) (f : Participant → Except Fault Participant) :
    Except Fault System :=
  match sys.ends[k]? with
  | none => .ok sys
  | some p =>
    match f p with
    | .error e => .error e
    | .ok p' => .ok { sys with ends := sys.ends.set k p' }

end System

/-- One action of the protocol. Commands reach an end only through its queue. -/
def step (reg : DataClassRegistry) (sys : System) : Action → Except Fault System
  | .newEnd id =>
    if id.location < 0x100 ∧ ∀ p ∈ sys.ends, p.channel.id.location ≠ id.location then
      .ok { sys with ends := sys.ends ++ [.create id] }
    else .ok sys
  | .act k i =>
    match i with
    | .updateConfiguration _ => .ok sys
    | i => sys.onEnd k fun p => p.respond reg i
  | .receive k => sys.onEnd k fun p => p.receive reg
  | .serve k => sys.serve reg k
  | .sweep => .ok ⟨sys.master.sweep.1, sys.ends.map (broadcast (commandsSent sys.master.sweep.2))⟩

end Dueca.Protocol
