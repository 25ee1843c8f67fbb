import Dueca.Net.Passes
import Dueca.Lib.KeyMap
import Mathlib.Data.List.Range

/-!
# The nodes that the DUECA network master admits

`DuecaNetMaster` decides for its base class which peers may join. A peer sends the node
that it is, in the payload of a configuration message, and is entered in `metainfo`. Once
that map has as many entries as there are nodes in the list `peer_nodeids`, the peers are
accepted in the order of the list. The same size tells whether a message is filled with
work: there must be as many active peers as entries.

The walk over the list of peers is that of the base class, with the answers given here.
The nodes accepted, the rejections and the messages filled are noted; nothing in the
source reads them.
-/

namespace Dueca.Net

open Dueca.Lib

/-- The list of nodes to connect: with the node that the master runs on, it has each node
once. -/
structure NodeList where
  location : ℕ
  peerNodeids : List ℕ
  complete : (location :: peerNodeids).Perm (List.range (peerNodeids.length + 1))

/-- `getNoOfNodes`. -/
def NodeList.noOfNodes (c : NodeList) : ℕ := c.peerNodeids.length + 1

/-- What is known of a peer. -/
structure PeerMeta where
  nodeid : ℕ := 0
  name : String := ""
  sendOrder : ℕ := 0
  deriving DecidableEq, Repr

/-- `metainfo`: peers by their ids. -/
abbrev MetaInfo := KeyMap (id : ℕ → ℕ) PeerMeta

/-- The payload of a configuration message from a peer. -/
structure NodeConfig where
  nodeid : ℕ
  numNodes : ℕ
  hostname : String
  deriving DecidableEq, Repr

/-- What a peer asks for, with the payload. -/
inductive NodeCommand
  | deletePeer
  | clientPayload (config : NodeConfig)
  | duecaVersion
  | unhandled
  deriving DecidableEq, Repr

namespace NodeCommand

/-- The command as the base class sees it. -/
def command : NodeCommand → PeerCommand
  | .deletePeer => .deletePeer
  | .clientPayload _ => .clientPayload
  | .duecaVersion => .duecaVersion
  | .unhandled => .unhandled

def config? : NodeCommand → Option NodeConfig
  | .clientPayload config => some config
  | .deletePeer | .duecaVersion | .unhandled => none

end NodeCommand

/-- What comes in over the configuration connections. -/
inductive NodeEvent
  | opened
  | message (origin : ℕ) (commands : List NodeCommand)
  | closed (origin : ℕ)
  deriving DecidableEq, Repr

/-- The event as the base class sees it. -/
def NodeEvent.event : NodeEvent → NetCommunicatorMaster.ConfigEvent
  | .opened => .opened
  | .message origin commands => .message origin (commands.map NodeCommand.command)
  | .closed origin => .closed origin

/-- A message that was filled: whether work was taken from the packers, and the nodes that
were active. -/
structure PackCall where
  taken : Bool
  active : List ℕ
  deriving DecidableEq, Repr

/-- What a rejection found and what it left: the peers known, and the count of active
ones. -/
structure Rejection where
  known : List (ℕ × PeerMeta)
  knownAfter : List (ℕ × PeerMeta)
  npeers : ℕ
  npeersAfter : ℕ
  deriving DecidableEq, Repr

/-- The network master of a DUECA process. `payloads` holds the payloads received and not
yet decoded, with the peer that sent them. -/
structure DuecaNetMaster where
  base : NetCommunicatorMaster := {}
  metainfo : MetaInfo := .empty
  sendOrderCounter : ℕ := 1
  payloads : List (ℕ × NodeConfig) := []
  accepted : List ℕ := []
  rejected : List Rejection := []
  packed : List PackCall := []

/-- The walk stops as that of the base class does, or with an exception that nothing
catches; the activity of the master is then switched off. -/
inductive NodeFault
  | base (fault : Fault)
  | configConnectionBroken
  deriving DecidableEq, Repr

/-- The place of a node in the list, from one on, or zero. -/
def sendOrder (peerNodeids : List ℕ) (nodeid : ℕ) : ℕ :=
  peerNodeids.zipIdx.foldl (fun order p => if p.1 = nodeid then p.2 + 1 else order) 0

/-- Enter a peer with the node that it says it is. -/
def clientDecodeConfig (c : NodeList) (metainfo : MetaInfo) (peerId : ℕ) (config : NodeConfig) :
    Except NodeFault MetaInfo :=
  if config.numNodes ≠ c.noOfNodes then .error .configConnectionBroken
  else
    let order := sendOrder c.peerNodeids config.nodeid
    if order = 0 then .error .configConnectionBroken
    else .ok (metainfo.assign peerId
      { nodeid := config.nodeid, name := config.hostname, sendOrder := order })

/-- Decode, of these payloads, those of one peer. -/
def decodeConfigs (c : NodeList) (peerId : ℕ) :
    MetaInfo → List (ℕ × NodeConfig) → Except NodeFault MetaInfo
  | metainfo, [] => .ok metainfo
  | metainfo, p :: ps =>
    if p.1 = peerId then
      match clientDecodeConfig c metainfo peerId p.2 with
      | .error e => .error e
      | .ok metainfo' => decodeConfigs c peerId metainfo' ps
    else decodeConfigs c peerId metainfo ps

namespace DuecaNetMaster

/-- May this peer join? -/
def clientAuthorizePeer (c : NodeList) (warnings : Bool) (d : DuecaNetMaster) (sendId : ℕ) :
    VettingResult × DuecaNetMaster :=
  if d.metainfo.entries.length = c.peerNodeids.length then
    match d.metainfo.value? sendId with
    | none =>
      -- the text of the warning looks the peer up, and the look-up makes an entry
      (.reject, if warnings then { d with metainfo := d.metainfo.emplace sendId {} } else d)
    | some info =>
      if info.sendOrder = d.sendOrderCounter then
        (.accept, { d with
          sendOrderCounter := d.sendOrderCounter + 1
          accepted := d.accepted ++ [info.nodeid] })
      else (.delay, d)
  else (.delay, d)

/-- The nodes of the active peers. -/
def activeNodes (d : DuecaNetMaster) : List ℕ :=
  (d.base.peers.filter fun p => p.state == .active).filterMap fun p =>
    (d.metainfo.value? p.sendId).map PeerMeta.nodeid

/-- Fill a message: the packers are asked for work if the sizes agree. -/
def clientPackPayload (d : DuecaNetMaster) : DuecaNetMaster :=
  { d with
    packed := d.packed ++
      [{ taken := d.base.net.npeers == d.metainfo.entries.length, active := d.activeNodes }] }

/-- The payloads of one peer are decoded and gone. -/
def decodePayloads (c : NodeList) (d : DuecaNetMaster) (peerId : ℕ) :
    Except NodeFault DuecaNetMaster :=
  match decodeConfigs c peerId d.metainfo d.payloads with
  | .error e => .error e
  | .ok metainfo =>
    .ok { d with metainfo := metainfo, payloads := d.payloads.filter fun p => p.1 != peerId }

/-- The client's answer; it is asked about a peer that is to be vetted. -/
def vet (c : NodeList) (warnings : Bool) (d : DuecaNetMaster) (peer : CommPeer) :
    VettingResult × DuecaNetMaster :=
  match peer.state with
  | .vetting => d.clientAuthorizePeer c warnings peer.sendId
  | .wait | .active | .broken => (.delay, d)

/-- Look at the peer at this place in the list. The result has the master, whether a peer
was accepted, and the place of the next one. -/
def examineNode (c : NodeList) (warnings : Bool) (d : DuecaNetMaster) (peer : CommPeer) (i : ℕ) :
    Except NodeFault (DuecaNetMaster × Bool × ℕ) :=
  let answered := d.vet c warnings peer
  match NetCommunicatorMaster.examine (fun _ => answered.1)
      { master := d.base, asked := 0 } peer i with
  | .error e => .error (.base e)
  | .ok (w, next) =>
    let d' := { answered.2 with base := w.master }
    match answered.1, peer.state with
    | .accept, _ | .delay, .broken => .ok (d', w.anychanges, next)
    | .reject, _ =>
      let rejection : Rejection :=
        { known := d.metainfo.entries, knownAfter := d'.metainfo.entries
          npeers := d.base.net.npeers, npeersAfter := d'.base.net.npeers }
      .ok ({ d' with rejected := d'.rejected ++ [rejection] }, w.anychanges, next)
    | .delay, _ =>
      match d'.decodePayloads c peer.sendId with
      | .error e => .error e
      | .ok d'' => .ok (d'', w.anychanges, next)

/-- One pass over the list of peers, from this place on. -/
def nodePass (c : NodeList) (warnings : Bool) :
    ℕ → DuecaNetMaster → Bool → ℕ → Except NodeFault (DuecaNetMaster × Bool)
  | 0, _, _, _ => .error (.base .outOfFuel)
  | fuel + 1, d, anychanges, i =>
    match d.base.peers[i]? with
    | none => .ok (d, anychanges)
    | some peer =>
      match d.examineNode c warnings peer i with
      | .error e => .error e
      | .ok (d', accepted, next) => nodePass c warnings fuel d' (anychanges || accepted) next

/-- Pass over the list until no peer is accepted in a pass. -/
def repeatNodePasses (c : NodeList) (warnings : Bool) :
    ℕ → DuecaNetMaster → Except NodeFault DuecaNetMaster
  | 0, _ => .error (.base .outOfFuel)
  | fuel + 1, d =>
    match d.nodePass c warnings (d.base.peers.length + 1) false 0 with
    | .error e => .error e
    | .ok (d', anychanges) =>
      if anychanges then repeatNodePasses c warnings fuel d' else .ok d'

/-- Receive one configuration message; payloads are kept for a peer in the list. -/
def receiveNode (d : DuecaNetMaster) (e : NodeEvent) : DuecaNetMaster :=
  { d with
    base := d.base.receiveOne e.event
    payloads := match e with
      | .message origin commands =>
        if d.base.peers.any fun p => p.sendId == origin then
          d.payloads ++ (commands.filterMap NodeCommand.config?).map fun config => (origin, config)
        else d.payloads
      | .opened | .closed _ => d.payloads }

end DuecaNetMaster

open DuecaNetMaster

/-- What a check meets: the configuration events, and whether the warning about a rejected
peer is written. -/
structure NodeCheck where
  events : List NodeEvent
  warnings : Bool := true
  deriving DecidableEq, Repr

/-- Planned changes and configuration messages, before the peers are looked at. -/
def DuecaNetMaster.received (d : DuecaNetMaster) (k : NodeCheck) : DuecaNetMaster :=
  k.events.foldl receiveNode { d with base := d.base.applyChanges d.base.peerChanges }

/-- The check in each cycle. -/
def nodeCheck (c : NodeList) (d : DuecaNetMaster) (k : NodeCheck) :
    Except NodeFault DuecaNetMaster :=
  let d' := d.received k
  d'.repeatNodePasses c k.warnings (d'.base.peers.length + 1)

/-- What happens to the master: a connection opens, the exchange of messages leaves the
cycle counter at `messageCycle`, a new message is sent, or the check runs. -/
inductive NodeInput
  | opened
  | cycle (messageCycle : ℕ)
  | pack
  | check (input : NodeCheck)

/-- One step of the master. Without peers no message is sent. -/
def nodeStep (c : NodeList) (d : DuecaNetMaster) : NodeInput → Except NodeFault DuecaNetMaster
  | .opened => .ok { d with base := d.base.assignPeerId }
  | .cycle messageCycle =>
    .ok { d with base := { d.base with net := { d.base.net with messageCycle := messageCycle } } }
  | .pack => .ok (if d.base.net.npeers = 0 then d else d.clientPackPayload)
  | .check k => nodeCheck c d k

end Dueca.Net
