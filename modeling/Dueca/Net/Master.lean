import Dueca.Net.Communicator
import Dueca.Lib.Run

/-!
# The peers in the administration of the network master

`NetCommunicatorMaster` keeps a list of peers. A peer that opens a configuration
connection is put at the end of it, to be vetted. When it is accepted, joining is
planned some cycles ahead; a `DeletePeer` request plans its leaving. The planned
changes are a queue, served when the message cycle has reached the one at its
head. `checkAndUpdatePeerStates` runs once in each cycle: it carries out the
planned changes, receives configuration messages, and then passes over the list
of peers until no pass accepts a peer any more.

The list is walked with an iterator, modelled by an index. A pass reports the ids
that it has looked at, and the ids left in the list when it is over; the source
has no such report, and nothing in the model reads it.
-/

namespace Dueca.Net

open Dueca.Lib

/-- The life of a peer; the order is that of the source's enumeration. -/
inductive PeerState | vetting | wait | active | broken
  deriving DecidableEq, Repr

/-- What a peer asks for over its configuration connection. -/
inductive PeerCommand | deletePeer | clientPayload | duecaVersion | unhandled
  deriving DecidableEq, Repr

/-- A command in a configuration message to a peer. `peerInfo` is the block that follows
`configurePeer`, of which only the cycle to join at matters here. -/
inductive UDPPeerConfig
  | hookUp (peerId targetCycle : ℕ)
  | configurePeer (peerId : ℕ)
  | peerInfo (joinCycle : ℕ)
  | initialConfComplete
  | deletePeer (peerId targetCycle : ℕ)
  deriving DecidableEq, Repr

/-- A peer in the list; `commbuf` holds the commands received and not yet decoded. -/
structure CommPeer where
  state : PeerState := .vetting
  sendId : ℕ
  followId : ℕ
  commbuf : List PeerCommand := []
  deriving DecidableEq, Repr

/-- A planned change in the number of peers; the peer's id is kept in 16 bits. -/
structure ChangeCycle where
  changeCycle : ℕ
  peer : UInt16
  addition : Bool
  deriving DecidableEq, Repr

/-- A configuration message as the master sent it: to whom, and in which cycle. -/
structure SentConfig where
  target : ℕ
  cycle : ℕ
  configs : List UDPPeerConfig
  deriving DecidableEq, Repr

/-- The master of a network: the communicator it is based on, and the
administration of the peers. `sent` lists the configuration messages, oldest
first. -/
structure NetCommunicatorMaster where
  net : NetCommunicator := {}
  peers : List CommPeer := []
  nextPeerId : ℕ := 0
  peerChanges : List ChangeCycle := []
  sent : List SentConfig := []
  deriving DecidableEq, Repr

/-- The client's answer when a peer is to be vetted. -/
inductive VettingResult | delay | reject | accept
  deriving DecidableEq, Repr

/-- The constructor of a planned change. -/
def ChangeCycle.make (changeCycle peer : ℕ) (addition : Bool) : ChangeCycle where
  changeCycle := changeCycle
  peer := UInt16.ofNat peer
  addition := addition

namespace NetCommunicatorMaster

/-- The master sends configuration messages to one peer. -/
def sendConfig (m : NetCommunicatorMaster) (target : ℕ) (configs : List UDPPeerConfig) :
    NetCommunicatorMaster :=
  { m with
    sent := m.sent ++
      [{ target := target, cycle := m.net.messageCycle, configs := configs }] }

/-- `npeers++`. -/
def countPeer (m : NetCommunicatorMaster) : NetCommunicatorMaster :=
  { m with net := { m.net with npeers := (m.net.npeers + 1) % 2 ^ 32 } }

/-- `npeers--`. -/
def uncountPeer (m : NetCommunicatorMaster) : NetCommunicatorMaster :=
  { m with net := { m.net with npeers := minus32 m.net.npeers 1 } }

/-- A new configuration connection: its peer follows the last one in the list. -/
def assignPeerId (m : NetCommunicatorMaster) : NetCommunicatorMaster :=
  let previous := (m.peers.getLast?.map CommPeer.sendId).getD 0
  let next := (m.nextPeerId + 1) % 2 ^ 32
  { m with
    nextPeerId := next
    peers := m.peers ++ [{ sendId := next, followId := previous }] }

/-- The current configuration, for a peer that may join at `joinCycle`. -/
def sendCurrentConfigToPeer (m : NetCommunicatorMaster) (peer : CommPeer) (joinCycle : ℕ) :
    NetCommunicatorMaster :=
  m.sendConfig peer.sendId
    [.hookUp (peer.followId % 2 ^ 16) joinCycle, .configurePeer (peer.sendId % 2 ^ 16),
      .peerInfo joinCycle, .initialConfComplete]

/-- Tell a peer at once whom to follow. -/
def changeFollowId (m : NetCommunicatorMaster) (peer : CommPeer) : NetCommunicatorMaster :=
  m.sendConfig peer.sendId [.hookUp (peer.followId % 2 ^ 16) 0]

/-- Whether `correctFollowId` looks at this peer for the one that drops out. -/
def follows (sendId : ℕ) (p : CommPeer) : Bool :=
  p.state != .broken && p.followId == sendId

/-- The first peer that follows `sendId` is to follow `followId` from now on. -/
def correctFollowId (m : NetCommunicatorMaster) (sendId followId : ℕ) :
    NetCommunicatorMaster :=
  match m.peers.find? (follows sendId) with
  | none => m
  | some p2 =>
    let patched := { p2 with followId := followId }
    let m' : NetCommunicatorMaster :=
      { m with
        peers := m.peers.replaceF fun p =>
          if follows sendId p then some { p with followId := followId } else none }
    if p2.state = .vetting then m' else m'.changeFollowId patched

/-- Carry out one planned change; it is dropped when its peer has disappeared. -/
def applyChange (m : NetCommunicatorMaster) (change : ChangeCycle) : NetCommunicatorMaster :=
  if m.peers.any fun p => p.sendId == change.peer.toNat then
    if change.addition then
      let m' : NetCommunicatorMaster :=
        { m with
          peers := m.peers.replaceF fun p =>
            if p.sendId == change.peer.toNat then some { p with state := .active } else none }
      -- the first peer of all: the next message is to be a new one
      let net := if m.net.npeers = 0 then
          { m.net with
            currentSendBuffer := { m.net.currentSendBuffer with
              messageCycle := minus32 m.net.messageCycle 0x10 } }
        else m.net
      { m' with net := net }.countPeer
    else
      { m with peers := m.peers.eraseP fun p => p.sendId == change.peer.toNat }.uncountPeer
  else m

/-- The planned changes at the head of the queue that are due. -/
def applyChanges (m : NetCommunicatorMaster) : List ChangeCycle → NetCommunicatorMaster
  | [] => { m with peerChanges := [] }
  | change :: rest =>
    if cycleIsCurrentOrPast m.net.messageCycle change.changeCycle then
      (m.applyChange change).applyChanges rest
    else { m with peerChanges := change :: rest }

/-- One request of the peer at this place in the list. A request to leave plans
the leaving, tells the peer, and corrects the one that follows it. -/
def decodeCommand (m : NetCommunicatorMaster) (i : ℕ) (command : PeerCommand) :
    NetCommunicatorMaster :=
  match m.peers[i]? with
  | none => m
  | some peer =>
    match command with
    | .deletePeer =>
      let change := ChangeCycle.make (cycleIncrement m.net.messageCycle 4) peer.sendId false
      let m' := { m with peerChanges := m.peerChanges ++ [change] }.sendConfig peer.sendId
        [.deletePeer (peer.sendId % 2 ^ 16) (cycleIncrement m.net.messageCycle 3)]
      m'.correctFollowId peer.sendId peer.followId
    | .clientPayload | .duecaVersion | .unhandled => m

/-- Decode all that the peer at this place has sent. -/
def decodeConfigData (m : NetCommunicatorMaster) (i : ℕ) : NetCommunicatorMaster :=
  let commands := (m.peers[i]?.map CommPeer.commbuf).getD []
  let m' := commands.foldl (fun m c => m.decodeCommand i c) m
  { m' with peers := m'.peers.modify i fun p => { p with commbuf := [] } }

/-- What comes in over the configuration connections. -/
inductive ConfigEvent
  | opened
  | message (origin : ℕ) (commands : List PeerCommand)
  | closed (origin : ℕ)
  deriving DecidableEq, Repr

/-- Receive one configuration message, or a connection that opens or breaks. -/
def receiveOne (m : NetCommunicatorMaster) : ConfigEvent → NetCommunicatorMaster
  | .opened => m.assignPeerId
  | .message origin commands =>
    { m with
      peers := m.peers.replaceF fun p =>
        if p.sendId == origin then some { p with commbuf := p.commbuf ++ commands } else none }
  | .closed origin =>
    { m with
      peers := m.peers.replaceF fun p =>
        if p.sendId == origin then some { p with state := .broken } else none }

/-- One pass over the list: the master, the number of vetting answers used, whether
a peer was accepted, and the ids of the peers looked at. -/
structure Pass where
  master : NetCommunicatorMaster
  asked : ℕ
  anychanges : Bool := false
  examined : List ℕ := []

/-- Take the peer at this place off the list, and have its follower skip it. -/
def removePeer (m : NetCommunicatorMaster) (i : ℕ) (peer : CommPeer) : NetCommunicatorMaster :=
  let m' := m.correctFollowId peer.sendId peer.followId
  { m' with peers := m'.peers.eraseIdx i }.uncountPeer

/-- Configure the peer at this place, and plan its joining: the first peers join
soon, later ones at a planned cycle. -/
def acceptPeer (m : NetCommunicatorMaster) (i : ℕ) (peer : CommPeer) : NetCommunicatorMaster :=
  let joinCycle := cycleIncrement m.net.messageCycle (if m.net.npeers = 0 then 2 else 10)
  let m' := m.sendCurrentConfigToPeer peer joinCycle
  { m' with
    peers := m'.peers.modify i fun p => { p with state := .wait }
    peerChanges := m'.peerChanges ++ [ChangeCycle.make joinCycle peer.sendId true] }

/-- Look at the peer at this place in the list, and give the place of the next
one. -/
def examine (answer : ℕ → VettingResult) (w : Pass) (peer : CommPeer) (i : ℕ) :
    Except Fault (Pass × ℕ) :=
  let m := w.master
  let seen := { w with examined := w.examined ++ [peer.sendId] }
  match peer.state with
  | .vetting =>
    let asked := { seen with asked := w.asked + 1 }
    match answer w.asked with
    | .reject => .ok ({ asked with master := m.removePeer i peer }, i)
    | .accept => .ok ({ asked with anychanges := true, master := m.acceptPeer i peer }, i + 1)
    | .delay => .ok ({ asked with master := m.decodeConfigData i }, i + 1)
  | .wait | .active => .ok ({ seen with master := m.decodeConfigData i }, i + 1)
  | .broken =>
    let erased := m.removePeer i peer
    -- the iterator already stands at the next peer, and is moved once more
    if i < erased.peers.length then .ok ({ seen with master := erased }, i + 1)
    else .error .beyondEnd

/-- One pass over the list of peers, from this place on. -/
def peerPass (answer : ℕ → VettingResult) : ℕ → Pass → ℕ → Except Fault Pass
  | 0, _, _ => .error .outOfFuel
  | fuel + 1, w, i =>
    match w.master.peers[i]? with
    | none => .ok w
    | some peer =>
      match examine answer w peer i with
      | .error e => .error e
      | .ok (w', next) => peerPass answer fuel w' next

/-- The result of a check: the master, and for each pass the ids it has looked at
and the ids that were left in the list. -/
structure Checked where
  master : NetCommunicatorMaster
  passes : List (List ℕ × List ℕ) := []

/-- Pass over the list until no peer is accepted in a pass. -/
def repeatPasses (answer : ℕ → VettingResult) : ℕ → Checked → ℕ → Except Fault Checked
  | 0, _, _ => .error .outOfFuel
  | fuel + 1, c, asked =>
    match peerPass answer (c.master.peers.length + 1) { master := c.master, asked := asked } 0 with
    | .error e => .error e
    | .ok w =>
      let c' : Checked :=
        { master := w.master
          passes := c.passes ++ [(w.examined, w.master.peers.map CommPeer.sendId)] }
      if w.anychanges then repeatPasses answer fuel c' w.asked else .ok c'

/-- What a check meets: the configuration events, and the client's answers in the
order in which it is asked. -/
structure CheckInput where
  events : List ConfigEvent
  answer : ℕ → VettingResult

/-- Planned changes and configuration messages, before the peers are looked at. -/
def receiveConfigs (m : NetCommunicatorMaster) (c : CheckInput) : NetCommunicatorMaster :=
  c.events.foldl receiveOne (m.applyChanges m.peerChanges)

/-- The check in each cycle. -/
def checkAndUpdatePeerStates (m : NetCommunicatorMaster) (c : CheckInput) :
    Except Fault Checked :=
  let m' := m.receiveConfigs c
  repeatPasses c.answer (m'.peers.length + 1) { master := m' } 0

end NetCommunicatorMaster

open NetCommunicatorMaster

/-- What happens to the administration: a connection opens, the exchange of
messages leaves the cycle counter at `messageCycle`, or the check runs. -/
inductive MasterInput
  | opened
  | cycle (messageCycle : ℕ)
  | check (input : CheckInput)

/-- One step of the administration. -/
def masterStep (m : NetCommunicatorMaster) : MasterInput → Except Fault NetCommunicatorMaster
  | .opened => .ok m.assignPeerId
  | .cycle messageCycle => .ok { m with net := { m.net with messageCycle := messageCycle } }
  | .check input =>
    match m.checkAndUpdatePeerStates input with
    | .error e => .error e
    | .ok c => .ok c.master

end Dueca.Net
