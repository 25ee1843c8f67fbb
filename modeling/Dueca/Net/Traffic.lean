import Dueca.Net.Master

/-!
# Messages between master and peers

In each cycle the master sends a message, each peer sends one when it has heard
the node it follows, and every node passes the payloads on to its client. This
module joins the communicators of one master and any number of peers to a network.
All datagrams ever sent stay in the air, and any of them may arrive anywhere at
any time, again and again or never, so that loss, delay and duplication are all
covered. Configuration messages arrive in order.

A disabled step leaves the network as it is: a datagram that was never sent does
not arrive, and the master sends only between two of its checks.

`NodeRecord`, `answered` and `moves` record what a node has packed and passed on,
who answered the master, and the cycles it has completed. The source has no such
record, and nothing in the model reads it.
-/

namespace Dueca.Net

open NetCommunicatorMaster

/-- What a node has packed, by cycle, and what it has passed on for unpacking, by
sender and cycle; oldest first. -/
structure NodeRecord where
  packed : List (ℕ × List UInt8) := []
  passed : List (ℕ × ℕ × List UInt8) := []
  deriving DecidableEq, Repr

/-- Send a message when it is this node's turn. -/
def sendMessage (n : NetCommunicator) (r : NodeRecord) (payload : List UInt8) :
    Except Fault (NetCommunicator × NodeRecord × Datagram) :=
  match codeAndSendUDPMessage n payload with
  | .error e => .error e
  | .ok (n', d) =>
    let r' := if n.sendstate = .normal then
        { r with packed := r.packed ++ [(cycleBase n.messageCycle, payload)] }
      else r
    .ok (n', r', d)

/-- Pass on the payload if it is the next one from its sender. A sender that is not
tracked is entered when `enter` holds. -/
def unpackPayload (n : NetCommunicator) (r : NodeRecord) (d : Datagram) (enter : Bool) :
    NetCommunicator × NodeRecord :=
  let taken := (n.track d.peerId d.cycle,
    { r with passed := r.passed ++ [(d.peerId, cycleBase d.cycle, d.payload)] })
  match n.cycleOf d.peerId with
  | none => if enter then taken else (n, r)
  | some c => if cycleIsNext c d.cycle then taken else (n, r)

/-- Where the master is in its cycle. -/
inductive Phase | idle | receiving | checkup
  deriving DecidableEq, Repr

/-- The master, with the senders of the replies it has counted in this cycle, and
for each cycle it completed those senders and the active peers. -/
structure MasterNode where
  admin : NetCommunicatorMaster := {}
  phase : Phase := .idle
  nreceived : ℕ := 0
  triggerRecover : Bool := false
  record : NodeRecord := {}
  answered : List ℕ := []
  moves : List (List ℕ × List ℕ) := []
  deriving DecidableEq, Repr

/-- The ids of the active peers. -/
def NetCommunicatorMaster.activeIds (m : NetCommunicatorMaster) : List ℕ :=
  (m.peers.filter fun p => p.state == .active).map CommPeer.sendId

namespace MasterNode

/-- Change the communicator of the master. -/
def setNet (w : MasterNode) (n : NetCommunicator) : MasterNode :=
  { w with admin := { w.admin with net := n } }

/-- All replies are in, or recovery was asked for: the counters and the send state
for the next cycle. -/
def finish (w : MasterNode) : Except Fault MasterNode :=
  let n := w.admin.net.dropStale w.admin.net.messageCycle
  let next := cycleIncrement n.messageCycle 1
  let moved := { w with
    phase := .checkup, moves := w.moves ++ [(w.answered, w.admin.activeIds)] }
  if w.triggerRecover then
    if n.sendstate = .recover then .error .assertion
    else .ok ({ w with phase := .checkup }.setNet
      { n with messageCycle := cycleBack n.messageCycle, sendstate := .recover })
  else if n.sendstate = .recover then
    .ok (moved.setNet { n with messageCycle := next, sendstate := .stasis })
  else .ok (moved.setNet { n with messageCycle := next, sendstate := .normal, errorbit := false })

/-- The start of a cycle: send, or keep up the counters when there are no peers. -/
def begin (w : MasterNode) (payload : List UInt8) :
    Except Fault (MasterNode × List Datagram) :=
  let n := w.admin.net
  let w' := { w with nreceived := 0, triggerRecover := false, answered := [] }
  if n.npeers = 0 then
    match (w'.setNet { n with packedCycle := n.messageCycle }).finish with
    | .error e => .error e
    | .ok done => .ok (done, [])
  else
    match sendMessage n w.record payload with
    | .error e => .error e
    | .ok (n', r', d) => .ok ({ w' with record := r', phase := .receiving }.setNet n', [d])

/-- Take in a datagram. Only exact replies to the current message are counted. -/
def unpackPeerData (w : MasterNode) (d : Datagram) : MasterNode :=
  if d.peerId = 0 then w
  else
    let n := w.admin.net
    let (n', r') := unpackPayload n w.record d (d.cycle == n.messageCycle)
    let w' := { w with record := r' }.setNet n'
    if d.cycle = n.messageCycle then
      { w' with
        nreceived := w.nreceived + 1
        answered := w.answered ++ [d.peerId]
        triggerRecover :=
          if d.errorflag && n.sendstate != SendState.recover then
            decide (0 < n.backupSendBuffer.fill)
          else w.triggerRecover }
    else w'

/-- Wait for one datagram. -/
def receive (w : MasterNode) (d : Datagram) : Except Fault MasterNode :=
  let w' := w.unpackPeerData d
  if w'.triggerRecover || w'.admin.net.npeers ≤ w'.nreceived then w'.finish else .ok w'

/-- No datagram arrives in time: the current message is to be repeated. -/
def timeout (w : MasterNode) : MasterNode :=
  let n := w.admin.net
  { w with phase := .checkup }.setNet
    { n with
      sendstate := if n.sendstate = SendState.recover then SendState.recover else SendState.stasis
      messageCycle := cycleRepeatIncrement n.messageCycle }

end MasterNode

/-- A peer. `followChanges` are the planned changes of the node to follow, with
their cycles; `configRead` counts the configuration messages taken in. -/
structure PeerNode where
  net : NetCommunicator := {}
  followId : ℕ := 0xffff
  followChanges : List (ℕ × ℕ) := []
  connection : Bool := false
  trackingudpcycle : Bool := false
  configRead : ℕ := 0
  record : NodeRecord := {}
  deriving DecidableEq, Repr

namespace PeerNode

/-- One command of a configuration message. -/
def decodeConfig (b : PeerNode) : UDPPeerConfig → PeerNode
  | .hookUp peerId targetCycle =>
    if b.net.messageCycle < targetCycle then
      { b with followChanges := b.followChanges ++ [(peerId, targetCycle)] }
    else { b with followId := peerId }
  | .configurePeer peerId => { b with net := { b.net with peerId := peerId } }
  | .peerInfo joinCycle =>
    { b with
      net := { b.net with
        messageCycle := joinCycle
        currentSendBuffer := { messageCycle := minus32 joinCycle 0x10 }
        backupSendBuffer := {} } }
  | .initialConfComplete => { b with connection := true }
  -- the cycle after which this peer leaves; it may leave at any time here
  | .deletePeer _ _ => b

/-- One configuration message. -/
def decodeConfigData (b : PeerNode) (configs : List UDPPeerConfig) : PeerNode :=
  let b' := configs.foldl decodeConfig b
  { b' with configRead := b.configRead + 1 }

/-- The state in which the peer answers the master's message: a new message, the
last one again, or the one before. -/
def chooseState (n : NetCommunicator) : SendState :=
  if cycleIsNext n.packedCycle n.messageCycle then .normal
  else if cycleIsCurrent n.packedCycle n.messageCycle then .stasis
  else if cycleIsPrevious n.packedCycle n.messageCycle then .recover
  else n.sendstate

/-- A message of the master while the peer is in the cycle: see whether all messages
of the previous cycle came in, and follow the master's cycle. -/
def countReplies (n : NetCommunicator) (d : Datagram) : NetCommunicator :=
  let nreceived := n.upToDate d.cycle
  let n' := if nreceived = n.npeers then n.dropStale d.cycle else n
  let n'' := { n' with errorbit := nreceived < n.npeers, messageCycle := d.cycle }
  { n'' with sendstate := chooseState n'', npeers := d.npeers }

/-- The first message of the master that the peer answers. -/
def enterCycle (b : PeerNode) (d : Datagram) : PeerNode :=
  { b with
    trackingudpcycle := true
    net := { b.net with
      messageCycle := d.cycle
      packedCycle := minus32 d.cycle 0x10
      sendstate := .normal
      errorbit := false
      npeers := d.npeers } }

/-- The planned changes of the node to follow that are due. -/
def changeFollow (b : PeerNode) : List (ℕ × ℕ) → PeerNode
  | [] => { b with followChanges := [] }
  | change :: rest =>
    if change.2 ≤ b.net.messageCycle then { b with followId := change.1 }.changeFollow rest
    else { b with followChanges := change :: rest }

/-- A message of the master. -/
def followMaster (b : PeerNode) (d : Datagram) : PeerNode :=
  let b' := if b.trackingudpcycle then { b with net := countReplies b.net d }
    else if cycleIsCurrent b.net.messageCycle d.cycle then b.enterCycle d
    else b
  b'.changeFollow b'.followChanges

/-- Take in a datagram, and tell whether it is this peer's turn to send. -/
def unpackPeerData (b : PeerNode) (d : Datagram) : PeerNode × Bool :=
  if !b.connection || d.peerId == b.net.peerId then (b, false)
  else
    let b' := if d.peerId = 0 then b.followMaster d else b
    if b'.trackingudpcycle then
      let (n', r') := unpackPayload b'.net b'.record d true
      ({ b' with net := n', record := r' },
        d.peerId == b'.followId && b'.net.messageCycle == d.cycle)
    else (b', false)

/-- Wait for one datagram, and send if it is this peer's turn. -/
def receive (b : PeerNode) (d : Datagram) (payload : List UInt8) :
    Except Fault (PeerNode × List Datagram) :=
  let (b', myturntosend) := b.unpackPeerData d
  if myturntosend then
    match sendMessage b'.net b'.record payload with
    | .error e => .error e
    | .ok (n', r', sent) => .ok ({ b' with net := n', record := r' }, [sent])
  else .ok (b', [])

end PeerNode

/-- A network: the master, the peers by their ids, and the datagrams sent so far. -/
structure Network where
  master : MasterNode := {}
  peers : ℕ → Option PeerNode := fun _ => none
  air : List Datagram := []

/-- The configuration messages the master has sent to a peer. -/
def Network.configsFor (s : Network) (i : ℕ) : List SentConfig :=
  s.master.admin.sent.filter fun c => c.target == i

/-- The steps of a network. A peer leaves for good; when it connects again it gets
another id. -/
inductive NetInput
  | opened
  | begin (payload : List UInt8)
  | masterReceive (d : Datagram)
  | timeout
  | check (c : CheckInput)
  | config (i : ℕ)
  | peerReceive (i : ℕ) (d : Datagram) (payload : List UInt8)
  | leave (i : ℕ)

/-- One step of the network. -/
def netStep (s : Network) : NetInput → Except Fault Network
  | .opened =>
    .ok { s with master := { s.master with admin := s.master.admin.assignPeerId } }
  | .begin payload =>
    if s.master.phase = .idle then
      match s.master.begin payload with
      | .error e => .error e
      | .ok (w, sent) => .ok { s with master := w, air := s.air ++ sent }
    else .ok s
  | .masterReceive d =>
    if s.master.phase = .receiving ∧ d ∈ s.air then
      match s.master.receive d with
      | .error e => .error e
      | .ok w => .ok { s with master := w }
    else .ok s
  | .timeout =>
    if s.master.phase = .receiving then .ok { s with master := s.master.timeout } else .ok s
  | .check c =>
    if s.master.phase = .checkup then
      match s.master.admin.checkAndUpdatePeerStates c with
      | .error e => .error e
      | .ok c' => .ok { s with master := { s.master with admin := c'.master, phase := .idle } }
    else .ok s
  | .config i =>
    let b := (s.peers i).getD {}
    match (s.configsFor i)[b.configRead]? with
    | none => .ok s
    | some c => .ok { s with peers := Function.update s.peers i (b.decodeConfigData c.configs) }
  | .peerReceive i d payload =>
    match s.peers i with
    | none => .ok s
    | some b =>
      if d ∈ s.air then
        match b.receive d payload with
        | .error e => .error e
        | .ok (b', sent) =>
          .ok { s with peers := Function.update s.peers i b', air := s.air ++ sent }
      else .ok s
  | .leave i =>
    match s.peers i with
    | none => .ok s
    | some b =>
      .ok { s with
        peers := Function.update s.peers i (some { b with connection := false }) }

end Dueca.Net
