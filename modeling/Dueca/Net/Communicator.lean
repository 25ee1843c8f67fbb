import Dueca.Net.Cycle

/-!
# What master and peers of the network share

`NetCommunicator` is the base of the network master and of the network peers. It
numbers the message cycles, keeps the last two messages that were packed in two
buffers that change places, and sends one of them when it is this node's turn:
`codeAndSendUDPMessage` packs a new message in the normal state, repeats the last
one in stasis, and goes back to the one before in recovery. Its three tests on
the counters report a critical error for the whole node when they fail; the model
stops there.

Datagrams with a bad checksum or from another group of nodes are dropped on
arrival, and are not part of the model.
-/

namespace Dueca.Net

/-- Where a node stops: a critical error, the checksum over a buffer that was never
filled (its length wraps below zero), a failed assertion, or an iterator that is
moved beyond the end of its list. -/
inductive Fault | criticalError | unfilled | assertion | beyondEnd | outOfFuel
  deriving DecidableEq, Repr

/-- Size of the control block at the start of each message. -/
def controlSize : ℕ := 22

/-- What a node does when its turn to send comes. -/
inductive SendState | normal | stasis | recover | afterNormal
  deriving DecidableEq, Repr

/-- A send buffer; `fill` is zero until something is packed. -/
structure MessageBuffer where
  messageCycle : ℕ := 0
  fill : ℕ := 0
  payload : List UInt8 := []
  deriving DecidableEq, Repr

/-- A message as it travels: the control block and the payload. `peerField` holds
the sender's id in its low 15 bits and the error flag in bit 15. -/
structure Datagram where
  cycle : ℕ
  peerField : ℕ
  npeers : ℕ
  payload : List UInt8
  deriving DecidableEq, Repr

/-- The sender, as the control block is read. -/
def Datagram.peerId (d : Datagram) : ℕ := d.peerField % 2 ^ 15

/-- The request for recovery, as the control block is read. -/
def Datagram.errorflag (d : Datagram) : Bool := d.peerField / 2 ^ 15 % 2 == 1

/-- The state that master and peers have in common. `peerCycles` is the last
cycle received from each other node. -/
structure NetCommunicator where
  messageCycle : ℕ := 0x10
  packedCycle : ℕ := 0
  sendstate : SendState := .normal
  currentSendBuffer : MessageBuffer := {}
  backupSendBuffer : MessageBuffer := {}
  npeers : ℕ := 0
  errorbit : Bool := false
  peerCycles : List (ℕ × ℕ) := []
  peerId : ℕ := 0
  deriving DecidableEq, Repr

/-- `peer_id | 0x8000` when an error is to be flagged, in 16 bits. -/
def peerField (peerId : ℕ) (error : Bool) : ℕ :=
  peerId % 2 ^ 15 + 2 ^ 15 * (if error || peerId / 2 ^ 15 % 2 == 1 then 1 else 0)

/-- Writes the control block in front of a buffer's payload. -/
def writeControlBlock (n : NetCommunicator) (buffer : MessageBuffer) (error : Bool) :
    Datagram where
  cycle := n.messageCycle
  peerField := peerField n.peerId error
  npeers := n.npeers % 2 ^ 16
  payload := buffer.payload

/-- A buffer that is sent again: its control block is written anew. -/
def resend (n : NetCommunicator) (buffer : MessageBuffer) (error : Bool) :
    Except Fault (NetCommunicator × Datagram) :=
  if buffer.fill = 0 then .error .unfilled else .ok (n, writeControlBlock n buffer error)

/-- Pack and send, or send again; `packed` is what the client has to send. -/
def codeAndSendUDPMessage (n : NetCommunicator) (packed : List UInt8) :
    Except Fault (NetCommunicator × Datagram) :=
  match n.sendstate with
  | .normal =>
    if cycleIsNext n.packedCycle n.messageCycle then
      -- normal progress, the buffers change places
      let buffer : MessageBuffer :=
        { messageCycle := n.messageCycle, fill := controlSize + packed.length, payload := packed }
      let n' : NetCommunicator :=
        { n with
          currentSendBuffer := buffer, backupSendBuffer := n.currentSendBuffer,
          packedCycle := n.messageCycle, sendstate := .afterNormal }
      .ok (n', writeControlBlock n' buffer n.errorbit)
    else .error .criticalError
  | .recover =>
    if cycleIsCurrent n.messageCycle n.backupSendBuffer.messageCycle then
      resend n n.backupSendBuffer false
    else .error .criticalError
  | .afterNormal | .stasis =>
    if cycleIsCurrent n.messageCycle n.currentSendBuffer.messageCycle &&
        cycleIsCurrent n.messageCycle n.packedCycle then
      resend n n.currentSendBuffer n.errorbit
    else .error .criticalError

namespace NetCommunicator

/-- The last cycle received from a node, if it is tracked. -/
def cycleOf (n : NetCommunicator) (id : ℕ) : Option ℕ := n.peerCycles.lookup id

/-- `peer_cycles[id] = cycle`. -/
def track (n : NetCommunicator) (id cycle : ℕ) : NetCommunicator :=
  { n with peerCycles := (id, cycle) :: n.peerCycles.filter fun e => e.1 != id }

/-- The number of tracked nodes that are up to date for the master's cycle. -/
def upToDate (n : NetCommunicator) (mcycle : ℕ) : ℕ :=
  n.peerCycles.countP fun e => cycleIsUpToDate e.2 mcycle

/-- Remove the tracked nodes that no longer respond, if there are more of them than
peers. -/
def dropStale (n : NetCommunicator) (mcycle : ℕ) : NetCommunicator :=
  if n.npeers < n.peerCycles.length then
    { n with peerCycles := n.peerCycles.filter fun e => cycleIsUpToDate e.2 mcycle }
  else n

end NetCommunicator

end Dueca.Net
