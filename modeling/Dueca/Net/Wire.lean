import Dueca.Lib.Strict
import Dueca.Dco.Pack

/-!
# Configuration commands in bytes

A configuration command has its type in one byte. Three types have the id of a peer behind it, and
two of these a cycle. Behind some commands there is more: the information for a peer that is
configured, the payload of a client, or a version.
-/

namespace Dueca.Net.Wire

open Dueca.Lib
open Dueca.Dco (Bytes StoreFault takeBytes unPackNat unPackBits packBits packSize unPackString
  packString takeBytes_append unPackNat_bigEndian unPackBits_packBits unPackNat_packSize)

/-- A reader of a store that has run out. -/
abbrev Whole {α : Type} (r : Bytes → Except StoreFault (α × Bytes)) : Prop :=
  Strict (fun _ => True) r

/-! ### Numbers and strings -/

theorem takeBytes_whole (n : ℕ) : Whole (takeBytes n) := .take n trivial

theorem unPackNat_whole (k : ℕ) : Whole (unPackNat k) :=
  (takeBytes_whole k).bind fun bs => .pure (ofBigEndian bs)

theorem unPackBits_whole (k : ℕ) : Whole (unPackBits k) :=
  (unPackNat_whole k).bind fun n => .pure (BitVec.ofNat (8 * k) n)

theorem unPackString_whole : Whole unPackString :=
  (unPackNat_whole 4).bind fun l => takeBytes_whole l

/-! ### Commands -/

/-- `MessageType`, with the values that have no name. -/
inductive MessageType
  | hookUp | deletePeer | configurePeer | initialConfComplete | clientPayload | duecaVersion
  | undefined
  | unnamed (value : UInt8)
  deriving DecidableEq, Repr

namespace MessageType

def ofByte (b : UInt8) : MessageType :=
  match b.toNat with
  | 0 => hookUp
  | 1 => deletePeer
  | 2 => configurePeer
  | 3 => initialConfComplete
  | 4 => clientPayload
  | 5 => duecaVersion
  | 6 => undefined
  | _ => unnamed b

def toByte : MessageType → UInt8
  | hookUp => 0
  | deletePeer => 1
  | configurePeer => 2
  | initialConfComplete => 3
  | clientPayload => 4
  | duecaVersion => 5
  | undefined => 6
  | unnamed value => value

/-- `mtype <= ConfigurePeer`. -/
def hasPeerId (mtype : MessageType) : Bool := mtype.toByte ≤ 2

/-- `mtype <= DeletePeer`. -/
def hasTargetCycle (mtype : MessageType) : Bool := mtype.toByte ≤ 1

/-- A value without a name is none of those that have one. -/
def Good : MessageType → Prop
  | unnamed value => 6 < value.toNat
  | _ => True

theorem ofByte_toByte {mtype : MessageType} (h : mtype.Good) : ofByte mtype.toByte = mtype := by
  cases mtype with
  | unnamed value =>
    have hvalue : 6 < value.toNat := h
    simp only [toByte, ofByte]
    split <;> first | rfl | omega
  | hookUp | deletePeer | configurePeer | initialConfComplete | clientPayload | duecaVersion
  | undefined => rfl

end MessageType

open MessageType

/-- `UDPPeerConfig`. -/
structure UDPPeerConfig where
  mtype : MessageType := .undefined
  peerId : ℕ := 0
  targetCycle : ℕ := 0
  deriving DecidableEq, Repr

namespace UDPPeerConfig

def packData (cmd : UDPPeerConfig) : Bytes :=
  cmd.mtype.toByte :: ((if cmd.mtype.hasPeerId then bigEndian 2 cmd.peerId else []) ++
    if cmd.mtype.hasTargetCycle then bigEndian 4 cmd.targetCycle else [])

/-- A number that is only there for some types. -/
def unPackIf (present : Bool) (k : ℕ) (s : Bytes) : Except StoreFault (ℕ × Bytes) :=
  if present then unPackNat k s else .ok (0, s)

/-- The constructor from a store. -/
def unpack (s : Bytes) : Except StoreFault (UDPPeerConfig × Bytes) := do
  let (value, s) ← takeBytes 1 s
  let mtype := ofByte (value.headD 0)
  let (peerId, s) ← unPackIf mtype.hasPeerId 2 s
  let (targetCycle, s) ← unPackIf mtype.hasTargetCycle 4 s
  return (⟨mtype, peerId, targetCycle⟩, s)

/-- What is packed fits, and what is not packed has its default. -/
structure Good (cmd : UDPPeerConfig) : Prop where
  mtype : cmd.mtype.Good
  peerId : cmd.peerId < 2 ^ 16 ∧ (cmd.mtype.hasPeerId = false → cmd.peerId = 0)
  targetCycle : cmd.targetCycle < 2 ^ 32 ∧ (cmd.mtype.hasTargetCycle = false → cmd.targetCycle = 0)

theorem unPackIf_whole (present : Bool) (k : ℕ) : Whole (unPackIf present k) :=
  .ite (unPackNat_whole k) (.pure 0)

theorem unpack_whole : Whole unpack :=
  (takeBytes_whole 1).bind fun _ => (unPackIf_whole _ 2).bind fun _ =>
    (unPackIf_whole _ 4).bind fun _ => .pure _

theorem unPackIf_packed {present : Bool} {k n : ℕ} (hn : n < 256 ^ k)
    (habsent : present = false → n = 0) (rest : Bytes) :
    unPackIf present k ((if present then bigEndian k n else []) ++ rest) = .ok (n, rest) := by
  cases present with
  | true => exact unPackNat_bigEndian hn rest
  | false =>
    rw [habsent rfl]
    rfl

theorem unpack_packData {cmd : UDPPeerConfig} (h : cmd.Good) (rest : Bytes) :
    unpack (cmd.packData ++ rest) = .ok (cmd, rest) := by
  have hbyte : takeBytes 1 (cmd.packData ++ rest) = .ok ([cmd.mtype.toByte], _) :=
    takeBytes_append [cmd.mtype.toByte] _ rfl
  have hmtype : ofByte ([cmd.mtype.toByte].headD 0) = cmd.mtype := ofByte_toByte h.mtype
  unfold unpack
  rw [hbyte]
  show (unPackIf (ofByte ([cmd.mtype.toByte].headD 0)).hasPeerId 2 _ >>= _) = _
  rw [hmtype, List.append_eq, List.append_assoc, unPackIf_packed h.peerId.1 h.peerId.2]
  show (unPackIf cmd.mtype.hasTargetCycle 4 _ >>= _) = _
  rw [unPackIf_packed h.targetCycle.1 h.targetCycle.2]
  rfl

end UDPPeerConfig

/-! ### What stands behind a command -/

/-- `UDPPeerInfo`; strings are their bytes, and the time granule its bits. -/
structure UDPPeerInfo where
  url : Bytes
  peerIf : Bytes
  messageSize : ℕ
  joinCycle : ℕ
  timeGranule : BitVec (8 * 8)
  interval : ℕ
  deriving DecidableEq, Repr

namespace UDPPeerInfo

def packData (pi : UDPPeerInfo) : Bytes :=
  packString pi.url ++ (packString pi.peerIf ++ (bigEndian 4 pi.messageSize ++
    (bigEndian 4 pi.joinCycle ++ (packBits 8 pi.timeGranule ++ bigEndian 4 pi.interval))))

def unpack (s : Bytes) : Except StoreFault (UDPPeerInfo × Bytes) := do
  let (url, s) ← unPackString s
  let (peerIf, s) ← unPackString s
  let (messageSize, s) ← unPackNat 4 s
  let (joinCycle, s) ← unPackNat 4 s
  let (timeGranule, s) ← unPackBits 8 s
  let (interval, s) ← unPackNat 4 s
  return (⟨url, peerIf, messageSize, joinCycle, timeGranule, interval⟩, s)

/-- The strings and numbers fit. -/
structure Good (pi : UDPPeerInfo) : Prop where
  url : pi.url.length < 2 ^ 32
  peerIf : pi.peerIf.length < 2 ^ 32
  messageSize : pi.messageSize < 2 ^ 32
  joinCycle : pi.joinCycle < 2 ^ 32
  interval : pi.interval < 2 ^ 32

theorem unpack_whole : Whole unpack :=
  unPackString_whole.bind fun _ => unPackString_whole.bind fun _ =>
    (unPackNat_whole 4).bind fun _ => (unPackNat_whole 4).bind fun _ =>
      (unPackBits_whole 8).bind fun _ => (unPackNat_whole 4).bind fun _ => .pure _

theorem unPackString_packString {v : Bytes} (hv : v.length < 2 ^ 32) (rest : Bytes) :
    unPackString (packString v ++ rest) = .ok (v, rest) := by
  rw [packString, Nat.mod_eq_of_lt hv, List.take_length, List.append_assoc, unPackString,
    unPackNat_packSize hv]
  exact takeBytes_append v rest rfl

theorem unpack_packData {pi : UDPPeerInfo} (h : pi.Good) (rest : Bytes) :
    unpack (pi.packData ++ rest) = .ok (pi, rest) := by
  unfold unpack packData
  simp only [List.append_assoc, unPackString_packString h.url, unPackString_packString h.peerIf,
    unPackNat_bigEndian (show pi.messageSize < 256 ^ 4 from h.messageSize),
    unPackNat_bigEndian (show pi.joinCycle < 256 ^ 4 from h.joinCycle),
    unPackNat_bigEndian (show pi.interval < 256 ^ 4 from h.interval), unPackBits_packBits,
    bind, Except.bind]
  rfl

end UDPPeerInfo

/-- The three numbers of a version of the software. -/
structure Version where
  vmajor : ℕ
  vminor : ℕ
  revision : ℕ
  deriving DecidableEq, Repr

namespace Version

def packData (v : Version) : Bytes :=
  bigEndian 2 v.vmajor ++ (bigEndian 2 v.vminor ++ bigEndian 2 v.revision)

def unpack (s : Bytes) : Except StoreFault (Version × Bytes) := do
  let (vmajor, s) ← unPackNat 2 s
  let (vminor, s) ← unPackNat 2 s
  let (revision, s) ← unPackNat 2 s
  return (⟨vmajor, vminor, revision⟩, s)

def Good (v : Version) : Prop := v.vmajor < 2 ^ 16 ∧ v.vminor < 2 ^ 16 ∧ v.revision < 2 ^ 16

theorem unpack_whole : Whole unpack :=
  (unPackNat_whole 2).bind fun _ => (unPackNat_whole 2).bind fun _ =>
    (unPackNat_whole 2).bind fun _ => .pure _

theorem unpack_packData {v : Version} (h : v.Good) (rest : Bytes) :
    unpack (v.packData ++ rest) = .ok (v, rest) := by
  obtain ⟨hmajor, hminor, hrevision⟩ := h
  unfold unpack packData
  simp only [List.append_assoc,
    unPackNat_bigEndian (show v.vmajor < 256 ^ 2 from hmajor),
    unPackNat_bigEndian (show v.vminor < 256 ^ 2 from hminor),
    unPackNat_bigEndian (show v.revision < 256 ^ 2 from hrevision), bind, Except.bind]
  rfl

end Version

end Dueca.Net.Wire
