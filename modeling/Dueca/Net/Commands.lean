import Dueca.Net.Fragments

/-!
# The commands of the network master and its peers

Here are the commands that the network master and its peers understand, as they are encoded, and
what becomes of them when they arrive in pieces. Payloads are packed and read by a client. Its
decoder is a parameter; it is only known to read a whole payload.
-/

namespace Dueca.Net.Wire

open Dueca.Lib
open Dueca.Dco (Bytes StoreFault unPackNat unPackNat_bigEndian)

/-- The payloads of a client: how they are packed, and how they are read when they are whole. -/
structure Payload (P : Type) where
  good : P → Prop
  encode : P → Bytes
  read : Bytes → Except StoreFault (P × Bytes)
  whole : Whole read
  read_encode : ∀ p rest, good p → read (encode p ++ rest) = .ok (p, rest)

section Commands

variable {P : Type} (payload : Payload P)

def Payload.reader : StoreReader P := .ofWhole payload.read payload.whole

/-- As `peerBody`, with all bodies guarded, and payloads read when they are whole. -/
def peerWhole (cmd : UDPPeerConfig) : Body P :=
  match cmd.mtype with
  | .configurePeer =>
    .guarded ((StoreReader.ofWhole _ UDPPeerInfo.unpack_whole).map (.configurePeer cmd.peerId))
  | .clientPayload => .guarded (payload.reader.map .clientPayload)
  | .initialConfComplete => .complete
  | _ => .nothing

def masterWhole : UDPPeerConfig → Body P := masterBody payload.reader

/-- How what has been processed was encoded. -/
def encode : Processed P → Bytes
  | .config cmd => cmd.packData
  | .configurePeer peerId pi => (UDPPeerConfig.mk .configurePeer peerId 0).packData ++ pi.packData
  | .peerIdOnly peerId => (UDPPeerConfig.mk .configurePeer peerId 0).packData
  | .clientPayload p => (UDPPeerConfig.mk .clientPayload 0 0).packData ++ payload.encode p
  | .duecaVersion v => (UDPPeerConfig.mk .duecaVersion 0 0).packData ++ v.packData

/-- The commands that a peer understands, with what stands behind them. -/
def PeerGood : Processed P → Prop
  | .config cmd => cmd.Good ∧ cmd.mtype ≠ .configurePeer ∧ cmd.mtype ≠ .clientPayload
  | .configurePeer peerId pi => peerId < 2 ^ 16 ∧ pi.Good
  | .clientPayload p => payload.good p
  | .peerIdOnly _ | .duecaVersion _ => False

/-- The commands that the master understands. -/
def MasterGood : Processed P → Prop
  | .config cmd => cmd.Good ∧ cmd.mtype ≠ .clientPayload ∧ cmd.mtype ≠ .duecaVersion
  | .clientPayload p => payload.good p
  | .duecaVersion v => v.Good
  | .configurePeer _ _ | .peerIdOnly _ => False

variable {payload}

theorem Whole.map {α β : Type} {f : α → β} {r : StoreReader α} (h : Whole r.read) :
    Whole (r.map f).read := by
  have hbind := h.bind (f := fun x => .ok (f x.1, x.2)) fun a => .pure (f a)
  have hsame : (r.map f).read = fun s => r.read s >>= fun x => .ok (f x.1, x.2) := by
    funext s
    show (r.read s).map _ = r.read s >>= _
    cases r.read s <;> rfl
  rw [hsame]
  exact hbind

theorem guarded_peerWhole : Guarded (peerWhole payload) := by
  intro cmd
  unfold peerWhole
  cases cmd.mtype with
  | configurePeer => exact Whole.map UDPPeerInfo.unpack_whole
  | clientPayload => exact Whole.map payload.whole
  | hookUp | deletePeer | initialConfComplete | duecaVersion | undefined | unnamed => trivial

theorem guarded_masterWhole : Guarded (masterWhole payload) := by
  intro cmd
  unfold masterWhole masterBody
  cases cmd.mtype with
  | clientPayload => exact Whole.map payload.whole
  | duecaVersion => exact Whole.map Version.unpack_whole
  | hookUp | deletePeer | initialConfComplete | configurePeer | undefined | unnamed => trivial

/-! ### What is encoded is read -/

theorem readWhole {α β : Type} {r : Bytes → Except StoreFault (α × Bytes)} (h : Whole r) (f : α → β)
    {s rest : Bytes} {a : α} (hr : r s = .ok (a, rest)) :
    ((StoreReader.ofWhole r h).map f).read s = .ok (f a, rest) :=
  map_eq_ok.mpr ⟨a, hr, rfl⟩

/-- A command alone. -/
theorem nextCommand_config {I : UDPPeerConfig → Body P} {cmd : UDPPeerConfig} (h : cmd.Good)
    (hI : I cmd = .nothing ∨ I cmd = .complete) (rest : Bytes) :
    nextCommand I (cmd.packData ++ rest) = some (.config cmd, rest) := by
  have hcmd := UDPPeerConfig.unpack_packData h rest
  rcases hI with hbody | hbody
  · exact nextCommand_nothing hcmd hbody
  · exact nextCommand_complete hcmd hbody

/-- A command with a body. -/
theorem nextCommand_body {α : Type} {I : UDPPeerConfig → Body P} {cmd : UDPPeerConfig}
    {r : Bytes → Except StoreFault (α × Bytes)} {hr : Whole r} {f : α → Processed P}
    (h : cmd.Good) (hI : I cmd = .guarded ((StoreReader.ofWhole r hr).map f)) {body rest : Bytes}
    {a : α} (hread : r (body ++ rest) = .ok (a, rest)) :
    nextCommand I ((cmd.packData ++ body) ++ rest) = some (f a, rest) := by
  rw [List.append_assoc,
    nextCommand_guarded (UDPPeerConfig.unpack_packData h (body ++ rest)) hI,
    readWhole hr f hread]
  rfl

theorem good_configurePeer {peerId : ℕ} (h : peerId < 2 ^ 16) :
    (UDPPeerConfig.mk .configurePeer peerId 0).Good :=
  ⟨trivial, ⟨h, nofun⟩, Nat.two_pow_pos 32, fun _ => rfl⟩

theorem good_clientPayload : (UDPPeerConfig.mk .clientPayload 0 0).Good :=
  ⟨trivial, ⟨by decide, fun _ => rfl⟩, by decide, fun _ => rfl⟩

theorem good_duecaVersion : (UDPPeerConfig.mk .duecaVersion 0 0).Good :=
  ⟨trivial, ⟨by decide, fun _ => rfl⟩, by decide, fun _ => rfl⟩

theorem peerWhole_encode {e : Processed P} (h : PeerGood payload e) (rest : Bytes) :
    nextCommand (peerWhole payload) (encode payload e ++ rest) = some (e, rest) := by
  cases e with
  | config cmd =>
    obtain ⟨hgood, hconfigure, hpayload⟩ := h
    refine nextCommand_config hgood ?_ rest
    unfold peerWhole
    cases hmtype : cmd.mtype with
    | configurePeer => exact absurd hmtype hconfigure
    | clientPayload => exact absurd hmtype hpayload
    | initialConfComplete => exact .inr rfl
    | hookUp | deletePeer | duecaVersion | undefined | unnamed => exact .inl rfl
  | configurePeer peerId pi =>
    exact nextCommand_body (good_configurePeer h.1) rfl (UDPPeerInfo.unpack_packData h.2 rest)
  | clientPayload p =>
    exact nextCommand_body good_clientPayload rfl (payload.read_encode p rest h)
  | peerIdOnly | duecaVersion => exact h.elim

theorem masterWhole_encode {e : Processed P} (h : MasterGood payload e) (rest : Bytes) :
    nextCommand (masterWhole payload) (encode payload e ++ rest) = some (e, rest) := by
  cases e with
  | config cmd =>
    obtain ⟨hgood, hpayload, hversion⟩ := h
    refine nextCommand_config hgood (.inl ?_) rest
    unfold masterWhole masterBody
    cases hmtype : cmd.mtype with
    | clientPayload => exact absurd hmtype hpayload
    | duecaVersion => exact absurd hmtype hversion
    | hookUp | deletePeer | configurePeer | initialConfComplete | undefined | unnamed => rfl
  | clientPayload p =>
    exact nextCommand_body good_clientPayload rfl (payload.read_encode p rest h)
  | duecaVersion v => exact nextCommand_body good_duecaVersion rfl (Version.unpack_packData h rest)
  | configurePeer | peerIdOnly => exact h.elim

variable (payload)

/-- The commands that a peer understands. -/
def peerFraming : Framing (Processed P) UInt8 where
  good := PeerGood payload
  encode := encode payload
  next := nextCommand (peerWhole payload)
  next_encode _ rest h := peerWhole_encode h rest
  next_append _ y _ _ h := nextCommand_append guarded_peerWhole h y
  next_length _ _ _ h := nextCommand_length guarded_peerWhole h
  next_nil := nextCommand_nil

/-- The commands that the master understands. -/
def masterFraming : Framing (Processed P) UInt8 where
  good := MasterGood payload
  encode := encode payload
  next := nextCommand (masterWhole payload)
  next_encode _ rest h := masterWhole_encode h rest
  next_append _ y _ _ h := nextCommand_append guarded_masterWhole h y
  next_length _ _ _ h := nextCommand_length guarded_masterWhole h
  next_nil := nextCommand_nil

/-- Only the information for a peer is not guarded. -/
def isConfigurePeer : Processed P → Bool
  | .configurePeer _ _ => true
  | _ => false

variable {payload} {client : StoreReader P}

/-- A decoder that reads whole payloads, and perhaps more. -/
def ReadsWhole (payload : Payload P) (client : StoreReader P) : Prop :=
  ∀ s p rest, payload.read s = .ok (p, rest) → client.read s = .ok (p, rest)

theorem fits_clientPayload {F : Framing (Processed P) UInt8} {weak : Processed P → Bool}
    (hclient : ReadsWhole payload client) (hweak : ∀ p, weak (.clientPayload p) = false)
    (cmd : UDPPeerConfig) :
    BodyFits F weak cmd (.guarded (payload.reader.map .clientPayload))
      (.guarded (client.map .clientPayload)) := by
  refine .guarded fun s x hx => ?_
  obtain ⟨p, hp, hpx⟩ := map_eq_ok.mp hx
  exact ⟨map_eq_ok.mpr ⟨p, hclient s p x.2 hp, hpx⟩, hpx ▸ hweak p⟩

theorem peerBody_fits (hclient : ReadsWhole payload client) (cmd : UDPPeerConfig) :
    BodyFits (peerFraming payload) isConfigurePeer cmd (peerWhole payload cmd)
      (peerBody client cmd) := by
  unfold peerWhole peerBody
  cases cmd.mtype with
  | configurePeer =>
    refine .unguarded id fun s x hx => ?_
    obtain ⟨pi, hpi, hpx⟩ := map_eq_ok.mp hx
    exact ⟨hpx ▸ rfl, UDPPeerInfo.unpack_whole.shorter ⟨.empty, trivial, rfl⟩ hpi⟩
  | clientPayload => exact fits_clientPayload hclient (fun _ => rfl) cmd
  | initialConfComplete => exact .complete
  | hookUp | deletePeer | duecaVersion | undefined | unnamed => exact .nothing rfl

theorem masterBody_fits (hclient : ReadsWhole payload client) (cmd : UDPPeerConfig) :
    BodyFits (masterFraming payload) (fun _ => false) cmd (masterWhole payload cmd)
      (masterBody client cmd) := by
  unfold masterWhole masterBody
  cases cmd.mtype with
  | clientPayload => exact fits_clientPayload hclient (fun _ => rfl) cmd
  | duecaVersion => exact .guarded fun s x hx => ⟨hx, rfl⟩
  | hookUp | deletePeer | configurePeer | initialConfComplete | undefined | unnamed =>
    exact .nothing rfl

/-- Encoded commands in pieces: after each call the master and a peer have processed exactly the
first commands and kept exactly the rest of the bytes, if and only if no call is cut short. -/
theorem configData_exactly_iff (hclient : ReadsWhole payload client) (fails : Processed P → Bool)
    (cmds : List (Processed P)) (pieces : List Bytes) :
    ((∀ c ∈ cmds, MasterGood payload c) → pieces.flatten = cmds.flatMap (encode payload) →
      ((∀ early late, pieces = early ++ late →
        Exactly (masterFraming payload) cmds late.flatten
          (Receiver.receiveAll (masterBody client) fails early)) ↔
        ∀ early piece late, pieces = early ++ piece :: late →
          ¬CallCutShort (masterBody client) (masterWhole payload) fails (fun _ => false) early
            piece)) ∧
      ((∀ c ∈ cmds, PeerGood payload c) → pieces.flatten = cmds.flatMap (encode payload) →
        ((∀ early late, pieces = early ++ late →
          Exactly (peerFraming payload) cmds late.flatten
            (Receiver.receiveAll (peerBody client) fails early)) ↔
          ∀ early piece late, pieces = early ++ piece :: late →
            ¬CallCutShort (peerBody client) (peerWhole payload) fails isConfigurePeer early
              piece)) :=
  ⟨fun hgood hpieces =>
    exactly_iff guarded_masterWhole rfl (masterBody_fits hclient) hgood hpieces,
    fun hgood hpieces =>
      exactly_iff guarded_peerWhole rfl (peerBody_fits hclient) hgood hpieces⟩

end Commands

/-! ### The payload for a node -/

/-- What the master of a network sends for a node. -/
structure DuecaNetConfig where
  sendOrder : ℕ
  groupMagic : ℕ
  fillMaximum : Option ℕ
  deriving DecidableEq, Repr

namespace DuecaNetConfig

/-- As `clientWelcomeConfig` packs it. -/
def packData (p : DuecaNetConfig) : Bytes :=
  bigEndian 4 p.sendOrder ++ (bigEndian 4 p.groupMagic ++ bigEndian 4 (p.fillMaximum.getD 0))

def Good (p : DuecaNetConfig) : Prop :=
  p.sendOrder < 2 ^ 32 ∧ p.groupMagic < 2 ^ 32 ∧ ∃ fill < 2 ^ 32, p.fillMaximum = some fill

/-- The payload with its three numbers. -/
def readWhole (s : Bytes) : Except StoreFault (DuecaNetConfig × Bytes) := do
  let (order, s) ← unPackNat 4 s
  let (magic, s) ← unPackNat 4 s
  let (fill, s) ← unPackNat 4 s
  return (⟨order, magic, some fill⟩, s)

/-- `DuecaNetPeer::clientDecodeConfig`: when the last number cannot be read, there is none. -/
def clientDecodeConfig (s : Bytes) : Except StoreFault (DuecaNetConfig × Bytes) := do
  let (order, s) ← unPackNat 4 s
  let (magic, s) ← unPackNat 4 s
  match unPackNat 4 s with
  | .ok (fill, s) => return (⟨order, magic, some fill⟩, s)
  | .error _ => return (⟨order, magic, none⟩, s)

theorem readWhole_packData (p : DuecaNetConfig) (rest : Bytes) (h : p.Good) :
    readWhole (p.packData ++ rest) = .ok (p, rest) := by
  obtain ⟨horder, hmagic, fill, hlt, hfill⟩ := h
  unfold readWhole packData
  simp only [List.append_assoc, hfill, Option.getD_some,
    unPackNat_bigEndian (show p.sendOrder < 256 ^ 4 from horder),
    unPackNat_bigEndian (show p.groupMagic < 256 ^ 4 from hmagic),
    unPackNat_bigEndian (show fill < 256 ^ 4 from hlt), bind, Except.bind]
  rw [← hfill]
  rfl

def payload : Payload DuecaNetConfig where
  good := Good
  encode := packData
  read := readWhole
  whole := (unPackNat_whole 4).bind fun _ => (unPackNat_whole 4).bind fun _ =>
    (unPackNat_whole 4).bind fun _ => .pure _
  read_encode := readWhole_packData

theorem clientDecodeConfig_suffix {s rest : Bytes} {p : DuecaNetConfig}
    (h : clientDecodeConfig s = .ok (p, rest)) : rest <:+ s := by
  unfold clientDecodeConfig at h
  obtain ⟨⟨order, s₁⟩, horder, h⟩ := bind_eq_ok.mp h
  obtain ⟨⟨magic, s₂⟩, hmagic, h⟩ := bind_eq_ok.mp h
  have hs₂ := (suffix_of_whole (unPackNat_whole 4) hmagic).trans
    (suffix_of_whole (unPackNat_whole 4) horder)
  dsimp only at h
  cases hfill : unPackNat 4 s₂ with
  | ok x =>
    rw [hfill] at h
    cases h
    exact (suffix_of_whole (unPackNat_whole 4) hfill).trans hs₂
  | error f =>
    rw [hfill] at h
    cases h
    exact hs₂

def client : StoreReader DuecaNetConfig := ⟨clientDecodeConfig, fun _ _ _ => clientDecodeConfig_suffix⟩

theorem readsWhole : ReadsWhole payload client := by
  intro s p rest h
  obtain ⟨⟨order, s₁⟩, horder, h⟩ := bind_eq_ok.mp h
  obtain ⟨⟨magic, s₂⟩, hmagic, h⟩ := bind_eq_ok.mp h
  obtain ⟨⟨fill, s₃⟩, hfill, h⟩ := bind_eq_ok.mp h
  cases h
  show clientDecodeConfig s = _
  simp only [clientDecodeConfig, horder, hmagic, hfill, bind, Except.bind]
  rfl

end DuecaNetConfig

/-- What a peer is sent when it joins. -/
def joining : List (Processed DuecaNetConfig) :=
  [.config ⟨.hookUp, 1, 0x70⟩,
    .configurePeer 2 ⟨[117, 100, 112], [], 2048, 0x70, 0x3f1a36e2eb1c432d#64, 100⟩,
    .clientPayload ⟨2, 7, some 1024⟩, .config ⟨.initialConfComplete, 0, 0⟩]

def joiningBytes : Bytes := joining.flatMap (encode DuecaNetConfig.payload)

theorem good_joining : ∀ c ∈ joining, PeerGood DuecaNetConfig.payload c := by
  simp only [joining, List.forall_mem_cons, List.not_mem_nil, false_implies, implies_true, and_true]
  refine ⟨⟨⟨trivial, by decide, by decide⟩, by decide, by decide⟩, ⟨by decide, ?_⟩, ?_,
    ⟨⟨trivial, by decide, by decide⟩, by decide, by decide⟩⟩
  · constructor <;> decide
  · exact ⟨by decide, by decide, 1024, by decide, rfl⟩

/-- The first call ends behind the type of the second command, the second one at the end. -/
theorem exactly_joining :
    Exactly (peerFraming DuecaNetConfig.payload) joining [joiningBytes.drop 8].flatten
        (Receiver.receiveAll (peerBody DuecaNetConfig.client) (fun _ => false)
          [joiningBytes.take 8]) ∧
      Exactly (peerFraming DuecaNetConfig.payload) joining [].flatten
        (Receiver.receiveAll (peerBody DuecaNetConfig.client) (fun _ => false)
          [joiningBytes.take 8, joiningBytes.drop 8]) := by
  have hexact := ((configData_exactly_iff DuecaNetConfig.readsWhole (fun _ => false) joining
    [joiningBytes.take 8, joiningBytes.drop 8]).2 good_joining ?_).mpr ?_
  · exact ⟨hexact _ _ rfl, hexact _ [] rfl⟩
  · show joiningBytes.take 8 ++ (joiningBytes.drop 8 ++ []) = joiningBytes
    rw [List.append_nil, List.take_append_drop]
  · rintro early piece late heq ⟨-, hcomplete, kept, hkept, hcut⟩
    rcases early with _ | ⟨first, _ | ⟨second, early⟩⟩
    · obtain ⟨rfl, -⟩ := List.cons.inj heq
      obtain rfl : kept = [2] := (Option.some.inj hkept).symm
      cases hcut
    · obtain ⟨rfl, hrest⟩ := List.cons.inj heq
      obtain ⟨rfl, -⟩ := List.cons.inj hrest
      cases hcomplete
    · have hlength := congrArg List.length heq
      simp only [List.length_append, List.length_cons, List.length_nil] at hlength
      omega

/-- The first call ends in the information for the peer. -/
theorem not_exactly_configurePeer :
    ¬∀ early late, [joiningBytes.take 15, joiningBytes.drop 15] = early ++ late →
      Exactly (peerFraming DuecaNetConfig.payload) joining late.flatten
        (Receiver.receiveAll (peerBody DuecaNetConfig.client) (fun _ => false) early) := by
  intro hall
  obtain ⟨left, -, hjoining, -⟩ := hall [joiningBytes.take 15] [joiningBytes.drop 15] rfl
  have hprocessed : (Receiver.receiveAll (peerBody DuecaNetConfig.client) (fun _ => false)
      [joiningBytes.take 15]).processed = [.config ⟨.hookUp, 1, 0x70⟩, .peerIdOnly 2] := by
    decide +kernel
  rw [hprocessed] at hjoining
  cases hjoining

end Dueca.Net.Wire
