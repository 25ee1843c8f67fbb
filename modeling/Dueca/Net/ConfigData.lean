import Dueca.Net.Wire

/-!
# Decoding of configuration data

Configuration data arrive in pieces. They are put in a `ConfigBuffer`, and `decodeConfigData` takes
commands from its front. When the store runs out in the middle of something, an exception ends the
decoding, and the buffer keeps the bytes from `storelevel` on. The network master and its peers have
the same loop; they differ in what stands behind the commands, and in what is done when that is not
all there.

Payloads are decoded by a client; that is a parameter. So is which commands end in an exception of
another kind, as the wrong time granule or a node that is not known: then the connection is over.
-/

namespace Dueca.Net.Wire

open Dueca.Lib
open Dueca.Dco (Bytes StoreFault)

/-! ### The buffer -/

/-- `ConfigBuffer`, with the bytes up to `filllevel`. -/
structure ConfigBuffer where
  buffer : Bytes := []
  cindex : ℕ := 0
  bufsize : ℕ := 1024
  index_le : cindex ≤ buffer.length := by decide
  fill_le : buffer.length ≤ bufsize := by decide
  bufsize_pos : 0 < bufsize := by decide

namespace ConfigBuffer

/-- `getStore`. -/
def unread (b : ConfigBuffer) : Bytes := b.buffer.drop b.cindex

theorem length_unread (b : ConfigBuffer) : b.unread.length = b.buffer.length - b.cindex :=
  List.length_drop ..

/-- The bytes do not fit, but would after those that have been read. -/
def Shifts (b : ConfigBuffer) (bytes : Bytes) : Prop :=
  0 < b.cindex ∧ bytes.length + b.buffer.length ≤ b.bufsize + b.cindex

instance (b : ConfigBuffer) (bytes : Bytes) : Decidable (b.Shifts bytes) :=
  inferInstanceAs (Decidable (_ ∧ _))

/-- A bigger buffer is big enough. -/
theorem enlarged_le (b : ConfigBuffer) (bytes : Bytes) :
    (b.unread ++ bytes).length ≤ b.bufsize * (2 + (bytes.length - 1) / b.bufsize) := by
  have hlt := Nat.lt_mul_div_succ (bytes.length - 1) b.bufsize_pos
  have hfill := b.fill_le
  rw [List.length_append, b.length_unread]
  rw [show 2 + (bytes.length - 1) / b.bufsize = 1 + ((bytes.length - 1) / b.bufsize + 1) by omega,
    Nat.mul_add, Nat.mul_one]
  omega

/-- `write`. -/
def write (b : ConfigBuffer) (bytes : Bytes) : ConfigBuffer :=
  if bytes.length = 0 then b
  else if hfull : b.bufsize < bytes.length + b.buffer.length then
    if hshift : b.Shifts bytes then
      { buffer := b.unread ++ bytes
        cindex := 0
        bufsize := b.bufsize
        index_le := Nat.zero_le _
        fill_le := by
          have hle := hshift.2
          have hindex := b.index_le
          rw [List.length_append, b.length_unread]
          omega
        bufsize_pos := b.bufsize_pos }
    else
      { buffer := b.unread ++ bytes
        cindex := 0
        bufsize := b.bufsize * (2 + (bytes.length - 1) / b.bufsize)
        index_le := Nat.zero_le _
        fill_le := b.enlarged_le bytes
        bufsize_pos := Nat.mul_pos b.bufsize_pos (Nat.add_pos_left (by decide) _) }
  else
    { b with
      buffer := b.buffer ++ bytes
      index_le := b.index_le.trans (by rw [List.length_append]; omega)
      fill_le := by rw [List.length_append]; omega }

/-- `saveForLater`, for a level within the store. -/
def saveForLater (b : ConfigBuffer) (level : ℕ) (h : level ≤ b.unread.length) : ConfigBuffer :=
  if b.cindex + level = b.buffer.length then
    { b with
      buffer := []
      cindex := 0
      index_le := Nat.le_refl _
      fill_le := Nat.zero_le _ }
  else
    { b with
      cindex := b.cindex + level
      index_le := by
        have hindex := b.index_le
        rw [b.length_unread] at h
        omega }

/-- No byte is lost when others arrive. -/
theorem unread_write (b : ConfigBuffer) (bytes : Bytes) :
    (b.write bytes).unread = b.unread ++ bytes := by
  unfold write
  split
  · rename_i hempty
    rw [List.length_eq_zero_iff.mp hempty, List.append_nil]
  · split
    · split <;> rfl
    · exact List.drop_append_of_le_length b.index_le

/-- What is behind the level is kept. -/
theorem unread_saveForLater (b : ConfigBuffer) {level : ℕ} (h : level ≤ b.unread.length) :
    (b.saveForLater level h).unread = b.unread.drop level := by
  unfold saveForLater unread
  rw [List.drop_drop]
  split
  · rename_i hall
    rw [hall, List.drop_length, List.drop_nil]
  · rfl

end ConfigBuffer

/-! ### Commands and what stands behind them -/

/-- A reader of a store; what it leaves is the end of the store. -/
structure StoreReader (α : Type) where
  read : Bytes → Except StoreFault (α × Bytes)
  suffix : ∀ s a rest, read s = .ok (a, rest) → rest <:+ s

theorem suffix_of_whole {α : Type} {r : Bytes → Except StoreFault (α × Bytes)} (h : Whole r)
    {s rest : Bytes} {a : α} (hr : r s = .ok (a, rest)) : rest <:+ s := by
  obtain ⟨used, rfl, -⟩ := h.ok s a rest hr
  exact List.suffix_append used rest

theorem map_eq_ok {α β : Type} {f : α → β} {x : Except StoreFault (α × Bytes)} {b : β}
    {rest : Bytes} : (x.map fun y => (f y.1, y.2)) = .ok (b, rest) ↔
      ∃ a, x = .ok (a, rest) ∧ f a = b := by
  cases x with
  | error e => exact ⟨nofun, nofun⟩
  | ok y =>
    simp only [Except.map, Except.ok.injEq, Prod.ext_iff]
    constructor
    · rintro ⟨hb, hrest⟩
      exact ⟨y.1, ⟨rfl, hrest⟩, hb⟩
    · rintro ⟨a, ⟨ha, hrest⟩, hb⟩
      exact ⟨ha ▸ hb, hrest⟩

namespace StoreReader

variable {α β : Type}

def ofWhole (r : Bytes → Except StoreFault (α × Bytes)) (h : Whole r) : StoreReader α where
  read := r
  suffix _ _ _ := suffix_of_whole h

/-- The values read, in another form. -/
def map (f : α → β) (r : StoreReader α) : StoreReader β where
  read s := (r.read s).map fun y => (f y.1, y.2)
  suffix s b rest h := by
    obtain ⟨a, ha, -⟩ := map_eq_ok.mp h
    exact r.suffix s a rest ha

end StoreReader

/-- What has been processed: a command with nothing behind it, with what stands behind it, or only
the peer id of a command for which the information could not be read. -/
inductive Processed (P : Type)
  | config (cmd : UDPPeerConfig)
  | configurePeer (peerId : ℕ) (pi : UDPPeerInfo)
  | peerIdOnly (peerId : ℕ)
  | clientPayload (payload : P)
  | duecaVersion (v : Version)
  deriving DecidableEq, Repr

/-- What stands behind a command. When a guarded body is not all there, the level goes back to before
the command, and when it is, the level goes behind it. For one that is not guarded the level stays
behind the command, and something has been done before it is read. -/
inductive Body (P : Type)
  | nothing
  | complete
  | guarded (r : StoreReader (Processed P))
  | unguarded (early : Processed P) (r : StoreReader (Processed P))

section Decoding

variable {P : Type}

/-- `NetCommunicatorPeer::decodeConfigData`: what is done for each type of command. -/
def peerBody (client : StoreReader P) (cmd : UDPPeerConfig) : Body P :=
  match cmd.mtype with
  | .configurePeer =>
    .unguarded (.peerIdOnly cmd.peerId)
      ((StoreReader.ofWhole _ UDPPeerInfo.unpack_whole).map (.configurePeer cmd.peerId))
  | .clientPayload => .guarded (client.map .clientPayload)
  -- the initial configuration is complete
  | .initialConfComplete => .complete
  | _ => .nothing

/-- `NetCommunicatorMaster::decodeConfigData`. -/
def masterBody (client : StoreReader P) (cmd : UDPPeerConfig) : Body P :=
  match cmd.mtype with
  | .clientPayload => .guarded (client.map .clientPayload)
  | .duecaVersion => .guarded ((StoreReader.ofWhole _ Version.unpack_whole).map .duecaVersion)
  | _ => .nothing

/-- The result of decoding: what has been processed, the bytes from `storelevel` on unless another
exception has left the function, and whether the initial configuration is complete. -/
structure Decoded (P : Type) where
  events : List (Processed P)
  kept : Option Bytes
  complete : Bool

def Decoded.cons (e : Processed P) (d : Decoded P) : Decoded P :=
  { d with events := e :: d.events }

/-- The loop, where `mark` is what there is from `storelevel` on, and `s` what is left in the store.
The number counts the turns; each takes at least a byte. -/
def decodeFrom (body : UDPPeerConfig → Body P) (fails : Processed P → Bool) :
    ℕ → Bytes → Bytes → Decoded P
  | 0, mark, _ => ⟨[], some mark, false⟩
  | turns + 1, mark, s =>
    if s = [] then ⟨[], some mark, false⟩
    else match UDPPeerConfig.unpack s with
      | .error _ => ⟨[], some mark, false⟩
      | .ok (cmd, rest) =>
        match body cmd with
        | .nothing => (decodeFrom body fails turns rest rest).cons (.config cmd)
        | .complete => ⟨[.config cmd], some rest, true⟩
        | .guarded r =>
          match r.read rest with
          | .error _ => ⟨[], some s, false⟩
          | .ok (e, rest') =>
            if fails e then ⟨[e], none, false⟩
            else (decodeFrom body fails turns rest' rest').cons e
        | .unguarded early r =>
          match r.read rest with
          | .error _ => ⟨[early], some rest, false⟩
          | .ok (e, rest') =>
            if fails e then ⟨[e], none, false⟩
            else (decodeFrom body fails turns rest rest').cons e

/-- All that is in the store. -/
def decode (body : UDPPeerConfig → Body P) (fails : Processed P → Bool) (s : Bytes) : Decoded P :=
  decodeFrom body fails (s.length + 1) s s

/-- What receives the pieces: the buffer, what has been processed, whether another exception has
ended it, and whether the last call has returned that the initial configuration is complete. -/
structure Receiver (P : Type) where
  buffer : ConfigBuffer := {}
  processed : List (Processed P) := []
  stopped : Bool := false
  complete : Bool := false

namespace Receiver

/-- A piece is written, and decoded. -/
def receive (body : UDPPeerConfig → Body P) (fails : Processed P → Bool) (r : Receiver P)
    (bytes : Bytes) : Receiver P :=
  if r.stopped then r
  else
    let b := r.buffer.write bytes
    let d := decode body fails b.unread
    match d.kept with
    | none => { r with buffer := b, processed := r.processed ++ d.events, stopped := true }
    | some kept =>
      { r with
        buffer := b.saveForLater (b.unread.length - kept.length) (Nat.sub_le _ _)
        processed := r.processed ++ d.events
        complete := d.complete }

def receiveAll (body : UDPPeerConfig → Body P) (fails : Processed P → Bool)
    (pieces : List Bytes) : Receiver P :=
  pieces.foldl (receive body fails) {}

end Receiver

end Decoding

end Dueca.Net.Wire
