import Dueca.Lib.Run
import Dueca.Lib.Framing

/-!
# Bulk transport

A `FillPacker` packs sets of channel data in a store, and sends the bytes of a store in
pieces of the size that happens to be left in the messages. It has two stores: one is
filled while the other is sent. A `FillUnpacker` puts the pieces that come from one
sender one behind the other in a buffer and unpacks the sets that are complete.

What the packers use of the channels is a parameter: the data their entries pack, and
how many bytes an end takes from a store when it unpacks. With `sendId` the two are built
with `FILLPACKER_SEND_ID`, which puts a tag of five bytes in front of each piece.

The fields `before`, `sending`, `filling`, `sync` of the packer, `passed` of the unpacker,
`closes` and `reach` of a piece, and `current` and `arrived` of the transport keep a
record that no code reads.
-/

namespace Dueca.Fill

open Dueca.Lib

/-- The id of a channel: the node that made it, and its number. -/
structure GlobalId where
  location : UInt8
  object : UInt16
  deriving DecidableEq, Repr

/-- The three bytes of an id. -/
def GlobalId.bytes (c : GlobalId) : List UInt8 := c.location :: bigEndian 2 c.object.toNat

/-- The id that is written in three bytes. -/
def GlobalId.ofBytes (bs : List UInt8) : GlobalId :=
  ⟨bs.headD 0, UInt16.ofNat (ofBigEndian bs.tail)⟩

/-- What the packers use of the channels. All data starts with a message type and an entry
number; `unPackData` gives the number of bytes that an end of the channel takes from a
store with these bytes, when the size is said to be the one given. -/
structure ChannelCode where
  Packs : GlobalId → List UInt8 → Prop
  unPackData : GlobalId → ℕ → List UInt8 → ℕ
  header : ∀ c d, Packs c d → 3 ≤ d.length
  takes : ∀ c d rest, Packs c d → unPackData c d.length (d ++ rest) = d.length

/-- Data for a channel. -/
structure PackedSet where
  channel : GlobalId
  data : List UInt8
  deriving DecidableEq, Repr

/-- Work for a packer: an entry has data to send. The entry may have become invalid by the
time it is asked for them. -/
structure PackUnit (code : ChannelCode) where
  set : PackedSet
  valid : Bool
  packs : code.Packs set.channel set.data

/-! ### Stores -/

/-- A store that is filled; `stor` are the bytes before the index. -/
structure AmorphStore where
  stor : List UInt8 := []
  capacity : ℕ
  choked : Bool := false
  markPoint : ℕ := 0
  deriving DecidableEq, Repr

/-- Exceptions while packing. -/
inductive PackFault | boundary | entryInvalid
  deriving DecidableEq, Repr

namespace AmorphStore

def getSize (s : AmorphStore) : ℕ := s.stor.length

def setSize (s : AmorphStore) (size : ℕ) : AmorphStore := { s with stor := s.stor.take size }

def reUse (s : AmorphStore) : AmorphStore := { s with stor := [], choked := false }

/-- Pack bytes; a store that could not take something once takes nothing any more. -/
def packData (s : AmorphStore) (bs : List UInt8) : Except (PackFault × AmorphStore) AmorphStore :=
  if s.choked ∨ s.getSize + bs.length > s.capacity then
    .error (.boundary, { s with choked := true })
  else .ok { s with stor := s.stor ++ bs }

/-- Leave four bytes for a size. -/
def startBigMark (s : AmorphStore) : Except (PackFault × AmorphStore) AmorphStore :=
  match s.packData [0, 0, 0, 0] with
  | .error e => .error e
  | .ok t => .ok { t with markPoint := s.getSize }

/-- Write the size of what was packed since the mark. -/
def endBigMark (s : AmorphStore) : AmorphStore :=
  { s with
    stor := s.stor.take s.markPoint ++ bigEndian 4 (s.getSize - s.markPoint - 4) ++
      s.stor.drop (s.markPoint + 4)
    markPoint := 0 }

end AmorphStore

/-- A store that is unpacked; `stor` are the bytes up to the fill level. -/
structure AmorphReStore where
  stor : List UInt8 := []
  index : ℕ := 0
  exhausted : Bool := false
  deriving DecidableEq, Repr

/-- What ends a run: an entry that is gone, a failed assertion, or a store that holds less
than was asked from it. -/
inductive Fault | entryInvalid | assertion | storeEmpty
  deriving DecidableEq, Repr

namespace AmorphReStore

def getFillLevel (s : AmorphReStore) : ℕ := s.stor.length

def getSize (s : AmorphReStore) : ℕ := s.getFillLevel - s.index

def isExhausted (s : AmorphReStore) : Bool := s.exhausted || s.getFillLevel ≤ s.index

def extend (s : AmorphReStore) (bs : List UInt8) : AmorphReStore :=
  { s with stor := s.stor ++ bs, exhausted := false }

/-- The bytes that have not been unpacked. -/
def rest (s : AmorphReStore) : List UInt8 := s.stor.drop s.index

/-- Unpack a number of bytes. -/
def unPackData (s : AmorphReStore) (size : ℕ) : Except Fault (List UInt8 × AmorphReStore) :=
  if s.index + size > s.getFillLevel then .error .storeEmpty
  else .ok (s.rest.take size, { s with index := s.index + size })

/-- The size in front of the data, which stays in the store. -/
def peekBigMark (s : AmorphReStore) : Except Fault ℕ :=
  match s.unPackData 4 with
  | .error e => .error e
  | .ok (bs, _) => .ok (ofBigEndian bs)

/-- Skip the size and the data behind it. -/
def gobbleBig (s : AmorphReStore) : Except Fault AmorphReStore :=
  match s.unPackData 4 with
  | .error e => .error e
  | .ok (bs, t) =>
    match t.unPackData (ofBigEndian bs) with
    | .error e => .error e
    | .ok (_, t') => .ok t'

end AmorphReStore

/-! ### The sender -/

variable {code : ChannelCode}

/-- The bytes of a set in a store. -/
def PackedSet.size (a : PackedSet) : ℕ := 7 + a.data.length

def sizeAll (as : List PackedSet) : ℕ := (as.map PackedSet.size).sum

/-- A set ends after the first `n` bytes of these sets, or nothing has started yet. -/
def endsSet : List PackedSet → ℕ → Bool
  | _, 0 => true
  | [], _ + 1 => false
  | a :: as, n + 1 => a.size ≤ n + 1 && endsSet as (n + 1 - a.size)

/-- The packer. `before` are the sets of the stores sent earlier, `sending` and `filling`
those of the store that was sent last and of the one being filled; `sync` is the last
place in the store being sent where a piece ended between two sets. -/
structure FillPacker (code : ChannelCode) where
  location : UInt8
  bufferSize : ℕ
  store : Bool → AmorphStore := fun _ => { capacity := bufferSize }
  storeToFill : Bool := false
  storeToSend : Bool := false
  bytesToSend : ℕ := 0
  indexToSend : ℕ := 0
  pkgCount : ℕ := 0
  workQueue : List (PackUnit code) := []
  tooLarge : List PackedSet := []
  before : List PackedSet := []
  sending : List PackedSet := []
  filling : List PackedSet := []
  sync : ℕ := 0

namespace FillPacker

/-- All sets that were packed. -/
def packed (p : FillPacker code) : List PackedSet := p.before ++ p.sending ++ p.filling

/-- The store that is being filled. -/
def fill (p : FillPacker code) : AmorphStore := p.store p.storeToFill

/-- The store that is being sent, or was sent last. -/
def send (p : FillPacker code) : AmorphStore := p.store p.storeToSend

def setFill (p : FillPacker code) (s : AmorphStore) : FillPacker code :=
  { p with store := Function.update p.store p.storeToFill s }

end FillPacker

/-- The entry packs its data, unless it has been removed. -/
def PackUnit.packData (u : PackUnit code) (s : AmorphStore) :
    Except (PackFault × AmorphStore) AmorphStore :=
  if u.valid then s.packData u.set.data else .error (.entryInvalid, s)

/-- Pack the channel id, the size of the data, and the data. -/
def packOneSet (s : AmorphStore) (u : PackUnit code) :
    Except (PackFault × AmorphStore) AmorphStore := do
  let s ← s.packData u.set.channel.bytes
  let s ← s.startBigMark
  let s ← u.packData s
  pure s.endBigMark

/-- Pack the work that is waiting, until the store is full. A set that does not fit is left
for the next store; one that does not fit in an empty store is thrown out. -/
def packUnits : FillPacker code → List (PackUnit code) → Except Fault (FillPacker code)
  | p, [] => .ok { p with workQueue := [] }
  | p, u :: us =>
    if p.fill.choked then .ok { p with workQueue := u :: us }
    else
      match packOneSet p.fill u with
      | .ok s => packUnits { p.setFill s with filling := p.filling ++ [u.set] } us
      | .error (.boundary, s) =>
        if p.fill.getSize = 0 then
          .ok { p.setFill (s.setSize p.fill.getSize) with
            workQueue := us
            tooLarge := p.tooLarge ++ [u.set] }
        else .ok { p.setFill (s.setSize p.fill.getSize) with workQueue := u :: us }
      -- not caught by this packer
      | .error (.entryInvalid, _) => .error .entryInvalid

/-- `FillPacker::packWork` -/
def FillPacker.packWork (p : FillPacker code) : Except Fault (FillPacker code) :=
  packUnits p p.workQueue

/-- When nothing is left to send, start on the store that was filled. -/
def FillPacker.startStore (p : FillPacker code) : FillPacker code :=
  if p.bytesToSend = 0 ∧ p.fill.getSize ≠ 0 then
    { p with
      bytesToSend := p.fill.getSize
      indexToSend := 0
      storeToSend := p.storeToFill
      storeToFill := !p.storeToFill
      store := Function.update p.store (!p.storeToFill) (p.store (!p.storeToFill)).reUse
      before := p.before ++ p.sending
      sending := p.filling
      filling := []
      sync := 0 }
  else p

/-- `MIN_FILL` -/
def minFill : ℕ := 32

/-- The size of the tag. -/
def tagSize (sendId : Bool) : ℕ := if sendId then 5 else 0

/-- The tag of a piece: the sending node, and a count. -/
def tag (sendId : Bool) (location : UInt8) (count : ℕ) : List UInt8 :=
  if sendId then location :: bigEndian 4 count else []

/-- A piece under way. It `closes` a store when it is the last one; `reach` is the number
of bytes of the store from its start, or from the last earlier piece that ended between
two sets, to the end of this piece. -/
structure Chunk where
  bytes : List UInt8
  closes : Bool
  reach : ℕ
  deriving DecidableEq, Repr

/-- The next piece of the store being sent. -/
def FillPacker.cut (sendId : Bool) (p : FillPacker code) (size : ℕ) : FillPacker code × Chunk :=
  let sendSize := min (size - tagSize sendId) p.bytesToSend
  let upTo := p.indexToSend + sendSize
  let p' := { p with
    pkgCount := if sendId then (p.pkgCount + 1) % 2 ^ 32 else p.pkgCount
    indexToSend := upTo
    bytesToSend := p.bytesToSend - sendSize
    sync := if endsSet p.sending upTo then upTo else p.sync }
  (p', { bytes := tag sendId p.location p.pkgCount ++
           (p.send.stor.drop p.indexToSend).take sendSize
         closes := p'.bytesToSend = 0
         reach := upTo - p.sync })

/-- `FillPacker::stuffMessage`: pack, and give a piece for `size` bytes of room. -/
def FillPacker.stuffMessage (sendId : Bool) (p : FillPacker code) (size : ℕ) :
    Except Fault (FillPacker code × List Chunk) :=
  match p.packWork with
  | .error e => .error e
  | .ok q =>
    let q := q.startStore
    if q.bytesToSend = 0 ∨ size < minFill then .ok (q, [])
    else .ok ((q.cut sendId size).1, [(q.cut sendId size).2])

/-! ### The receiver -/

/-- What the unpacker complains about. -/
inductive Report | bufferTooSmall | otherNode | countMismatch | wrongSize
  deriving DecidableEq, Repr

/-- The unpacker, as far as it concerns one sender. `handed` is what the channels got;
`passed` are all sets met, and whether the channel was present. -/
structure FillUnpacker where
  bufferSize : ℕ
  store : AmorphReStore := {}
  pkgCount : ℕ := 0
  senderId : Option UInt8 := none
  reports : List Report := []
  handed : List PackedSet := []
  passed : List (PackedSet × Bool) := []
  deriving DecidableEq, Repr

/-- Unpack a set that is complete: `s` is the store behind the channel id. -/
def unpackOneSet (code : ChannelCode) (present : UInt16 → Bool) (u : FillUnpacker)
    (s : AmorphReStore) (idx : GlobalId) (nextSize : ℕ) : Except Fault FillUnpacker :=
  if present idx.object then
    match s.unPackData 4 with
    | .error e => .error e
    | .ok (_, t) =>
      let set : PackedSet := ⟨idx, t.rest.take nextSize⟩
      let taken := code.unPackData idx nextSize t.rest
      match t.unPackData taken with
      | .error e => .error e
      | .ok (_, t') => .ok { u with
          store := t'
          handed := u.handed ++ [set]
          passed := u.passed ++ [(set, true)]
          reports := if nextSize = taken then u.reports else u.reports ++ [.wrongSize] }
  else
    match s.gobbleBig with
    | .error e => .error e
    | .ok t => .ok { u with
        store := t
        passed := u.passed ++ [(⟨idx, (s.rest.drop 4).take nextSize⟩, false)] }

/-- Unpack sets as long as they are complete, with the place behind the last one. The
first argument bounds the number of rounds. -/
def unpackLoop (code : ChannelCode) (present : UInt16 → Bool) :
    ℕ → FillUnpacker → ℕ → Except Fault (FillUnpacker × ℕ)
  | 0, u, currentIdx => .ok (u, currentIdx)
  | n + 1, u, currentIdx =>
    if u.store.isExhausted ∨ u.store.getSize ≤ 3 + 4 + 1 then .ok (u, currentIdx)
    else do
      let (bs, s) ← u.store.unPackData 3
      let nextSize ← s.peekBigMark
      if (nextSize + 4) % 2 ^ 32 ≤ s.getSize then
        let u' ← unpackOneSet code present u s (.ofBytes bs) nextSize
        unpackLoop code present n u' u'.store.index
      else pure ({ u with store := { s with exhausted := true } }, currentIdx)

/-- Check the room for a piece. -/
def checkRoom (u : FillUnpacker) (nbytes : ℕ) : FillUnpacker :=
  if nbytes + u.store.getFillLevel > u.bufferSize then
    { u with reports := u.reports ++ [.bufferTooSmall] }
  else u

/-- Check the tag of a piece. -/
def checkTag (sendId : Bool) (u : FillUnpacker) (bytes : List UInt8) : FillUnpacker :=
  if sendId then
    let node := bytes.headD 0
    let count := ofBigEndian ((bytes.drop 1).take 4)
    let other := if u.senderId = none ∨ u.senderId = some node then [] else [.otherNode]
    let mismatch := if count = u.pkgCount then [] else [.countMismatch]
    { u with
      senderId := if u.senderId = none then some node else u.senderId
      pkgCount := (u.pkgCount + 1) % 2 ^ 32
      reports := u.reports ++ other ++ mismatch }
  else u

/-- After unpacking: a store with an incomplete set goes back to its start, and an empty
one is used anew. -/
def FillUnpacker.rewind (u : FillUnpacker) (currentIdx : ℕ) : FillUnpacker :=
  if u.store.getSize ≠ 0 then { u with store := { u.store with index := currentIdx } }
  else { u with store := {} }

/-- `FillUnpacker::despatch`: one piece from the sender. -/
def despatch (sendId : Bool) (code : ChannelCode) (present : UInt16 → Bool)
    (u : FillUnpacker) (bytes : List UInt8) : Except Fault FillUnpacker :=
  if bytes.length = 0 then .error .assertion
  else
    let u := checkTag sendId (checkRoom u bytes.length) bytes
    let u := { u with store := u.store.extend (bytes.drop (tagSize sendId)) }
    match unpackLoop code present u.store.getSize u u.store.index with
    | .error e => .error e
    | .ok (u', currentIdx) => .ok (u'.rewind currentIdx)

/-! ### Both sides -/

/-- A sender, a receiver, and the pieces under way. `arrived` counts the bytes of stores
that have arrived; `current` are those of the store from which the last piece came, until
that store has arrived completely. -/
structure Transport (code : ChannelCode) where
  packer : FillPacker code
  unpacker : FillUnpacker
  flight : List Chunk := []
  current : List UInt8 := []
  arrived : ℕ := 0

/-- The start, with buffers of one size. -/
def start (code : ChannelCode) (location : UInt8) (bufferSize : ℕ) : Transport code where
  packer := { location, bufferSize }
  unpacker := { bufferSize }

/-- What can happen: an entry has data to send, the packer packs, a message with room for
`size` bytes is sent, or the next piece is unpacked while some channels are present. -/
inductive FillEvent (code : ChannelCode)
  | notification (u : PackUnit code)
  | packWork
  | stuffMessage (size : ℕ)
  | despatch (present : UInt16 → Bool)

/-- One step of the transport. -/
def fillStep (sendId : Bool) (s : Transport code) : FillEvent code → Except Fault (Transport code)
  | .notification u =>
    .ok { s with packer := { s.packer with workQueue := s.packer.workQueue ++ [u] } }
  | .packWork =>
    match s.packer.packWork with
    | .error e => .error e
    | .ok p => .ok { s with packer := p }
  | .stuffMessage size =>
    match s.packer.stuffMessage sendId size with
    | .error e => .error e
    | .ok (p, cs) => .ok { s with packer := p, flight := s.flight ++ cs }
  | .despatch present =>
    match s.flight with
    | [] => .ok s
    | c :: cs =>
      match despatch sendId code present s.unpacker c.bytes with
      | .error e => .error e
      | .ok u =>
        let data := c.bytes.drop (tagSize sendId)
        .ok { s with
          unpacker := u
          flight := cs
          current := if c.closes then [] else s.current ++ data
          arrived := s.arrived + data.length }

end Dueca.Fill
