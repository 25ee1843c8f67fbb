import Dueca.Lib.Patch
import Dueca.Store.ReStore

/-!
# Packing in a store

An `AmorphStore` packs data in a buffer, one behind the other. When something does not fit, an
exception is thrown and the store is choked: nothing more is packed until it is used again. A mark
is room for a number that is known later; it is written when the data behind it have been packed.

There are two kinds of marks. One is an object with its own place, and there can be many of them.
The other is the one place that the store keeps itself.

The comparison of the index and a size with the capacity is one of unsigned numbers of 32 bits, as
in an `AmorphReStore`. A function that writes outside the buffer ends in an error; what it does
then is not defined.

A `Packing` also records what has been packed, and where, since the store has been used again.
Nothing in the model reads these records.
-/

namespace Dueca.Store

open Dueca.Lib

/-- The buffer, and up to where it is filled. The capacity is the length of the buffer. -/
structure AmorphStore where
  stor : Bytes
  index : ℕ
  choked : Bool
  markPoint : ℕ
  deriving DecidableEq

/-- The constructor with a buffer. It leaves the mark point as it is. -/
def AmorphStore.init (stor : Bytes) (markPoint : ℕ) : AmorphStore := ⟨stor, 0, false, markPoint⟩

/-- The types of marks for which `netconvert` is defined. -/
inductive MarkType
  | uint8 | int8 | uint16 | uint32 | int32
  deriving DecidableEq, Repr

namespace MarkType

/-- The number that is written. -/
def scalar : MarkType → Scalar
  | uint8 => .uint8
  | int8 => .int8
  | uint16 => .uint16
  | uint32 => .uint32
  | int32 => .int32

/-- `sizeof`. -/
def size (ty : MarkType) : ℕ := ty.scalar.size

/-- `std::numeric_limits<T>::max()`. -/
def max : MarkType → ℕ
  | uint8 => 255
  | int8 => 127
  | uint16 => 65535
  | uint32 => 4294967295
  | int32 => 2147483647

/-- `netconvert`, and the bytes of the result. -/
def netconvert (host : Host) (ty : MarkType) (n : ℕ) : Bytes :=
  native host ty.size (ty.scalar.convert host n)

end MarkType

namespace AmorphStore

/-- What a function leads to: whether it throws, and the store. -/
abbrev Result := Except Unit (Bool × AmorphStore)

/-- `internalCheckForRoom` throws. -/
def lacksRoom (s : AmorphStore) (size : ℕ) : Bool :=
  s.choked || decide ((s.index + size) % 2 ^ 32 > s.stor.length)

/-- `memcpy(&stor[place], ..)`. -/
def memcpy (s : AmorphStore) (place : ℕ) (bs : Bytes) : Except Unit AmorphStore :=
  if place + bs.length ≤ s.stor.length then .ok { s with stor := overwrite s.stor place bs }
  else .error ()

/-- The common part of the pack functions: check for a size, write bytes and go on behind them. -/
def pack (s : AmorphStore) (size : ℕ) (bs : Bytes) : Result :=
  if s.lacksRoom size then .ok (true, { s with choked := true })
  else
    match s.memcpy s.index bs with
    | .error e => .error e
    | .ok s' => .ok (false, { s' with index := (s.index + bs.length) % 2 ^ 32 })

/-- The common part of the functions that begin a mark. -/
def reserve (s : AmorphStore) (size : ℕ) : Result :=
  if s.lacksRoom size then .ok (true, { s with choked := true })
  else .ok (false, { s with index := (s.index + size) % 2 ^ 32 })

/-- `finishMark`, for a mark at a place. The size is compared as a number of 64 bits. The store is
not choked when it is too large. -/
def finishMark (host : Host) (s : AmorphStore) (ty : MarkType) (place : ℕ) : Result :=
  let gross := ((s.index - place : ℤ) % 2 ^ 32).toNat
  if gross < ty.size ∨ gross - ty.size > ty.max then .ok (true, s)
  else
    match s.memcpy place (ty.netconvert host (gross - ty.size)) with
    | .error e => .error e
    | .ok s' => .ok (false, s')

/-- `startMark` and `startBigMark`. -/
def startMark (s : AmorphStore) (ty : MarkType) : Result :=
  match s.reserve ty.size with
  | .ok (false, s') => .ok (false, { s' with markPoint := s.index })
  | res => res

/-- `endMark` and `endBigMark`. The size is cut off to the size of the mark. -/
def endMark (host : Host) (s : AmorphStore) (ty : MarkType) : Result :=
  let size := ((s.index - s.markPoint - ty.size : ℤ) % 256 ^ ty.size).toNat
  match s.memcpy s.markPoint (ty.netconvert host size) with
  | .error e => .error e
  | .ok s' => .ok (false, { s' with markPoint := 0 })

/-- `reUse`. -/
def reUse (s : AmorphStore) : AmorphStore := { s with index := 0, choked := false }

end AmorphStore

/-- The calls. A text goes up to the first zero. -/
inductive PackOp
  | scalar (ty : Scalar) (v : BitVec (8 * ty.size))
  | bool (b : Bool)
  | vstring (str : Bytes)
  | string (c : Bytes)
  | chars (c : Bytes)
  | createMark (ty : MarkType)
  | finishMark (ty : MarkType) (place : ℕ)
  | startMark
  | endMark
  | startBigMark
  | endBigMark
  | reUse
  deriving DecidableEq

/-- What a call does. Lengths are cut off to 32 bits. -/
def PackOp.run (host : Host) (s : AmorphStore) : PackOp → AmorphStore.Result
  | .scalar ty v => s.pack ty.size (native host ty.size (ty.convert host v.toNat))
  | .bool b => s.pack 1 [if b then 255 else 0]
  | .vstring str =>
    let l := str.length % 2 ^ 32
    s.pack ((l + 4) % 2 ^ 32) (native host 4 (hton host 4 l) ++ str.take l)
  | .string c =>
    let text := c.takeWhile (· ≠ 0) ++ [0]
    let l := text.length % 2 ^ 32
    s.pack l (text.take l)
  | .chars c =>
    let l := c.length % 2 ^ 32
    s.pack l (c.take l)
  | .createMark ty => s.reserve ty.size
  | .finishMark ty place => s.finishMark host ty place
  | .startMark => s.startMark .uint16
  | .endMark => s.endMark host .uint16
  | .startBigMark => s.startMark .uint32
  | .endBigMark => s.endMark host .uint32
  | .reUse => .ok (false, s.reUse)

/-! ### What has been packed -/

/-- Something that has been packed; a mark with its number, when it is finished. -/
inductive Item
  | scalar (ty : Scalar) (v : BitVec (8 * ty.size))
  | bool (b : Bool)
  | vstring (str : Bytes)
  | text (bs : Bytes)
  | chars (bs : Bytes)
  | mark (ty : MarkType) (size : Option ℕ)
  deriving DecidableEq

namespace Item

/-- The encoding, most significant bytes first. A mark that is not finished has none. -/
def encoding : Item → Option Bytes
  | scalar ty v => some (bigEndian ty.size v.toNat)
  | bool b => some [if b then 255 else 0]
  | vstring str => some (bigEndian 4 str.length ++ str)
  | text bs | chars bs => some bs
  | mark ty (some n) => some (bigEndian ty.size n)
  | mark _ none => none

/-- The number of bytes. -/
def size : Item → ℕ
  | scalar ty _ => ty.size
  | bool _ => 1
  | vstring str => 4 + str.length
  | text bs | chars bs => bs.length
  | mark ty _ => ty.size

/-- The function that reads it. -/
def op : Item → Op
  | scalar ty _ => .scalar ty
  | bool _ => .bool
  | vstring _ => .vstring
  | text _ => .string
  | chars bs => .chars (BitVec.ofNat 32 bs.length)
  | mark ty _ => .scalar ty.scalar

/-- The value is the one that was packed. -/
def ReadsAs (v : Value) : Item → Prop
  | scalar ty w => v = .scalar ty w
  | bool b => v = .bool b
  | vstring str => v = .str str
  | text bs | chars bs => v = .str bs
  | mark ty (some n) => v = .scalar ty.scalar (BitVec.ofNat _ n)
  | mark _ none => True

/-- A mark of this type, finished or not. -/
def IsMark (ty : MarkType) : Item → Prop
  | mark ty' _ => ty' = ty
  | _ => False

instance (ty : MarkType) : DecidablePred (IsMark ty)
  | mark ty' _ => inferInstanceAs (Decidable (ty' = ty))
  | scalar _ _ | bool _ | vstring _ | text _ | chars _ => inferInstanceAs (Decidable False)

end Item

/-- An item and its place. -/
structure Entry where
  pos : ℕ
  item : Item
  deriving DecidableEq

/-- The bytes behind a place that have been packed. -/
def behind (log : List Entry) (place : ℕ) : ℕ :=
  ((log.filter fun e => place < e.pos).map fun e => e.item.size).sum

/-- The mark is finished, with the size of what is behind it. -/
def finish (log : List Entry) (ty : MarkType) (place : ℕ) : List Entry :=
  log.map fun e =>
    if e.pos = place ∧ e.item.IsMark ty then ⟨e.pos, .mark ty (some (behind log place))⟩ else e

/-- The store; what has been packed since it is in use, whether a call has thrown, and the type of
the mark that has been started last, if it has not been ended. -/
structure Packing where
  store : AmorphStore
  log : List Entry := []
  threw : Bool := false
  started : Option MarkType := none
  deriving DecidableEq

namespace Packing

/-- One more item. -/
def add (p : Packing) (item : Item) : Packing := { p with log := p.log ++ [⟨p.store.index, item⟩] }

/-- The records after a call that returns. -/
def note (p : Packing) : PackOp → Packing
  | .scalar ty v => p.add (.scalar ty v)
  | .bool b => p.add (.bool b)
  | .vstring str => p.add (.vstring str)
  | .string c => p.add (.text (c.takeWhile (· ≠ 0) ++ [0]))
  | .chars c => p.add (.chars c)
  | .createMark ty => p.add (.mark ty none)
  | .finishMark ty place => { p with log := finish p.log ty place }
  | .startMark => { p.add (.mark .uint16 none) with started := some .uint16 }
  | .endMark => { p with log := finish p.log .uint16 p.store.markPoint, started := none }
  | .startBigMark => { p.add (.mark .uint32 none) with started := some .uint32 }
  | .endBigMark => { p with log := finish p.log .uint32 p.store.markPoint, started := none }
  | .reUse => { p with log := [], threw := false, started := none }

/-- One call. -/
def step (host : Host) (p : Packing) (op : PackOp) : Except Unit Packing :=
  match op.run host p.store with
  | .error e => .error e
  | .ok (true, s) => .ok { p with store := s, threw := true }
  | .ok (false, s) => .ok { p.note op with store := s }

end Packing

end Dueca.Store
