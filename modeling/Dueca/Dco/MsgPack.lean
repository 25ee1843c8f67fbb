import Dueca.Lib.MsgPack
import Dueca.Dco.Pack
import Mathlib.Data.List.TakeWhile

/-!
# Communication objects in msgpack

The generated packer writes an object as an array of its members, those of the parent first.
The functions of `msgunpack` read such an encoding back into an object that is there, as the
replay of a log does.

How an integer becomes a floating point value is a parameter, `casts`; it is only needed when
a floating point value has been written as an integer.
-/

namespace Dueca.Dco

open Dueca.Lib Dueca.Lib.MsgPack

/-- Exceptions while reading. -/
inductive UnpackFault
  | mismatch (problem : String)
  | stringsizeExceeded
  | indexException
  | objectChangedSize
  deriving DecidableEq, Repr

/-! ### Integers and sizes -/

/-- Take a number of bytes. -/
def nextBytes (k : ℕ) (s : Bytes) : Except UnpackFault (Bytes × Bytes) :=
  if s.length < k then .error (.mismatch "buffer too small") else .ok (s.take k, s.drop k)

/-- Take the byte that tells the format. -/
def nextFlag (s : Bytes) : Except UnpackFault (UInt8 × Bytes) :=
  match s with
  | [] => .error (.mismatch "buffer too small")
  | flag :: s => .ok (flag, s)

/-- `process_int::positive`: an unsigned number of `k` bytes for an integer of `size` bytes. -/
def positive (size k : ℕ) (s : Bytes) : Except UnpackFault (ℤ × Bytes) :=
  if size < k then .error (.mismatch "type too small to assign 1-byte unsigned int")
  else do
    let (bs, s) ← nextBytes k s
    return (ofBigEndian bs, s)

/-- `process_int::negative`: a signed number of `k` bytes. -/
def negative (signed : Bool) (size k : ℕ) (s : Bytes) : Except UnpackFault (ℤ × Bytes) :=
  if signed && decide (k ≤ size) then do
    let (bs, s) ← nextBytes k s
    return ((BitVec.ofNat (8 * k) (ofBigEndian bs)).toInt, s)
  else .error (.mismatch "cannot assign negative number or type too small")

/-- `process_int::negative_b5`. -/
def negativeB5 (signed : Bool) (flag : UInt8) (s : Bytes) : Except UnpackFault (ℤ × Bytes) :=
  if signed then .ok (-((flag &&& 0x1f).toNat : ℤ), s)
  else .error (.mismatch "cannot assign negative number to unsigned type")

/-- `unpack_int`, for an integer of `size` bytes: the number that is assigned to it. -/
def unpackInt (signed : Bool) (size : ℕ) (s : Bytes) : Except UnpackFault (ℤ × Bytes) := do
  let (flag, s) ← nextFlag s
  if flag &&& 0x80 = 0 then return (flag.toNat, s)
  else if flag &&& 0xe0 = 0xe0 then negativeB5 signed flag s
  else if flag = 0xcc then positive size 1 s
  else if flag = 0xcd then positive size 2 s
  else if flag = 0xce then positive size 4 s
  else if flag = 0xcf then positive size 8 s
  else if flag = 0xd0 then negative signed size 1 s
  else if flag = 0xd1 then negative signed size 2 s
  else if flag = 0xd2 then negative signed size 4 s
  else if flag = 0xd3 then negative signed size 8 s
  else throw (.mismatch "wrong type, cannot convert to int")

/-- A size that is in the low bits of the flag when the other bits are `tag`, and else in the
number of bytes that goes with the flag in `wide`. -/
def unpackSize (mask tag low : UInt8) (wide : List (UInt8 × ℕ)) (problem : String)
    (s : Bytes) : Except UnpackFault (ℕ × Bytes) := do
  let (flag, s) ← nextFlag s
  if flag &&& mask = tag then return ((flag &&& low).toNat, s)
  else match wide.find? fun w => w.1 = flag with
    | some w => do
      let (bs, s) ← nextBytes w.2 s
      return (ofBigEndian bs, s)
    | none => throw (.mismatch problem)

def unpackStrsize : Bytes → Except UnpackFault (ℕ × Bytes) :=
  unpackSize 0xe0 0xa0 0x1f [(0xd9, 1), (0xda, 2), (0xdb, 4)]
    "wrong type, cannot convert to strlen"

def unpackArraysize : Bytes → Except UnpackFault (ℕ × Bytes) :=
  unpackSize 0xf0 0x90 0x0f [(0xdc, 2), (0xdd, 4)] "wrong type, cannot convert to arrlen"

def unpackMapsize : Bytes → Except UnpackFault (ℕ × Bytes) :=
  unpackSize 0xf0 0x80 0x0f [(0xde, 2), (0xdf, 4)] "wrong type, cannot convert to maplen"

/-! ### Single values -/

/-- The number that an integer stands for. -/
def intValue (signed : Bool) {w : ℕ} (v : BitVec w) : ℤ := if signed then v.toInt else v.toNat

/-- Conversions of integers to floating point values. -/
structure FloatCasts where
  float : ℤ → BitVec 32
  double : ℤ → BitVec 64

def packMsgBool (v : Bool) : Bytes := [if v then 0xc3 else 0xc2]

def packMsgString (v : Bytes) : Bytes := strHeader v.length ++ v

/-- How single values are written. An enumerated value is written as its integer. -/
def Prim.packMsg : (p : Prim) → p.Val → Bytes
  | .bool => packMsgBool
  | .int signed _ => fun v => packInt (intValue signed v)
  | .float => fun v => 0xca :: packBits 4 v
  | .double => fun v => 0xcb :: packBits 8 v
  | .string => packMsgString
  | .dstring _ => fun v => packMsgString v.1
  | .enum signed _ _ => fun v => packInt (intValue signed v)

def unpackBool (s : Bytes) : Except UnpackFault (Bool × Bytes) := do
  let (flag, s) ← nextFlag s
  if flag = 0xc2 then return (false, s)
  else if flag = 0xc3 then return (true, s)
  else throw (.mismatch "wrong data, cannot convert to bool")

/-- `unpack_float` and `unpack_double`, for values of `k` bytes that have the flag `tag`. -/
def unpackReal (k : ℕ) (tag : UInt8) (cast : ℤ → BitVec (8 * k)) (problem : String)
    (s : Bytes) : Except UnpackFault (BitVec (8 * k) × Bytes) := do
  let (flag, rest) ← nextFlag s
  if flag = tag then
    let (bs, s) ← nextBytes k rest
    return (BitVec.ofNat (8 * k) (ofBigEndian bs), s)
  else match unpackInt (decide (flag ≠ 0xcf)) 8 s with
    | .ok (i, s) => return (cast i, s)
    | .error _ => throw (.mismatch problem)

def unpackString (s : Bytes) : Except UnpackFault (Bytes × Bytes) := do
  let (len, s) ← unpackStrsize s
  nextBytes len s

/-- The characters of a `Dstring` of which `bs` are the first bytes. -/
def DstringVal.ofBytes {maxSize : ℕ} (bs : Bytes) (h : bs.length ≤ maxSize) :
    DstringVal maxSize :=
  ⟨bs.takeWhile (· ≠ 0), (List.takeWhile_prefix _).length_le.trans h,
    fun h0 => by simpa using List.mem_takeWhile_imp h0⟩

def unpackDstring (maxSize : ℕ) (s : Bytes) : Except UnpackFault (DstringVal maxSize × Bytes) := do
  let (len, s) ← unpackStrsize s
  if maxSize < len then throw .stringsizeExceeded
  else
    let (bs, s) ← nextBytes len s
    if h : bs.length ≤ maxSize then return (.ofBytes bs h, s)
    else throw .stringsizeExceeded

/-- An integer of a type is assigned the number read. -/
def unpackIntVal (signed : Bool) (w : Width) (s : Bytes) :
    Except UnpackFault (BitVec w.bits × Bytes) := do
  let (i, s) ← unpackInt signed w.bytes s
  return (BitVec.ofInt w.bits i, s)

/-- An enumerated value is read through an `int`. -/
def unpackEnum (w : Width) (s : Bytes) : Except UnpackFault (BitVec w.bits × Bytes) := do
  let (tmp, s) ← unpackIntVal true .w32 s
  return (BitVec.ofInt w.bits tmp.toInt, s)

def Prim.unpackMsg (casts : FloatCasts) : (p : Prim) → Bytes → Except UnpackFault (p.Val × Bytes)
  | .bool => unpackBool
  | .int signed w => unpackIntVal signed w
  | .float => unpackReal 4 0xca casts.float "wrong type, cannot convert to float"
  | .double => unpackReal 8 0xcb casts.double "wrong type, cannot convert to double"
  | .string => unpackString
  | .dstring maxSize => unpackDstring maxSize
  | .enum _ w _ => unpackEnum w

/-! ### Containers and objects -/

/-- How values of a type are written, and read into a value that is there. -/
structure MsgTraits (α : Type) where
  pack : α → Bytes
  unpack : α → Bytes → Except UnpackFault (α × Bytes)

section Containers

variable {n : ℕ} {K ι α β : Type} [LinearOrder ι] {rank : K → ι}

/-- Values one behind the other. -/
def packAll (T : MsgTraits α) (as : List α) : Bytes := as.flatMap T.pack

/-- Read each element in place. -/
def unpackAll (T : MsgTraits α) : List α → Bytes → Except UnpackFault (List α × Bytes)
  | [], s => .ok ([], s)
  | a :: as, s => do
    let (a, s) ← T.unpack a s
    let (as, s) ← unpackAll T as s
    return (a :: as, s)

/-- The loop for a list: each element is read in a new `val`, and put behind the others. -/
def unpackPush (fresh : α) (T : MsgTraits α) :
    ℕ → List α → Bytes → Except UnpackFault (List α × Bytes)
  | 0, as, s => .ok (as, s)
  | l + 1, as, s => do
    let (val, s) ← T.unpack fresh s
    unpackPush fresh T l (as ++ [val]) s

/-- The loop for a map: all keys are read in `key`, all values in `val`. -/
def unpackEmplace (S : MsgTraits K) (T : MsgTraits α) :
    ℕ → K → α → KeyMap rank α → Bytes → Except UnpackFault (KeyMap rank α × Bytes)
  | 0, _, _, m, s => .ok (m, s)
  | l + 1, key, val, m, s => do
    let (key, s) ← S.unpack key s
    let (val, s) ← T.unpack val s
    unpackEmplace S T l key val (m.emplace key val) s

def MsgTraits.single (casts : FloatCasts) (p : Prim) : MsgTraits p.Val where
  pack := p.packMsg
  unpack _ := p.unpackMsg casts

def MsgTraits.fixvector (T : MsgTraits α) : MsgTraits (FixVector n α) where
  pack v := arrayHeader v.d.length ++ packAll T v.d
  unpack v s := do
    let (len, s) ← unpackArraysize s
    if len ≠ n then throw .indexException
    else
      let (d, s) ← unpackAll T v.d s
      -- as many elements as there were
      if h : d.length = n then return (⟨d, h⟩, s) else throw .indexException

def MsgTraits.vector (fresh : α) (T : MsgTraits α) : MsgTraits (List α) where
  pack v := arrayHeader v.length ++ packAll T v
  unpack v s := do
    let (len, s) ← unpackArraysize s
    unpackAll T (resize fresh v len) s

def MsgTraits.list (fresh : α) (T : MsgTraits α) : MsgTraits (List α) where
  pack v := arrayHeader v.length ++ packAll T v
  unpack v s := do
    let (len, s) ← unpackArraysize s
    unpackPush fresh T len v s

/-- One member after another; also a key and its value. -/
def MsgTraits.prod (S : MsgTraits α) (T : MsgTraits β) : MsgTraits (α × β) where
  pack v := S.pack v.1 ++ T.pack v.2
  unpack v s := do
    let (a, s) ← S.unpack v.1 s
    let (b, s) ← T.unpack v.2 s
    return ((a, b), s)

def MsgTraits.map (freshKey : K) (fresh : α) (S : MsgTraits K) (T : MsgTraits α) :
    MsgTraits (KeyMap rank α) where
  pack v := mapHeader v.entries.length ++ packAll (S.prod T) v.entries
  unpack v s := do
    let (len, s) ← unpackMapsize s
    unpackEmplace S T len freshKey fresh v s

/-- Whether nil comes next. -/
def isNil (s : Bytes) : Except UnpackFault Bool := do
  let (flag, _) ← nextFlag s
  return flag = nilByte

/-- An invalid value is written as nil. -/
def MsgTraits.optional (T : MsgTraits α) : MsgTraits (FixOptional α) where
  pack v := if v.valid then T.pack v.value else [nilByte]
  unpack v s := do
    if ← isNil s then
      let (_, s) ← nextFlag s
      return (⟨false, v.value⟩, s)
    else
      let (value, s) ← T.unpack v.value s
      return (⟨v.valid, value⟩, s)

def MsgTraits.unit : MsgTraits Unit where
  pack _ := []
  unpack v s := .ok (v, s)

/-- An object with `members` members, which `T` writes and reads. -/
def MsgTraits.object (members : ℕ) (T : MsgTraits α) : MsgTraits α where
  pack v := arrayHeader members ++ T.pack v
  unpack v s := do
    let (size, s) ← unpackArraysize s
    if size ≠ members then throw .objectChangedSize else T.unpack v s

end Containers

def Members.size : Members → ℕ
  | .nil => 0
  | .cons _ _ ms => ms.size + 1

/-- The number of members, with those of the parent. -/
def DcoClass.nMembers : DcoClass → ℕ
  | .root ms => ms.size
  | .derived parent ms => ms.size + parent.nMembers

section Objects

variable (fresh : (t : Ty) → t.Val) (casts : FloatCasts)

mutual

/-- How values of a type are written and read. -/
def Ty.msgTraits : (t : Ty) → MsgTraits t.Val
  | .prim p => .single casts p
  | .fixvector _ t => t.msgTraits.fixvector
  | .vector t => t.msgTraits.vector (fresh t)
  | .list t => t.msgTraits.list (fresh t)
  | .map k t => .map (fresh (.prim k)) (fresh t) (.single casts k) t.msgTraits
  | .optional t => t.msgTraits.optional
  | .object c => .object c.nMembers c.msgMembers

def Members.msgMembers : (ms : Members) → MsgTraits ms.Val
  | .nil => .unit
  | .cons _ t ms => t.msgTraits.prod ms.msgMembers

/-- The generated `pack_members` and `unpack_members`: first those of the parent. -/
def DcoClass.msgMembers : (c : DcoClass) → MsgTraits c.Val
  | .root ms => ms.msgMembers
  | .derived parent ms => parent.msgMembers.prod ms.msgMembers

end

/-- How objects of a class are written and read. -/
def DcoClass.msgTraits (c : DcoClass) : MsgTraits c.Val := (Ty.object c).msgTraits fresh casts

end Objects

end Dueca.Dco
