import Dueca.Dco.MsgPack

/-!
# Reading msgpack byte by byte

The functions of `msgunpack` have an iterator in the stream, and one at its end. They check before
they use a byte; to use one or to step on at the end is undefined. Here each such use is a
step of its own, with a fault of its own at the end.
-/

namespace Dueca.Dco

open Dueca.Lib Dueca.Lib.MsgPack

/-- An exception, or undefined behaviour. -/
inductive ReadFault
  | beyondEnd
  | thrown (e : UnpackFault)
  deriving DecidableEq

/-- What reads a value into one that is there. -/
abbrev Unstream (α : Type) := α → Bytes → Except ReadFault (α × Bytes)

namespace Unstream

/-! ### The iterator -/

/-- `check_iterator_notend`. The bytes are those between the iterators. -/
def checkNotend : Bytes → Except ReadFault Unit
  | [] => .error (.thrown (.mismatch "buffer too small"))
  | _ :: _ => .ok ()

/-- `*i0`. -/
def current : Bytes → Except ReadFault UInt8
  | [] => .error .beyondEnd
  | b :: _ => .ok b

/-- `++i0`. -/
def advance : Bytes → Except ReadFault Bytes
  | [] => .error .beyondEnd
  | _ :: s => .ok s

def takeByte (s : Bytes) : Except ReadFault (UInt8 × Bytes) := do
  checkNotend s
  let b ← current s
  let s ← advance s
  return (b, s)

/-- The loops over the bytes of a number or a string. -/
def takeBytes : ℕ → Bytes → Except ReadFault (Bytes × Bytes)
  | 0, s => .ok ([], s)
  | k + 1, s => do
    checkNotend s
    let b ← current s
    let s ← advance s
    let (bs, s) ← takeBytes k s
    return (b :: bs, s)

/-! ### Single values -/

def positive (size k : ℕ) (s : Bytes) : Except ReadFault (ℤ × Bytes) :=
  if size < k then
    .error (.thrown (.mismatch "type too small to assign 1-byte unsigned int"))
  else do
    let (bs, s) ← takeBytes k s
    return (ofBigEndian bs, s)

def negative (signed : Bool) (size k : ℕ) (s : Bytes) : Except ReadFault (ℤ × Bytes) :=
  if signed && decide (k ≤ size) then do
    let (bs, s) ← takeBytes k s
    return ((BitVec.ofNat (8 * k) (ofBigEndian bs)).toInt, s)
  else .error (.thrown (.mismatch "cannot assign negative number or type too small"))

def negativeB5 (signed : Bool) (flag : UInt8) (s : Bytes) : Except ReadFault (ℤ × Bytes) :=
  if signed then .ok (-((flag &&& 0x1f).toNat : ℤ), s)
  else .error (.thrown (.mismatch "cannot assign negative number to unsigned type"))

def unpackInt (signed : Bool) (size : ℕ) (s : Bytes) : Except ReadFault (ℤ × Bytes) := do
  let (flag, s) ← takeByte s
  if flag &&& 0x80 = 0 then return (flag.toNat, s)
  else if flag &&& 0xe0 = 0xe0 then negativeB5 signed flag s
  else if flag = 0xcc then positive size 1 s
  else if flag = 0xcd then positive size 2 s
  else if flag = 0xce then positive size 4 s
  else if flag = 0xcf then positive size 8 s
  else if flag = 0xd0 then negative signed size 1 s
  else if flag = 0xd1 then negative signed size 2 s
  else if flag = 0xd2 then negative signed size 4 s
  else if flag = 0xd3 then negative signed size 8 s
  else throw (.thrown (.mismatch "wrong type, cannot convert to int"))

/-- `unpack_strsize`, `unpack_arraysize` and `unpack_mapsize`. -/
def unpackSize (mask tag low : UInt8) (wide : List (UInt8 × ℕ)) (problem : String)
    (s : Bytes) : Except ReadFault (ℕ × Bytes) := do
  let (flag, s) ← takeByte s
  if flag &&& mask = tag then return ((flag &&& low).toNat, s)
  else match wide.find? fun w => w.1 = flag with
    | some w => do
      let (bs, s) ← takeBytes w.2 s
      return (ofBigEndian bs, s)
    | none => throw (.thrown (.mismatch problem))

def unpackStrsize : Bytes → Except ReadFault (ℕ × Bytes) :=
  unpackSize 0xe0 0xa0 0x1f [(0xd9, 1), (0xda, 2), (0xdb, 4)]
    "wrong type, cannot convert to strlen"

def unpackArraysize : Bytes → Except ReadFault (ℕ × Bytes) :=
  unpackSize 0xf0 0x90 0x0f [(0xdc, 2), (0xdd, 4)] "wrong type, cannot convert to arrlen"

def unpackMapsize : Bytes → Except ReadFault (ℕ × Bytes) :=
  unpackSize 0xf0 0x80 0x0f [(0xde, 2), (0xdf, 4)] "wrong type, cannot convert to maplen"

def unpackBool (s : Bytes) : Except ReadFault (Bool × Bytes) := do
  let (flag, s) ← takeByte s
  if flag = 0xc2 then return (false, s)
  else if flag = 0xc3 then return (true, s)
  else throw (.thrown (.mismatch "wrong data, cannot convert to bool"))

/-- `unpack_float` and `unpack_double`. The flag is used before it is taken; exceptions of
`unpack_int` are caught. -/
def unpackReal (k : ℕ) (tag : UInt8) (cast : ℤ → BitVec (8 * k)) (problem : String)
    (s : Bytes) : Except ReadFault (BitVec (8 * k) × Bytes) := do
  checkNotend s
  let flag ← current s
  if flag = tag then
    let s ← advance s
    let (bs, s) ← takeBytes k s
    return (BitVec.ofNat (8 * k) (ofBigEndian bs), s)
  else match unpackInt (decide (flag ≠ 0xcf)) 8 s with
    | .ok (i, s) => return (cast i, s)
    | .error .beyondEnd => throw .beyondEnd
    | .error (.thrown _) => throw (.thrown (.mismatch problem))

def unpackString (s : Bytes) : Except ReadFault (Bytes × Bytes) := do
  let (len, s) ← unpackStrsize s
  takeBytes len s

def unpackDstring (maxSize : ℕ) (s : Bytes) : Except ReadFault (DstringVal maxSize × Bytes) := do
  let (len, s) ← unpackStrsize s
  if maxSize < len then throw (.thrown .stringsizeExceeded)
  else
    let (bs, s) ← takeBytes len s
    if h : bs.length ≤ maxSize then return (.ofBytes bs h, s)
    else throw (.thrown .stringsizeExceeded)

def unpackIntVal (signed : Bool) (w : Width) (s : Bytes) :
    Except ReadFault (BitVec w.bits × Bytes) := do
  let (i, s) ← unpackInt signed w.bytes s
  return (BitVec.ofInt w.bits i, s)

def unpackEnum (w : Width) (s : Bytes) : Except ReadFault (BitVec w.bits × Bytes) := do
  let (tmp, s) ← unpackIntVal true .w32 s
  return (BitVec.ofInt w.bits tmp.toInt, s)

end Unstream

def Prim.unstream (casts : FloatCasts) : (p : Prim) → Bytes → Except ReadFault (p.Val × Bytes)
  | .bool => Unstream.unpackBool
  | .int signed w => Unstream.unpackIntVal signed w
  | .float => Unstream.unpackReal 4 0xca casts.float "wrong type, cannot convert to float"
  | .double => Unstream.unpackReal 8 0xcb casts.double "wrong type, cannot convert to double"
  | .string => Unstream.unpackString
  | .dstring maxSize => Unstream.unpackDstring maxSize
  | .enum _ w _ => Unstream.unpackEnum w

/-! ### Containers and objects -/

namespace Unstream

section Containers

variable {n : ℕ} {K ι α β : Type} [LinearOrder ι] {rank : K → ι}

def all (T : Unstream α) : List α → Bytes → Except ReadFault (List α × Bytes)
  | [], s => .ok ([], s)
  | a :: as, s => do
    let (a, s) ← T a s
    let (as, s) ← all T as s
    return (a :: as, s)

def push (fresh : α) (T : Unstream α) :
    ℕ → List α → Bytes → Except ReadFault (List α × Bytes)
  | 0, as, s => .ok (as, s)
  | l + 1, as, s => do
    let (val, s) ← T fresh s
    push fresh T l (as ++ [val]) s

def emplace (S : Unstream K) (T : Unstream α) :
    ℕ → K → α → KeyMap rank α → Bytes → Except ReadFault (KeyMap rank α × Bytes)
  | 0, _, _, m, s => .ok (m, s)
  | l + 1, key, val, m, s => do
    let (key, s) ← S key s
    let (val, s) ← T val s
    emplace S T l key val (m.emplace key val) s

def fixvector (T : Unstream α) : Unstream (FixVector n α) := fun v s => do
  let (len, s) ← unpackArraysize s
  if len ≠ n then throw (.thrown .indexException)
  else
    let (d, s) ← all T v.d s
    if h : d.length = n then return (⟨d, h⟩, s) else throw (.thrown .indexException)

def vector (fresh : α) (T : Unstream α) : Unstream (List α) := fun v s => do
  let (len, s) ← unpackArraysize s
  all T (resize fresh v len) s

def list (fresh : α) (T : Unstream α) : Unstream (List α) := fun v s => do
  let (len, s) ← unpackArraysize s
  push fresh T len v s

def prod (S : Unstream α) (T : Unstream β) : Unstream (α × β) := fun v s => do
  let (a, s) ← S v.1 s
  let (b, s) ← T v.2 s
  return ((a, b), s)

def map (freshKey : K) (fresh : α) (S : Unstream K) (T : Unstream α) :
    Unstream (KeyMap rank α) := fun v s => do
  let (len, s) ← unpackMapsize s
  emplace S T len freshKey fresh v s

/-- `msg_isnil`. -/
def isNil (s : Bytes) : Except ReadFault Bool := do
  checkNotend s
  let flag ← current s
  return flag = nilByte

def optional (T : Unstream α) : Unstream (FixOptional α) := fun v s => do
  if ← isNil s then
    let (_, s) ← takeByte s
    return (⟨false, v.value⟩, s)
  else
    let (value, s) ← T v.value s
    return (⟨v.valid, value⟩, s)

def object (members : ℕ) (T : Unstream α) : Unstream α := fun v s => do
  let (size, s) ← unpackArraysize s
  if size ≠ members then throw (.thrown .objectChangedSize) else T v s

end Containers

end Unstream

section Objects

variable (fresh : (t : Ty) → t.Val) (casts : FloatCasts)

mutual

/-- `msg_unpack`. -/
def Ty.unstream : (t : Ty) → Unstream t.Val
  | .prim p => fun _ => p.unstream casts
  | .fixvector _ t => .fixvector t.unstream
  | .vector t => .vector (fresh t) t.unstream
  | .list t => .list (fresh t) t.unstream
  | .map k t => .map (fresh (.prim k)) (fresh t) (fun _ => k.unstream casts) t.unstream
  | .optional t => .optional t.unstream
  | .object c => .object c.nMembers c.unstream

def Members.unstream : (ms : Members) → Unstream ms.Val
  | .nil => fun v s => .ok (v, s)
  | .cons _ t ms => .prod t.unstream ms.unstream

def DcoClass.unstream : (c : DcoClass) → Unstream c.Val
  | .root ms => ms.unstream
  | .derived parent ms => .prod parent.unstream ms.unstream

end

end Objects

end Dueca.Dco
