import Dueca.Dco.Pack

/-!
# Packing of differences

`packDataDiff` packs what is different between an object and a reference. It writes flags: a
byte tells whether the next members are different or the same, and of how many members this
holds, and behind it are the members that are different. As the number is not known when a
byte is written, `IndexMemory` leaves the byte open and places it later. An array that is
different has flags of its own for its elements.

`unPackDataDiff` changes an object by what was packed; `IndexRecall` takes the flags.
-/

namespace Dueca.Dco

open Dueca.Lib

/-! ### Flags -/

/-- The flag byte. -/
def flagByte (differs : Bool) (count : ℕ) : UInt8 :=
  UInt8.ofNat count ||| if differs then 0x80 else 0x00

/-- Place a byte that was left open. -/
def placeData (i : UInt8) (index2 : ℕ) (s : Bytes) : Except StoreFault Bytes :=
  if index2 < s.length then .ok (s.set index2 i) else .error .boundary

/-- Coding of differences. `count` is the number of members behind the first to which the open
flag byte applies; `storeIdx` is the place of that byte. Both are -1 at first. -/
structure IndexMemory where
  storeIdx : Option ℕ := none
  differs : Bool := true
  count : Option ℕ := none
  deriving DecidableEq

namespace IndexMemory

/-- Place the open flag byte. When there is none the place is -1, which as an unsigned number
is beyond every store. -/
def closeoff (im : IndexMemory) (s : Bytes) : Except StoreFault Bytes :=
  match im.storeIdx with
  | none => .error .boundary
  | some idx => placeData (flagByte im.differs (im.count.getD 0xff)) idx s

/-- Mark a member as different or the same. -/
def changed (im : IndexMemory) (s : Bytes) (diff : Bool) :
    Except StoreFault (IndexMemory × Bytes) :=
  match im.count with
  | none => .ok (⟨some s.length, diff, some 0⟩, s ++ [0])
  | some count =>
    if im.differs = diff ∧ count ≠ 0x7f then .ok ({ im with count := some (count + 1) }, s)
    else do
      let s ← im.closeoff s
      return (⟨some s.length, diff, some 0⟩, s ++ [0])

/-- The flag bytes for the first `nsame` elements of an array, which are the same. The loop
makes no more passes than there are elements. -/
def sameBytes : ℕ → ℕ → Bytes
  | 0, nsame => [UInt8.ofNat (nsame - 1)]
  | passes + 1, nsame =>
    if nsame > 0x80 then 0x7f :: sameBytes passes (nsame - 0x80) else [UInt8.ofNat (nsame - 1)]

/-- Mark the first element of an array that is different. -/
def firstchange (s : Bytes) (nsame : ℕ) : IndexMemory × Bytes :=
  let s := if nsame = 0 then s else s ++ sameBytes nsame nsame
  (⟨some s.length, true, some 0⟩, s ++ [0])

end IndexMemory

/-- Recall of differences: the number of members to which the last flag still applies. -/
structure IndexRecall where
  count : ℕ := 0
  differs : Bool := false
  deriving DecidableEq

/-- Whether the next member has changed. -/
def IndexRecall.changed (im : IndexRecall) (s : Bytes) :
    Except StoreFault (Bool × IndexRecall × Bytes) :=
  if im.count = 0 then do
    let (n, s) ← unPackNat 1 s
    let flag := UInt8.ofNat n
    let differs := decide (flag &&& 0x80 = 0x80)
    return (differs, ⟨(flag &&& 0x7f).toNat, differs⟩, s)
  else .ok (im.differs, { im with count := im.count - 1 }, s)

/-! ### The templates -/

/-- How the difference between a value and a reference is packed, and unpacked in a value that
is there. -/
structure DiffTraits (α : Type) where
  checkandpackdiff : α → α → IndexMemory × Bytes → Except StoreFault (IndexMemory × Bytes)
  checkandunpackdiff : α → IndexRecall × Bytes → Except StoreFault (α × IndexRecall × Bytes)

section Templates

variable {n : ℕ} {α β : Type} [BEq α] [BEq β]

/-- `checkandpackdiff` for `pack_single` and for `diffpack_complete`: all or nothing. -/
def packDiffSingle (T : PackTraits α) (m r : α) (st : IndexMemory × Bytes) :
    Except StoreFault (IndexMemory × Bytes) :=
  if m == r then st.1.changed st.2 false
  else do
    let (im, s) ← st.1.changed st.2 true
    return (im, s ++ T.packobject m)

def unpackDiffSingle (T : PackTraits α) (m : α) (st : IndexRecall × Bytes) :
    Except StoreFault (α × IndexRecall × Bytes) := do
  let (differs, im, s) ← st.1.changed st.2
  if differs then
    let (m, s) ← T.unpackobject m s
    return (m, im, s)
  else return (m, im, s)

/-- Whether an element differs from the first of the reference elements, or there is none. -/
def elementDiffers (m : α) : List α → Bool
  | [] => true
  | r :: _ => m != r

/-- The loop of `checkandpackdiff` for `diffpack_fixedsize`, at element `ii`. -/
def packDiffLoop (T : PackTraits α) :
    List α → List α → ℕ → Bool → IndexMemory → IndexMemory × Bytes →
      Except StoreFault (Bool × IndexMemory × IndexMemory × Bytes)
  | [], _, _, nodiff, im, arrayidx => .ok (nodiff, im, arrayidx)
  | m :: ms, rs, ii, nodiff, im, (arrayidx, s) =>
    if elementDiffers m rs then
      if nodiff then do
        let (im, s) ← im.changed s true
        let (arrayidx, s) := IndexMemory.firstchange s ii
        packDiffLoop T ms rs.tail (ii + 1) false im (arrayidx, s ++ T.packobject m)
      else do
        let (arrayidx, s) ← arrayidx.changed s true
        packDiffLoop T ms rs.tail (ii + 1) nodiff im (arrayidx, s ++ T.packobject m)
    else if nodiff then packDiffLoop T ms rs.tail (ii + 1) nodiff im (arrayidx, s)
    else do
      let (arrayidx, s) ← arrayidx.changed s false
      packDiffLoop T ms rs.tail (ii + 1) nodiff im (arrayidx, s)

/-- `checkandpackdiff` for `diffpack_fixedsize`. -/
def packDiffFixedsize (T : PackTraits α) (ms rs : List α) (st : IndexMemory × Bytes) :
    Except StoreFault (IndexMemory × Bytes) := do
  let (nodiff, im, arrayidx, s) ← packDiffLoop T ms rs 0 true st.1 ({}, st.2)
  if nodiff then im.changed s false
  else
    let s ← arrayidx.closeoff s
    return (im, s)

/-- The loop of `checkandunpackdiff` for `diffpack_fixedsize`. -/
def unpackDiffLoop (T : PackTraits α) :
    List α → IndexRecall × Bytes → Except StoreFault (List α × IndexRecall × Bytes)
  | [], st => .ok ([], st)
  | m :: ms, (arridx, s) => do
    let (differs, arridx, s) ← arridx.changed s
    let (m, s) ← if differs then T.unpackobject m s else .ok (m, s)
    let (ms, st) ← unpackDiffLoop T ms (arridx, s)
    return (m :: ms, st)

/-- `checkandunpackdiff` for `diffpack_fixedsize`. -/
def unpackDiffFixedsize (T : PackTraits α) (ms : List α) (st : IndexRecall × Bytes) :
    Except StoreFault (List α × IndexRecall × Bytes) := do
  let (differs, im, s) ← st.1.changed st.2
  if differs then
    let (ms, _, s) ← unpackDiffLoop T ms ({}, s)
    return (ms, im, s)
  else return (ms, im, s)

/-- How a size is packed. -/
def sizeTraits : PackTraits (BitVec 32) where
  packobject := packBits 4
  unpackobject _ := unPackBits 4

/-- `checkandpackdiff` for `diffpack_vector`: the size, and then as if it were fixed. -/
def packDiffVector (T : PackTraits α) (ms rs : List α) (st : IndexMemory × Bytes) :
    Except StoreFault (IndexMemory × Bytes) := do
  let st ← packDiffSingle sizeTraits (BitVec.ofNat 32 ms.length) (BitVec.ofNat 32 rs.length) st
  packDiffFixedsize T ms rs st

/-- `checkandunpackdiff` for `diffpack_vector`. -/
def unpackDiffVector (fresh : α) (T : PackTraits α) (ms : List α) (st : IndexRecall × Bytes) :
    Except StoreFault (List α × IndexRecall × Bytes) := do
  let (size, st) ← unpackDiffSingle sizeTraits (BitVec.ofNat 32 ms.length) st
  unpackDiffFixedsize T (if size.toNat ≠ ms.length then resize fresh ms size.toNat else ms) st

def boolTraits : PackTraits Bool where
  packobject := packBool
  unpackobject _ := unPackBool

/-- `checkandpackdiff` for `pack_optional`. -/
def packDiffOptional (D : DiffTraits α) (m r : FixOptional α) (st : IndexMemory × Bytes) :
    Except StoreFault (IndexMemory × Bytes) := do
  let st ← packDiffSingle boolTraits m.valid r.valid st
  if m.valid then D.checkandpackdiff m.value r.value st else return st

/-- `checkandunpackdiff` for `pack_optional`. -/
def unpackDiffOptional (D : DiffTraits α) (m : FixOptional α) (st : IndexRecall × Bytes) :
    Except StoreFault (FixOptional α × IndexRecall × Bytes) := do
  let (valid, st) ← unpackDiffSingle boolTraits m.valid st
  if valid then
    let (value, st) ← D.checkandunpackdiff m.value st
    return (⟨valid, value⟩, st)
  else return (⟨valid, m.value⟩, st)

def DiffTraits.single (T : PackTraits α) : DiffTraits α where
  checkandpackdiff := packDiffSingle T
  checkandunpackdiff := unpackDiffSingle T

def DiffTraits.fixvector (T : PackTraits α) : DiffTraits (FixVector n α) where
  checkandpackdiff m r := packDiffFixedsize T m.d r.d
  checkandunpackdiff m st := do
    let (d, st) ← unpackDiffFixedsize T m.d st
    -- as many elements as there were
    if h : d.length = n then return (⟨d, h⟩, st) else throw .dataCorrupt

def DiffTraits.vector (fresh : α) (T : PackTraits α) : DiffTraits (List α) where
  checkandpackdiff := packDiffVector T
  checkandunpackdiff := unpackDiffVector fresh T

def DiffTraits.optional (D : DiffTraits α) : DiffTraits (FixOptional α) where
  checkandpackdiff := packDiffOptional D
  checkandunpackdiff := unpackDiffOptional D

/-- One member after another. -/
def DiffTraits.prod (D : DiffTraits α) (E : DiffTraits β) : DiffTraits (α × β) where
  checkandpackdiff m r st := do
    let st ← D.checkandpackdiff m.1 r.1 st
    E.checkandpackdiff m.2 r.2 st
  checkandunpackdiff m st := do
    let (a, st) ← D.checkandunpackdiff m.1 st
    let (b, st) ← E.checkandunpackdiff m.2 st
    return ((a, b), st)

def DiffTraits.unit : DiffTraits Unit where
  checkandpackdiff _ _ st := .ok st
  checkandunpackdiff m st := .ok (m, st)

end Templates

section Objects

variable (fresh : (t : Ty) → t.Val)

/-- How differences between values of a type are packed. -/
def Ty.diffTraits : (t : Ty) → DiffTraits t.Val
  | .fixvector _ t => DiffTraits.fixvector (t.packTraits fresh)
  | .vector t => DiffTraits.vector (fresh t) (t.packTraits fresh)
  | .optional t => t.diffTraits.optional
  | t => DiffTraits.single (t.packTraits fresh)

def Members.diffTraits : (ms : Members) → DiffTraits ms.Val
  | .nil => .unit
  | .cons _ t ms => (t.diffTraits fresh).prod ms.diffTraits

/-- The members of one class, with flags of their own. -/
def Members.packDataDiff (ms : Members) (m r : ms.Val) (s : Bytes) :
    Except StoreFault Bytes := do
  let (im, s) ← (ms.diffTraits fresh).checkandpackdiff m r ({}, s)
  im.closeoff s

def Members.unPackDataDiff (ms : Members) (m : ms.Val) (s : Bytes) :
    Except StoreFault (ms.Val × Bytes) := do
  let (m, _, s) ← (ms.diffTraits fresh).checkandunpackdiff m ({}, s)
  return (m, s)

/-- The generated `packDataDiff`: first that of the parent. -/
def DcoClass.packDataDiff : (c : DcoClass) → c.Val → c.Val → Bytes → Except StoreFault Bytes
  | .root ms => ms.packDataDiff fresh
  | .derived parent ms => fun (m r : parent.Val × ms.Val) s => do
    let s ← parent.packDataDiff m.1 r.1 s
    ms.packDataDiff fresh m.2 r.2 s

/-- The generated `unPackDataDiff`. -/
def DcoClass.unPackDataDiff : (c : DcoClass) → c.Val → Bytes → Except StoreFault (c.Val × Bytes)
  | .root ms => ms.unPackDataDiff fresh
  | .derived parent ms => fun (m : parent.Val × ms.Val) s => do
    let (p, s) ← parent.unPackDataDiff m.1 s
    let (m, s) ← ms.unPackDataDiff fresh m.2 s
    return ((p, m), s)

end Objects

end Dueca.Dco
