import Dueca.Lib.Run
import Dueca.Lib.Framing
import Dueca.Dco.Data

/-!
# Packing of communication objects

A member is packed and unpacked by the templates that its traits select: single values
directly, arrays of fixed size element by element, other containers with their size in front.
A container is unpacked in the object that is there: a vector is given its new size and its
elements are unpacked in place, a list or a map is cleared and filled.

A store that is filled is taken to have room for what is packed. A store that is unpacked is
the list of the bytes that are left in it.
-/

namespace Dueca.Dco

open Dueca.Lib

abbrev Bytes := List UInt8

/-- Exceptions of the stores. -/
inductive StoreFault | boundary | empty | dataCorrupt
  deriving DecidableEq, Repr

/-- Take a number of bytes from a store. -/
def takeBytes (n : ℕ) (s : Bytes) : Except StoreFault (Bytes × Bytes) :=
  if s.length < n then .error .empty else .ok (s.take n, s.drop n)

/-- Unpack a number. -/
def unPackNat (n : ℕ) (s : Bytes) : Except StoreFault (ℕ × Bytes) := do
  let (bs, s) ← takeBytes n s
  return (ofBigEndian bs, s)

/-- Pack a size as `uint32_t`. -/
def packSize (n : ℕ) : Bytes := bigEndian 4 (n % 2 ^ 32)

theorem takeBytes_append {n : ℕ} (bs rest : Bytes) (h : bs.length = n) :
    takeBytes n (bs ++ rest) = .ok (bs, rest) := by
  rw [takeBytes, if_neg (by simp [h]), List.take_left' h, List.drop_left' h]

theorem unPackNat_bigEndian {k n : ℕ} (h : n < 256 ^ k) (rest : Bytes) :
    unPackNat k (bigEndian k n ++ rest) = .ok (n, rest) := by
  rw [unPackNat, takeBytes_append _ _ (length_bigEndian k n)]
  change Except.ok (ofBigEndian (bigEndian k n), rest) = _
  rw [ofBigEndian_bigEndian h]

theorem unPackNat_packSize {n : ℕ} (h : n < 2 ^ 32) (rest : Bytes) :
    unPackNat 4 (packSize n ++ rest) = .ok (n, rest) := by
  rw [packSize, Nat.mod_eq_of_lt h, unPackNat_bigEndian (by simpa using h)]

/-! ### Single values -/

/-- Pack an integer, or the bits of a floating point value, of `k` bytes. -/
def packBits (k : ℕ) (v : BitVec (8 * k)) : Bytes := bigEndian k v.toNat

def unPackBits (k : ℕ) (s : Bytes) : Except StoreFault (BitVec (8 * k) × Bytes) := do
  let (n, s) ← unPackNat k s
  return (BitVec.ofNat (8 * k) n, s)

def packBool (v : Bool) : Bytes := [if v then 0xff else 0]

def unPackBool (s : Bytes) : Except StoreFault (Bool × Bytes) := do
  let (n, s) ← unPackNat 1 s
  return (n ≠ 0, s)

/-- Pack a string, with its length in front. -/
def packString (v : Bytes) : Bytes := packSize v.length ++ v.take (v.length % 2 ^ 32)

def unPackString (s : Bytes) : Except StoreFault (Bytes × Bytes) := do
  let (l, s) ← unPackNat 4 s
  takeBytes l s

/-- `Dstring::packData`: the characters, and a zero. -/
def DstringVal.packData {maxSize : ℕ} (v : DstringVal maxSize) : Bytes := v.1 ++ [0]

/-- The loop of `Dstring::unPackData`, with `room` places left and the character `c` read:
the characters up to the zero. -/
def dstringLoop : ℕ → UInt8 → Bytes → Except StoreFault (Bytes × Bytes)
  | 0, c, s => if c ≠ 0 then .error .dataCorrupt else .ok ([], s)
  | room + 1, c, s =>
    if c = 0 then .ok ([], s)
    else do
      let (next, s) ← unPackNat 1 s
      let (data, s) ← dstringLoop room (UInt8.ofNat next) s
      return (c :: data, s)

def DstringVal.unPackData (maxSize : ℕ) (s : Bytes) :
    Except StoreFault (DstringVal maxSize × Bytes) := do
  let (c, s) ← unPackNat 1 s
  let (data, s) ← dstringLoop (maxSize + 1) (UInt8.ofNat c) s
  -- if the zero comes just behind a full array, the source leaves that without a zero
  if h : data.length ≤ maxSize ∧ 0 ∉ data then return (⟨data, h⟩, s)
  else throw .dataCorrupt

/-- `packData` for the single values. An enumerated value is packed as its integer. -/
def Prim.packData : (p : Prim) → p.Val → Bytes
  | .bool => packBool
  | .int _ w => packBits w.bytes
  | .float => packBits 4
  | .double => packBits 8
  | .string => packString
  | .dstring _ => DstringVal.packData
  | .enum _ w _ => packBits w.bytes

def Prim.unPackData : (p : Prim) → Bytes → Except StoreFault (p.Val × Bytes)
  | .bool => unPackBool
  | .int _ w => unPackBits w.bytes
  | .float => unPackBits 4
  | .double => unPackBits 8
  | .string => unPackString
  | .dstring maxSize => DstringVal.unPackData maxSize
  | .enum _ w _ => unPackBits w.bytes

/-- The length of a string fits in 32 bits. -/
def Prim.Sized : (p : Prim) → p.Val → Prop
  | .string => fun (v : Bytes) => v.length < 2 ^ 32
  | _ => fun _ => True

theorem unPackBits_packBits (k : ℕ) (v : BitVec (8 * k)) (rest : Bytes) :
    unPackBits k (packBits k v ++ rest) = .ok (v, rest) := by
  have hlt : v.toNat < 256 ^ k := by
    have hlt := v.isLt
    rwa [Nat.pow_mul] at hlt
  rw [unPackBits, packBits, unPackNat_bigEndian hlt]
  change Except.ok (BitVec.ofNat (8 * k) v.toNat, rest) = _
  rw [BitVec.ofNat_toNat, BitVec.setWidth_eq]

theorem unPackNat_byte (c : UInt8) (s : Bytes) : unPackNat 1 (c :: s) = .ok (c.toNat, s) := by
  have h := unPackNat_bigEndian (k := 1) (n := c.toNat) c.toNat_lt s
  simpa [bigEndian] using h

theorem unPackBool_packBool (v : Bool) (rest : Bytes) :
    unPackBool (packBool v ++ rest) = .ok (v, rest) := by
  rw [unPackBool, packBool, List.singleton_append, unPackNat_byte]
  cases v <;> rfl

theorem unPackString_packString {v : Bytes} (h : v.length < 2 ^ 32) (rest : Bytes) :
    unPackString (packString v ++ rest) = .ok (v, rest) := by
  rw [unPackString, packString, List.append_assoc, unPackNat_packSize h]
  change takeBytes v.length (v.take (v.length % 2 ^ 32) ++ rest) = _
  rw [Nat.mod_eq_of_lt h, List.take_length, takeBytes_append v rest rfl]

/-- The loop reads up to the zero, when there is room for it. -/
theorem dstringLoop_append (data rest : Bytes) (hzero : 0 ∉ data) {room : ℕ}
    (hroom : data.length < room) :
    ∃ n s, unPackNat 1 (data ++ 0 :: rest) = .ok (n, s) ∧
      dstringLoop room (UInt8.ofNat n) s = .ok (data, rest) := by
  induction data generalizing room with
  | nil =>
    obtain ⟨room, rfl⟩ := Nat.exists_eq_succ_of_ne_zero hroom.ne'
    exact ⟨0, rest, unPackNat_byte 0 rest, rfl⟩
  | cons c data ih =>
    obtain ⟨room, rfl⟩ := Nat.exists_eq_succ_of_ne_zero (Nat.ne_of_gt (Nat.zero_lt_of_lt hroom))
    have hc : c ≠ 0 := fun h => hzero (h ▸ List.mem_cons_self)
    obtain ⟨n, s, hn, hs⟩ :=
      ih (fun h => hzero (List.mem_cons_of_mem _ h)) (Nat.lt_of_succ_lt_succ hroom)
    refine ⟨c.toNat, data ++ 0 :: rest, unPackNat_byte c _, ?_⟩
    rw [UInt8.ofNat_toNat, dstringLoop, if_neg hc, hn]
    change (dstringLoop room (UInt8.ofNat n) s >>= _) = _
    rw [hs]
    rfl

theorem DstringVal.unPackData_packData {maxSize : ℕ} (v : DstringVal maxSize)
    (rest : Bytes) : unPackData maxSize (v.packData ++ rest) = .ok (v, rest) := by
  obtain ⟨data, hlen, hzero⟩ := v
  obtain ⟨n, s, hn, hs⟩ := dstringLoop_append data rest hzero (Nat.lt_succ_of_le hlen)
  change (unPackNat 1 (data ++ [0] ++ rest) >>= _) = _
  rw [List.append_assoc, List.singleton_append, hn]
  change (dstringLoop (maxSize + 1) (UInt8.ofNat n) s >>= _) = _
  rw [hs]
  exact dif_pos (And.intro hlen hzero)

theorem Prim.unPackData_packData (p : Prim) (v : p.Val) (rest : Bytes) (h : p.Sized v) :
    p.unPackData (p.packData v ++ rest) = .ok (v, rest) := by
  cases p with
  | bool => exact unPackBool_packBool v rest
  | int signed w => exact unPackBits_packBits w.bytes v rest
  | float => exact unPackBits_packBits 4 v rest
  | double => exact unPackBits_packBits 8 v rest
  | string => exact unPackString_packString h rest
  | dstring maxSize => exact DstringVal.unPackData_packData v rest
  | enum signed w names => exact unPackBits_packBits w.bytes v rest

/-! ### The templates -/

/-- How values of a type are packed, and unpacked in a value that is there. -/
structure PackTraits (α : Type) where
  packobject : α → Bytes
  unpackobject : α → Bytes → Except StoreFault (α × Bytes)

section Templates

variable {n : ℕ} {K ι α β : Type} [LinearOrder ι] {rank : K → ι}

/-- `packobject` for `pack_constant_size`. -/
def packConstantSize (T : PackTraits α) (as : List α) : Bytes := as.flatMap T.packobject

/-- `packobject` for `pack_var_size`. -/
def packVarSize (T : PackTraits α) (as : List α) : Bytes :=
  packSize as.length ++ packConstantSize T as

/-- `unpackobject` for `pack_constant_size`. -/
def unpackConstantSize (T : PackTraits α) : List α → Bytes → Except StoreFault (List α × Bytes)
  | [], s => .ok ([], s)
  | a :: as, s => do
    let (a, s) ← T.unpackobject a s
    let (as, s) ← unpackConstantSize T as s
    return (a :: as, s)

/-- `resize`: new elements hold what a new element holds. -/
def resize (fresh : α) (as : List α) (l : ℕ) : List α :=
  as.take l ++ List.replicate (l - as.length) fresh

theorem length_resize (fresh : α) (as : List α) (l : ℕ) : (resize fresh as l).length = l := by
  simp only [resize, List.length_append, List.length_take, List.length_replicate]
  omega

/-- `unpackobject` for `unpack_resize`. -/
def unpackResize (fresh : α) (T : PackTraits α) (as : List α) (s : Bytes) :
    Except StoreFault (List α × Bytes) := do
  let (l, s) ← unPackNat 4 s
  unpackConstantSize T (resize fresh as l) s

/-- The loop of `unpackobject` for `unpack_extend`. -/
def extendLoop (fresh : α) (T : PackTraits α) :
    ℕ → List α → Bytes → Except StoreFault (List α × Bytes)
  | 0, as, s => .ok (as, s)
  | l + 1, as, s => do
    let (tmp, s) ← T.unpackobject fresh s
    extendLoop fresh T l (as ++ [tmp]) s

/-- `unpackobject` for `unpack_extend`. -/
def unpackExtend (fresh : α) (T : PackTraits α) (s : Bytes) :
    Except StoreFault (List α × Bytes) := do
  let (l, s) ← unPackNat 4 s
  extendLoop fresh T l [] s

/-- The loop of `unpackobject` for `unpack_extend_map`; all pairs are unpacked in `tmp`. -/
def extendMapLoop (T : PackTraits (K × α)) :
    ℕ → K × α → KeyMap rank α → Bytes → Except StoreFault (KeyMap rank α × Bytes)
  | 0, _, m, s => .ok (m, s)
  | l + 1, tmp, m, s => do
    let (tmp, s) ← T.unpackobject tmp s
    extendMapLoop T l tmp (m.emplace tmp.1 tmp.2) s

/-- `unpackobject` for `unpack_extend_map`. -/
def unpackExtendMap (fresh : K × α) (T : PackTraits (K × α)) (s : Bytes) :
    Except StoreFault (KeyMap rank α × Bytes) := do
  let (l, s) ← unPackNat 4 s
  extendMapLoop T l fresh .empty s

/-- `packobject` for `pack_optional`. -/
def packOptional (T : PackTraits α) (a : FixOptional α) : Bytes :=
  packBool a.valid ++ if a.valid then T.packobject a.value else []

/-- `unpackobject` for `pack_optional`. -/
def unpackOptional (T : PackTraits α) (a : FixOptional α) (s : Bytes) :
    Except StoreFault (FixOptional α × Bytes) := do
  let (valid, s) ← unPackBool s
  if valid then
    let (value, s) ← T.unpackobject a.value s
    return (⟨valid, value⟩, s)
  else return (⟨valid, a.value⟩, s)

/-- One member after another; also the key and the value of a pair. -/
def PackTraits.prod (S : PackTraits α) (T : PackTraits β) : PackTraits (α × β) where
  packobject v := S.packobject v.1 ++ T.packobject v.2
  unpackobject v s := do
    let (a, s) ← S.unpackobject v.1 s
    let (b, s) ← T.unpackobject v.2 s
    return ((a, b), s)

def PackTraits.unit : PackTraits Unit where
  packobject _ := []
  unpackobject v s := .ok (v, s)

/-- `pack_single`. -/
def PackTraits.single (p : Prim) : PackTraits p.Val where
  packobject := p.packData
  unpackobject _ := p.unPackData

/-- The traits of `fixvector`. -/
def PackTraits.fixvector (T : PackTraits α) : PackTraits (FixVector n α) where
  packobject a := packConstantSize T a.d
  unpackobject a s := do
    let (d, s) ← unpackConstantSize T a.d s
    -- as many elements as there were
    if h : d.length = n then return (⟨d, h⟩, s) else throw .dataCorrupt

/-- The traits of `std::vector` and `varvector`. -/
def PackTraits.vector (fresh : α) (T : PackTraits α) : PackTraits (List α) where
  packobject := packVarSize T
  unpackobject := unpackResize fresh T

/-- The traits of `std::list`. -/
def PackTraits.list (fresh : α) (T : PackTraits α) : PackTraits (List α) where
  packobject := packVarSize T
  unpackobject _ := unpackExtend fresh T

/-- The traits of `std::map`. -/
def PackTraits.map (fresh : K × α) (T : PackTraits (K × α)) : PackTraits (KeyMap rank α) where
  packobject m := packVarSize T m.entries
  unpackobject _ := unpackExtendMap fresh T

/-- The traits of `fix_optional`. -/
def PackTraits.optional (T : PackTraits α) : PackTraits (FixOptional α) where
  packobject := packOptional T
  unpackobject := unpackOptional T

end Templates

section Objects

variable (fresh : (t : Ty) → t.Val)

mutual

/-- How values of a type are packed. -/
def Ty.packTraits : (t : Ty) → PackTraits t.Val
  | .prim p => .single p
  | .fixvector _ t => t.packTraits.fixvector
  | .vector t => t.packTraits.vector (fresh t)
  | .list t => t.packTraits.list (fresh t)
  | .map k t => ((PackTraits.single k).prod t.packTraits).map (fresh (.prim k), fresh t)
  | .optional t => t.packTraits.optional
  | .object c => c.packTraits

def Members.packTraits : (ms : Members) → PackTraits ms.Val
  | .nil => .unit
  | .cons _ t ms => t.packTraits.prod ms.packTraits

/-- The generated `packData` and `unPackData`: first the members of the parent. -/
def DcoClass.packTraits : (c : DcoClass) → PackTraits c.Val
  | .root ms => ms.packTraits
  | .derived parent ms => parent.packTraits.prod ms.packTraits

end

end Objects

mutual

/-- All sizes fit in the 32 bits in which they are packed. -/
def Ty.Sized : (t : Ty) → t.Val → Prop
  | .prim p => p.Sized
  | .fixvector n t => fun (v : FixVector n t.Val) => ∀ a ∈ v.d, t.Sized a
  | .vector t => fun (v : List t.Val) => v.length < 2 ^ 32 ∧ ∀ a ∈ v, t.Sized a
  | .list t => fun (v : List t.Val) => v.length < 2 ^ 32 ∧ ∀ a ∈ v, t.Sized a
  | .map k t => fun (v : KeyMap k.rank t.Val) =>
    v.entries.length < 2 ^ 32 ∧ ∀ e ∈ v.entries, k.Sized e.1 ∧ t.Sized e.2
  | .optional t => fun (v : FixOptional t.Val) => v.valid = true → t.Sized v.value
  | .object c => c.Sized

def Members.Sized : (ms : Members) → ms.Val → Prop
  | .nil => fun _ => True
  | .cons _ t ms => fun (v : t.Val × ms.Val) => t.Sized v.1 ∧ ms.Sized v.2

def DcoClass.Sized : (c : DcoClass) → c.Val → Prop
  | .root ms => ms.Sized
  | .derived parent ms => fun (v : parent.Val × ms.Val) => parent.Sized v.1 ∧ ms.Sized v.2

end

/-! ### Unpacking what was packed -/

/-- Unpacking in any value what was packed from a value with suitable sizes gives an equal
value, and takes exactly the bytes packed. -/
def PackTraits.Lawful {α : Type} [BEq α] (T : PackTraits α) (Sized : α → Prop) : Prop :=
  ∀ q v rest, Sized v →
    ∃ q', T.unpackobject q (T.packobject v ++ rest) = .ok (q', rest) ∧ (q' == v) = true

section Laws

variable {n : ℕ} {K ι α β : Type} [LinearOrder ι] {rank : K → ι} [BEq α] [BEq β]
  {S : PackTraits α} {T : PackTraits β} {P : α → Prop} {Q : β → Prop} {fresh : α}

theorem PackTraits.Lawful.prod (hS : S.Lawful P) (hT : T.Lawful Q) :
    (S.prod T).Lawful fun v => P v.1 ∧ Q v.2 := by
  rintro ⟨q, r⟩ ⟨a, b⟩ rest ⟨ha, hb⟩
  obtain ⟨q', hq, hqa⟩ := hS q a (T.packobject b ++ rest) ha
  obtain ⟨r', hr, hrb⟩ := hT r b rest hb
  refine ⟨(q', r'), ?_, Bool.and_eq_true_iff.mpr ⟨hqa, hrb⟩⟩
  simp only [PackTraits.prod, List.append_assoc, hq]
  change (T.unpackobject r (T.packobject b ++ rest) >>= _) = _
  rw [hr]
  rfl

theorem PackTraits.Lawful.unpackConstantSize (hS : S.Lawful P) {as qs : List α}
    (hlen : qs.length = as.length) (has : ∀ a ∈ as, P a) (rest : Bytes) :
    ∃ qs', unpackConstantSize S qs (packConstantSize S as ++ rest) = .ok (qs', rest) ∧
      (qs' == as) = true := by
  induction as generalizing qs with
  | nil =>
    obtain rfl := List.eq_nil_of_length_eq_zero hlen
    exact ⟨[], rfl, rfl⟩
  | cons a as ih =>
    obtain ⟨q, qs, rfl⟩ := List.exists_cons_of_length_eq_add_one hlen
    obtain ⟨q', hq, hqa⟩ :=
      hS q a (packConstantSize S as ++ rest) (has a List.mem_cons_self)
    obtain ⟨qs', hqs, hqsa⟩ :=
      ih (Nat.succ.inj hlen) fun b hb => has b (List.mem_cons_of_mem _ hb)
    refine ⟨q' :: qs', ?_, by rw [List.cons_beq_cons, hqa, hqsa]; rfl⟩
    simp only [packConstantSize, List.flatMap_cons, List.append_assoc] at hq ⊢
    rw [Dco.unpackConstantSize, hq]
    change (Dco.unpackConstantSize S qs (packConstantSize S as ++ rest) >>= _) = _
    rw [hqs]
    rfl

theorem PackTraits.Lawful.fixvector (hS : S.Lawful P) :
    (S.fixvector : PackTraits (FixVector n α)).Lawful fun v => ∀ a ∈ v.d, P a := by
  rintro ⟨q, hq⟩ ⟨d, hd⟩ rest has
  obtain ⟨qs, hqs, hbeq⟩ := hS.unpackConstantSize (hq.trans hd.symm) has rest
  have hlen : qs.length = n := (length_eq_of_beq hbeq).trans hd
  refine ⟨⟨qs, hlen⟩, ?_, hbeq⟩
  simp only [PackTraits.fixvector, hqs]
  exact dif_pos hlen

theorem PackTraits.Lawful.vector (hS : S.Lawful P) :
    (S.vector fresh).Lawful fun v => v.length < 2 ^ 32 ∧ ∀ a ∈ v, P a := by
  rintro q as rest ⟨hlen, has⟩
  obtain ⟨qs, hqs, hbeq⟩ :=
    hS.unpackConstantSize (length_resize fresh q as.length) has rest
  refine ⟨qs, ?_, hbeq⟩
  simp only [PackTraits.vector, packVarSize, unpackResize, List.append_assoc,
    unPackNat_packSize hlen]
  exact hqs

theorem PackTraits.Lawful.extendLoop (hS : S.Lawful P) (fresh : α) {as : List α}
    (has : ∀ a ∈ as, P a) (qs : List α) (rest : Bytes) :
    ∃ qs', extendLoop fresh S as.length qs (packConstantSize S as ++ rest) =
        .ok (qs ++ qs', rest) ∧ (qs' == as) = true := by
  induction as generalizing qs with
  | nil => exact ⟨[], by rw [List.append_nil]; rfl, rfl⟩
  | cons a as ih =>
    obtain ⟨q', hq, hqa⟩ :=
      hS fresh a (packConstantSize S as ++ rest) (has a List.mem_cons_self)
    obtain ⟨qs', hqs, hqsa⟩ := ih (fun b hb => has b (List.mem_cons_of_mem _ hb)) (qs ++ [q'])
    refine ⟨q' :: qs', ?_, by rw [List.cons_beq_cons, hqa, hqsa]; rfl⟩
    simp only [packConstantSize, List.flatMap_cons, List.append_assoc] at hq ⊢
    rw [List.length_cons, Dco.extendLoop, hq]
    rw [List.append_assoc, List.singleton_append] at hqs
    exact hqs

theorem PackTraits.Lawful.list (hS : S.Lawful P) :
    (S.list fresh).Lawful fun v => v.length < 2 ^ 32 ∧ ∀ a ∈ v, P a := by
  rintro q as rest ⟨hlen, has⟩
  obtain ⟨qs, hqs, hbeq⟩ := hS.extendLoop fresh has [] rest
  refine ⟨qs, ?_, hbeq⟩
  simp only [PackTraits.list, packVarSize, unpackExtend, List.append_assoc,
    unPackNat_packSize hlen]
  exact hqs

/-- A map is filled with pairs that are in order: they come one behind the other. -/
theorem PackTraits.Lawful.extendMapLoop [BEq K] [LawfulBEq K] {R : K × α → Prop}
    {T : PackTraits (K × α)} (hT : T.Lawful R) {es : List (K × α)} (hes : ∀ e ∈ es, R e)
    (tmp : K × α) (m : KeyMap rank α)
    (hsorted : (m.entries ++ es).Pairwise fun e f => rank e.1 < rank f.1) (rest : Bytes) :
    ∃ m' es', extendMapLoop T es.length tmp m (packConstantSize T es ++ rest) = .ok (m', rest) ∧
      m'.entries = m.entries ++ es' ∧ (es' == es) = true := by
  induction es generalizing tmp m with
  | nil => exact ⟨m, [], rfl, (List.append_nil _).symm, rfl⟩
  | cons e es ih =>
    obtain ⟨⟨k, v⟩, hq, hqe⟩ :=
      hT tmp e (packConstantSize T es ++ rest) (hes e List.mem_cons_self)
    obtain ⟨hk, hv⟩ := Bool.and_eq_true_iff.mp hqe
    obtain rfl : k = e.1 := eq_of_beq hk
    have hput : (m.emplace e.1 v).entries = m.entries ++ [(e.1, v)] :=
      KeyMap.put_of_forall_lt id v
        fun f hf => (List.pairwise_append.mp hsorted).2.2 f hf e List.mem_cons_self
    have hsorted' : ((m.emplace e.1 v).entries ++ es).Pairwise
        fun e f => rank e.1 < rank f.1 := by
      rw [hput, List.append_assoc, List.singleton_append]
      rw [List.pairwise_append, List.pairwise_cons] at hsorted ⊢
      refine ⟨hsorted.1, hsorted.2.1, fun f hf g hg => ?_⟩
      obtain rfl | hg := List.mem_cons.mp hg
      · exact hsorted.2.2 f hf e List.mem_cons_self
      · exact hsorted.2.2 f hf g (List.mem_cons_of_mem _ hg)
    obtain ⟨m', es', hm', hentries, hbeq⟩ :=
      ih (fun f hf => hes f (List.mem_cons_of_mem _ hf)) (e.1, v) (m.emplace e.1 v) hsorted'
    refine ⟨m', (e.1, v) :: es', ?_, ?_, by rw [List.cons_beq_cons, hqe, hbeq]; rfl⟩
    · simp only [packConstantSize, List.flatMap_cons, List.append_assoc] at hq ⊢
      rw [List.length_cons, Dco.extendMapLoop, hq]
      exact hm'
    · rw [hentries, hput, List.append_assoc, List.singleton_append]

theorem PackTraits.Lawful.map [BEq K] [LawfulBEq K] {R : K × α → Prop} {T : PackTraits (K × α)}
    (hT : T.Lawful R) (fresh : K × α) :
    (T.map fresh : PackTraits (KeyMap rank α)).Lawful
      fun m => m.entries.length < 2 ^ 32 ∧ ∀ e ∈ m.entries, R e := by
  rintro q m rest ⟨hlen, hes⟩
  obtain ⟨m', es', hm', hentries, hbeq⟩ :=
    hT.extendMapLoop hes fresh KeyMap.empty m.sorted rest
  refine ⟨m', ?_, show (m'.entries == m.entries) = true from hentries ▸ hbeq⟩
  simp only [PackTraits.map, packVarSize, unpackExtendMap, List.append_assoc,
    unPackNat_packSize hlen]
  exact hm'

theorem PackTraits.Lawful.optional (hS : S.Lawful P) :
    S.optional.Lawful fun v => v.valid = true → P v.value := by
  rintro ⟨q, qv⟩ ⟨valid, value⟩ rest hv
  simp only [PackTraits.optional, packOptional, unpackOptional, List.append_assoc,
    unPackBool_packBool]
  cases valid with
  | false => exact ⟨⟨false, qv⟩, rfl, fixOptional_beq_iff.mpr ⟨rfl, nofun⟩⟩
  | true =>
    obtain ⟨q', hq, hbeq⟩ := hS qv value rest (hv rfl)
    refine ⟨⟨true, q'⟩, ?_, fixOptional_beq_iff.mpr ⟨rfl, fun _ => hbeq⟩⟩
    change (S.unpackobject qv (S.packobject value ++ rest) >>= _) = _
    rw [hq]
    rfl

end Laws

theorem PackTraits.single_lawful (p : Prim) : (PackTraits.single p).Lawful p.Sized :=
  fun _ v rest h => ⟨v, p.unPackData_packData v rest h, BEq.refl v⟩

theorem PackTraits.unit_lawful : PackTraits.unit.Lawful fun _ => True :=
  fun q _ _ _ => ⟨q, rfl, rfl⟩

section Objects

variable (fresh : (t : Ty) → t.Val)

mutual

/-- Unpacking a value of a type gives back the value that was packed. -/
theorem Ty.unpack_pack : (t : Ty) → (t.packTraits fresh).Lawful t.Sized
  | .prim p => PackTraits.single_lawful p
  | .fixvector _ t => (t.unpack_pack).fixvector
  | .vector t => (t.unpack_pack).vector
  | .list t => (t.unpack_pack).list
  | .map k t => ((PackTraits.single_lawful k).prod t.unpack_pack).map _
  | .optional t => (t.unpack_pack).optional
  | .object c => c.unpack_pack

theorem Members.unpack_pack : (ms : Members) → (ms.packTraits fresh).Lawful ms.Sized
  | .nil => PackTraits.unit_lawful
  | .cons _ t ms => (t.unpack_pack).prod ms.unpack_pack

/-- Unpacking an object gives back the object that was packed. -/
theorem DcoClass.unpack_pack : (c : DcoClass) → (c.packTraits fresh).Lawful c.Sized
  | .root ms => ms.unpack_pack
  | .derived parent ms => (parent.unpack_pack).prod ms.unpack_pack

end

end Objects

end Dueca.Dco
