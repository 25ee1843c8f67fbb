import Dueca.Lib.KeyMap
import Mathlib.Data.List.Lex

/-!
# Communication objects

The members of a communication object (DCO) are single values, arrays, lists, maps, optional
values and other communication objects, in any nesting. `Ty` are the member types, `DcoClass` the
generated classes: a class has members of its own, and those of its parent. `Ty.Val` are the
values of a type.

Integers and enumerated values are bit patterns of the width they have, and so are floating
point values. An optional value always has a `value` part; what it holds while the value is
not valid is left there, and `==` does not look at it.

What an object, an element or a helper variable holds before it is given a value is a
parameter of the operations, `fresh`.
-/

namespace Dueca.Dco

open Dueca.Lib

/-- Widths of integers. -/
inductive Width | w8 | w16 | w32 | w64
  deriving DecidableEq, Repr

/-- The size in bytes. -/
def Width.bytes : Width → ℕ
  | .w8 => 1
  | .w16 => 2
  | .w32 => 4
  | .w64 => 8

def Width.bits (w : Width) : ℕ := 8 * w.bytes

/-- Single values. An enumeration has an integer type, and names for some of its values. -/
inductive Prim
  | bool
  | int (signed : Bool) (w : Width)
  | float
  | double
  | string
  | dstring (maxSize : ℕ)
  | enum (signed : Bool) (w : Width) (names : List (List UInt8 × BitVec w.bits))
  deriving DecidableEq

/-- The characters of a `Dstring` before its first zero; the array has one more place than
`maxSize`. -/
def DstringVal (maxSize : ℕ) : Type := { data : List UInt8 // data.length ≤ maxSize ∧ 0 ∉ data }

instance (maxSize : ℕ) : DecidableEq (DstringVal maxSize) :=
  inferInstanceAs (DecidableEq { data : List UInt8 // data.length ≤ maxSize ∧ 0 ∉ data })

def Prim.Val : Prim → Type
  | .bool => Bool
  | .int _ w => BitVec w.bits
  | .float => BitVec 32
  | .double => BitVec 64
  | .string => List UInt8
  | .dstring maxSize => DstringVal maxSize
  | .enum _ w _ => BitVec w.bits

instance : (p : Prim) → DecidableEq p.Val
  | .bool => inferInstanceAs (DecidableEq Bool)
  | .int _ w => inferInstanceAs (DecidableEq (BitVec w.bits))
  | .float => inferInstanceAs (DecidableEq (BitVec 32))
  | .double => inferInstanceAs (DecidableEq (BitVec 64))
  | .string => inferInstanceAs (DecidableEq (List UInt8))
  | .dstring maxSize => inferInstanceAs (DecidableEq (DstringVal maxSize))
  | .enum _ w _ => inferInstanceAs (DecidableEq (BitVec w.bits))

/-- The place of an integer in the order of its type. -/
def intRank (signed : Bool) {w : ℕ} (v : BitVec w) : ℕ :=
  if signed then (v.toInt + 2 ^ w).toNat else v.toNat

/-- The order of the values as keys of a map. -/
def Prim.rank : (p : Prim) → p.Val → List ℕ
  | .bool, v => [Bool.toNat v]
  | .int signed _, v => [intRank signed v]
  | .float, v => [BitVec.toNat v]
  | .double, v => [BitVec.toNat v]
  | .string, v => List.map UInt8.toNat v
  | .dstring _, v => List.map UInt8.toNat v.1
  | .enum signed _ _, v => [intRank signed v]

/-- A vector of fixed size. -/
structure FixVector (n : ℕ) (α : Type) where
  d : List α
  size_d : d.length = n

/-- An optional value. -/
structure FixOptional (α : Type) where
  valid : Bool
  value : α

mutual

/-- The types of members. -/
inductive Ty
  | prim (p : Prim)
  | fixvector (n : ℕ) (t : Ty)
  | vector (t : Ty)
  | list (t : Ty)
  | map (k : Prim) (t : Ty)
  | optional (t : Ty)
  | object (c : DcoClass)

/-- The members a class adds, by name. -/
inductive Members
  | nil
  | cons (name : List UInt8) (t : Ty) (ms : Members)

/-- Generated classes. -/
inductive DcoClass
  | root (members : Members)
  | derived (parent : DcoClass) (members : Members)

end

mutual

/-- The values of a type. -/
def Ty.Val : Ty → Type
  | .prim p => p.Val
  | .fixvector n t => FixVector n t.Val
  | .vector t => List t.Val
  | .list t => List t.Val
  | .map k t => KeyMap k.rank t.Val
  | .optional t => FixOptional t.Val
  | .object c => c.Val

def Members.Val : Members → Type
  | .nil => Unit
  | .cons _ t ms => t.Val × ms.Val

def DcoClass.Val : DcoClass → Type
  | .root ms => ms.Val
  | .derived parent ms => parent.Val × ms.Val

end

/-! ### Zeroed values -/

def Prim.zero : (p : Prim) → p.Val
  | .bool => false
  | .int _ w => (0 : BitVec w.bits)
  | .float => (0 : BitVec 32)
  | .double => (0 : BitVec 64)
  | .string => ([] : List UInt8)
  | .dstring _ => ⟨[], Nat.zero_le _, List.not_mem_nil⟩
  | .enum _ w _ => (0 : BitVec w.bits)

mutual

/-- What values hold when their memory is cleared. -/
def Ty.zero : (t : Ty) → t.Val
  | .prim p => p.zero
  | .fixvector n t => ⟨List.replicate n t.zero, List.length_replicate⟩
  | .vector t => ([] : List t.Val)
  | .list t => ([] : List t.Val)
  | .map k t => (KeyMap.empty : KeyMap k.rank t.Val)
  | .optional t => ⟨false, t.zero⟩
  | .object c => c.zero

def Members.zero : (ms : Members) → ms.Val
  | .nil => ()
  | .cons _ t ms => (t.zero, ms.zero)

def DcoClass.zero : (c : DcoClass) → c.Val
  | .root ms => ms.zero
  | .derived parent ms => (parent.zero, ms.zero)

end

/-! ### Comparison -/

section Containers

variable {n : ℕ} {α β : Type} [BEq α] [BEq β]

instance : BEq (FixVector n α) := ⟨fun a b => a.d == b.d⟩

instance : BEq (FixOptional α) :=
  ⟨fun a b => (a.valid && b.valid) && a.value == b.value || !a.valid && !b.valid⟩

instance {K ι : Type} [LinearOrder ι] [BEq K] {rank : K → ι} : BEq (KeyMap rank α) :=
  ⟨fun a b => a.entries == b.entries⟩

theorem list_beq_iff {as bs : List α} :
    (as == bs) = true ↔ List.Forall₂ (fun a b => (a == b) = true) as bs := by
  induction as generalizing bs with
  | nil => cases bs <;> simp
  | cons a as ih =>
    cases bs with
    | nil => simp
    | cons b bs => simp [ih]

theorem length_eq_of_beq {as bs : List α} (h : (as == bs) = true) : as.length = bs.length :=
  (list_beq_iff.mp h).length_eq

theorem fixOptional_beq_iff {a b : FixOptional α} :
    (a == b) = true ↔ a.valid = b.valid ∧ (a.valid = true → (a.value == b.value) = true) := by
  change ((a.valid && b.valid) && a.value == b.value || !a.valid && !b.valid) = true ↔ _
  cases a.valid <;> cases b.valid <;> simp

variable [EquivBEq α] [EquivBEq β]

instance listEquivBEq : EquivBEq (List α) where
  rfl := ReflBEq.rfl
  symm h := list_beq_iff.mpr ((list_beq_iff.mp h).flip.imp fun _ _ => BEq.symm)
  trans := by
    intro as bs cs hab hbc
    induction as generalizing bs cs with
    | nil =>
      obtain rfl := List.forall₂_nil_left_iff.mp (list_beq_iff.mp hab)
      exact hbc
    | cons a as ih =>
      cases bs with
      | nil => simp at hab
      | cons b bs =>
        cases cs with
        | nil => simp at hbc
        | cons c cs =>
          simp only [List.cons_beq_cons, Bool.and_eq_true] at hab hbc ⊢
          exact ⟨BEq.trans hab.1 hbc.1, ih hab.2 hbc.2⟩

instance prodEquivBEq : EquivBEq (α × β) where
  rfl := ReflBEq.rfl
  symm := by
    rintro ⟨a, b⟩ ⟨a', b'⟩ h
    obtain ⟨ha, hb⟩ := Bool.and_eq_true_iff.mp h
    exact Bool.and_eq_true_iff.mpr ⟨BEq.symm ha, BEq.symm hb⟩
  trans := by
    rintro ⟨a, b⟩ ⟨a', b'⟩ ⟨a'', b''⟩ h h'
    obtain ⟨ha, hb⟩ := Bool.and_eq_true_iff.mp h
    obtain ⟨ha', hb'⟩ := Bool.and_eq_true_iff.mp h'
    exact Bool.and_eq_true_iff.mpr ⟨BEq.trans ha ha', BEq.trans hb hb'⟩

instance : EquivBEq (FixVector n α) where
  rfl {a} := BEq.refl a.d
  symm {a b} h := @PartialEquivBEq.symm (List α) _ _ a.d b.d h
  trans {a b c} h h' := @PartialEquivBEq.trans (List α) _ _ a.d b.d c.d h h'

instance : EquivBEq (FixOptional α) where
  rfl := fixOptional_beq_iff.mpr ⟨rfl, fun _ => BEq.rfl⟩
  symm h := by
    obtain ⟨hvalid, hvalue⟩ := fixOptional_beq_iff.mp h
    exact fixOptional_beq_iff.mpr ⟨hvalid.symm, fun hb => BEq.symm (hvalue (hvalid.trans hb))⟩
  trans h h' := by
    obtain ⟨hvalid, hvalue⟩ := fixOptional_beq_iff.mp h
    obtain ⟨hvalid', hvalue'⟩ := fixOptional_beq_iff.mp h'
    exact fixOptional_beq_iff.mpr ⟨hvalid.trans hvalid',
      fun ha => BEq.trans (hvalue ha) (hvalue' (hvalid.symm.trans ha))⟩

instance {K ι : Type} [LinearOrder ι] [BEq K] [EquivBEq K] {rank : K → ι} :
    EquivBEq (KeyMap rank α) where
  rfl {a} := BEq.refl a.entries
  symm {a b} h := @PartialEquivBEq.symm (List (K × α)) _ _ a.entries b.entries h
  trans {a b c} h h' :=
    @PartialEquivBEq.trans (List (K × α)) _ _ a.entries b.entries c.entries h h'

end Containers

mutual

/-- The comparison of values of a type. -/
def Ty.eq : (t : Ty) → t.Val → t.Val → Bool
  | .prim p => fun (a b : p.Val) => a == b
  | .fixvector n t =>
    haveI : BEq t.Val := ⟨t.eq⟩
    fun (a b : FixVector n t.Val) => a == b
  | .vector t =>
    haveI : BEq t.Val := ⟨t.eq⟩
    fun (a b : List t.Val) => a == b
  | .list t =>
    haveI : BEq t.Val := ⟨t.eq⟩
    fun (a b : List t.Val) => a == b
  | .map k t =>
    haveI : BEq t.Val := ⟨t.eq⟩
    fun (a b : KeyMap k.rank t.Val) => a == b
  | .optional t =>
    haveI : BEq t.Val := ⟨t.eq⟩
    fun (a b : FixOptional t.Val) => a == b
  | .object c => c.eq

def Members.eq : (ms : Members) → ms.Val → ms.Val → Bool
  | .nil => fun (a b : Unit) => a == b
  | .cons _ t ms =>
    haveI : BEq t.Val := ⟨t.eq⟩
    haveI : BEq ms.Val := ⟨ms.eq⟩
    fun (a b : t.Val × ms.Val) => a == b

/-- The generated `operator ==`. -/
def DcoClass.eq : (c : DcoClass) → c.Val → c.Val → Bool
  | .root ms => ms.eq
  | .derived parent ms =>
    haveI : BEq parent.Val := ⟨parent.eq⟩
    haveI : BEq ms.Val := ⟨ms.eq⟩
    fun (a b : parent.Val × ms.Val) => a == b

end

instance (t : Ty) : BEq t.Val := ⟨t.eq⟩

instance (ms : Members) : BEq ms.Val := ⟨ms.eq⟩

instance (c : DcoClass) : BEq c.Val := ⟨c.eq⟩

mutual

theorem Ty.equivBEq : (t : Ty) → EquivBEq t.Val
  | .prim p => inferInstanceAs (EquivBEq p.Val)
  | .fixvector n t =>
    haveI := t.equivBEq
    inferInstanceAs (EquivBEq (FixVector n t.Val))
  | .vector t =>
    haveI := t.equivBEq
    inferInstanceAs (EquivBEq (List t.Val))
  | .list t =>
    haveI := t.equivBEq
    inferInstanceAs (EquivBEq (List t.Val))
  | .map k t =>
    haveI := t.equivBEq
    inferInstanceAs (EquivBEq (KeyMap k.rank t.Val))
  | .optional t =>
    haveI := t.equivBEq
    inferInstanceAs (EquivBEq (FixOptional t.Val))
  | .object c => c.equivBEq

theorem Members.equivBEq : (ms : Members) → EquivBEq ms.Val
  | .nil => inferInstanceAs (EquivBEq Unit)
  | .cons _ t ms =>
    haveI := t.equivBEq
    haveI := ms.equivBEq
    inferInstanceAs (EquivBEq (t.Val × ms.Val))

theorem DcoClass.equivBEq : (c : DcoClass) → EquivBEq c.Val
  | .root ms => ms.equivBEq
  | .derived parent ms =>
    haveI := parent.equivBEq
    haveI := ms.equivBEq
    inferInstanceAs (EquivBEq (parent.Val × ms.Val))

end

instance (t : Ty) : EquivBEq t.Val := t.equivBEq

instance (ms : Members) : EquivBEq ms.Val := ms.equivBEq

instance (c : DcoClass) : EquivBEq c.Val := c.equivBEq

end Dueca.Dco
