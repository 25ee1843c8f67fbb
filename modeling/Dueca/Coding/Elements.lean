import Dueca.Dco.Data
import Mathlib.Data.List.TakeWhile

/-!
# Elements of communication objects

An `ElementReader` delivers the elements of a member one after another, each as a `boost::any`,
with its key when the member is a map. An element that is a communication object itself is
delivered as a reader on that object. `Obj` is all that the readers of an object deliver, and
likewise all that `ElementWriter`s are given.

An enumerated value is delivered, and given, as the string with its name. A key is delivered as it
is. Readers of optional values deliver the value part.
-/

namespace Dueca.Coding

open Dueca.Dco (Width)

abbrev Bytes := List UInt8

/-- The bytes of a text. -/
def text (s : String) : Bytes := s.toList.map fun c => UInt8.ofNat c.toNat

/-- The characters up to the first zero, as a `const char*` is read. -/
def cstr (s : Bytes) : Bytes := s.takeWhile (· ≠ 0)

theorem cstr_of_not_mem {s : Bytes} (h : 0 ∉ s) : cstr s = s :=
  List.takeWhile_eq_self_iff.mpr fun _ hc => decide_eq_true (ne_of_mem_of_not_mem hc h)

inductive MemberArity
  | single
  | iterable
  | mapped
  | fixedIterable
  deriving DecidableEq, Repr

/-- The types of values. -/
inductive TypeId
  | void
  | int (signed : Bool) (w : Width)
  | char
  | bool
  | float
  | double
  | string
  | smartstring
  | dstring (mxsize : ℕ)
  | activityContext
  | enum (name : Bytes)
  | xmlNode
  | other (name : Bytes)
  deriving DecidableEq, Repr

/-- A `boost::any`. Floating point values are bit patterns, and an activity context is what it
prints. -/
inductive Any
  | empty
  | int (signed : Bool) (w : Width) (v : BitVec w.bits)
  | char (c : UInt8)
  | bool (b : Bool)
  | float (v : BitVec 32)
  | double (v : BitVec 64)
  | string (s : Bytes)
  | smartstring (s : Bytes)
  | dstring (mxsize : ℕ) (s : Bytes)
  | activityContext (printed : Bytes)
  | enum (name : Bytes) (v : ℤ)
  | xmlNode
  | other (name : Bytes) (data : Bytes)
  deriving DecidableEq, Repr

def Any.type : Any → TypeId
  | .empty => .void
  | .int signed w _ => .int signed w
  | .char _ => .char
  | .bool _ => .bool
  | .float _ => .float
  | .double _ => .double
  | .string _ => .string
  | .smartstring _ => .smartstring
  | .dstring mxsize _ => .dstring mxsize
  | .activityContext _ => .activityContext
  | .enum name _ => .enum name
  | .xmlNode => .xmlNode
  | .other name _ => .other name

/-- The type that values of a type are delivered with. -/
def TypeId.delivered : TypeId → TypeId
  | .enum _ => .string
  | t => t

/-- What a reader can deliver. A `Dstring` holds no zero, and no more characters than there is room
for; a node of a document is not delivered. -/
def Any.Sound : Any → Prop
  | .dstring mxsize s => s.length ≤ mxsize ∧ 0 ∉ s
  | .xmlNode => False
  | _ => True

instance : (a : Any) → Decidable a.Sound
  | .dstring .. => inferInstanceAs (Decidable (_ ∧ _))
  | .xmlNode => .isFalse id
  | .empty | .int .. | .char _ | .bool _ | .float _ | .double _ | .string _ | .smartstring _
  | .activityContext _ | .enum .. | .other .. => .isTrue trivial

/-- The sizes of `Dstring`s in the tables of all coders. -/
def dstringSizes : List ℕ := [8, 16, 32, 64, 128, 236]

/-- What the elements of a member are: values of a type, or objects of a class. -/
inductive Content
  | direct (t : TypeId)
  | nested (className : Bytes)
  deriving DecidableEq, Repr

structure MemberSpec where
  name : Bytes
  arity : MemberArity
  size : ℕ := 0
  key : TypeId := .void
  content : Content
  deriving DecidableEq, Repr

/-- The members of all classes. A class has one member with a name. -/
structure Registry where
  members : Bytes → List MemberSpec
  nodup : ∀ c, ((members c).map MemberSpec.name).Nodup
  terminated : ∀ c, ∀ s ∈ members c, 0 ∉ s.name

/-- The member with a name, which is what `operator[]` of a writer looks for. -/
def Registry.find (reg : Registry) (c name : Bytes) : Option MemberSpec :=
  (reg.members c).find? (·.name = name)

theorem find?_name {ss : List MemberSpec} (hnodup : (ss.map MemberSpec.name).Nodup)
    {s : MemberSpec} (hs : s ∈ ss) : ss.find? (·.name = s.name) = some s := by
  induction ss with
  | nil => cases hs
  | cons t ss ih =>
    rw [List.map_cons, List.nodup_cons] at hnodup
    obtain rfl | hs := List.mem_cons.mp hs
    · exact List.find?_cons_of_pos (decide_eq_true rfl)
    · have hne : t.name ≠ s.name := fun h => hnodup.1 (h ▸ List.mem_map_of_mem hs)
      rw [List.find?_cons_of_neg (by simpa using hne)]
      exact ih hnodup.2 hs

theorem Registry.find_of_mem (reg : Registry) {c : Bytes} {s : MemberSpec}
    (hs : s ∈ reg.members c) : reg.find c s.name = some s := find?_name (reg.nodup c) hs

mutual

/-- What the readers of an object deliver: for each member its elements. -/
inductive Obj
  | nil
  | member (spec : MemberSpec) (es : Elems) (ms : Obj)

/-- The elements of a member. The key is empty when the member is not a map. -/
inductive Elems
  | nil
  | value (key val : Any) (es : Elems)
  | object (key : Any) (obj : Obj) (es : Elems)

end

def Elems.length : Elems → ℕ
  | .nil => 0
  | .value _ _ es => es.length + 1
  | .object _ _ es => es.length + 1

namespace MemberSpec

variable (s : MemberSpec)

/-- The number of elements is right. -/
def Counts (n : ℕ) : Prop :=
  match s.arity with
  | .single => n = 1
  | .fixedIterable => n = s.size
  | _ => True

instance (n : ℕ) : Decidable (s.Counts n) := by
  unfold Counts
  split <;> infer_instance

/-- A key that a reader delivers. -/
def KeyFits (key : Any) : Prop :=
  if s.arity = .mapped then key.type = s.key ∧ key.Sound else key = .empty

instance (key : Any) : Decidable (s.KeyFits key) := inferInstanceAs (Decidable (ite ..))

/-- A value that a reader delivers. -/
def ValueFits (val : Any) : Prop :=
  match s.content with
  | .direct t => val.type = t.delivered ∧ val.Sound
  | .nested _ => False

instance (val : Any) : Decidable (s.ValueFits val) := by
  unfold ValueFits
  split <;> infer_instance

def isNested : Bool :=
  match s.content with
  | .direct _ => false
  | .nested _ => true

/-- The class of the objects in a member. -/
def className : Bytes :=
  match s.content with
  | .direct _ => []
  | .nested c => c

/-- `getTypeIndex`. -/
def typeIndex : TypeId :=
  match s.content with
  | .direct t => t
  | .nested name => .other name

end MemberSpec

section

variable (reg : Registry)

mutual

/-- An object has these members. -/
def Obj.Fits : List MemberSpec → Obj → Prop
  | [], .nil => True
  | s :: ss, .member t es ms => t = s ∧ s.Counts es.length ∧ es.Fits s ∧ ms.Fits ss
  | [], .member .. => False
  | _ :: _, .nil => False

def Elems.Fits (s : MemberSpec) : Elems → Prop
  | .nil => True
  | .value key val es => s.KeyFits key ∧ s.ValueFits val ∧ es.Fits s
  | .object key obj es =>
    s.KeyFits key ∧ (∃ c, s.content = .nested c ∧ obj.Fits (reg.members c)) ∧ es.Fits s

end

end

section

variable (p : Any → Prop) (q : Any → Prop)

mutual

/-- All values, and all keys of maps, have a property. -/
def Obj.All : Obj → Prop
  | .nil => True
  | .member spec es ms => es.All spec.arity ∧ ms.All

def Elems.All (arity : MemberArity) : Elems → Prop
  | .nil => True
  | .value key val es => (arity = .mapped → q key) ∧ p val ∧ es.All arity
  | .object key obj es => (arity = .mapped → q key) ∧ obj.All ∧ es.All arity

end

end

section

variable {p q : Any → Prop}

mutual

theorem Obj.All.mono (h : ∀ a, p a → q a) : (v : Obj) → v.All p p → v.All q q
  | .nil, _ => trivial
  | .member _ es ms, hall => ⟨Elems.All.mono h es hall.1, Obj.All.mono h ms hall.2⟩

theorem Elems.All.mono {arity : MemberArity} (h : ∀ a, p a → q a) :
    (es : Elems) → es.All p p arity → es.All q q arity
  | .nil, _ => trivial
  | .value _ _ es, hall =>
    ⟨fun hmap => h _ (hall.1 hmap), h _ hall.2.1, Elems.All.mono h es hall.2.2⟩
  | .object _ obj es, hall =>
    ⟨fun hmap => h _ (hall.1 hmap), Obj.All.mono h obj hall.2.1, Elems.All.mono h es hall.2.2⟩

end

end

/-! ### Writers -/

/-- An assertion that fails, and exceptions. -/
inductive Fault
  | assertion
  | conversionNotDefined
  | typeIsNotNested
  | indexExceeded
  | notFound
  | decode (reason : String)
  deriving DecidableEq, Repr

namespace MemberSpec

variable (s : MemberSpec)

/-- `ElementWriter::write`, after a number of elements. -/
def write (n : ℕ) (key val : Any) : Except Fault Unit :=
  match s.content with
  | .nested _ => .error .conversionNotDefined
  | .direct t =>
    if s.arity = .fixedIterable ∧ s.size ≤ n then .error .indexExceeded
    else if val.type ≠ t.delivered ∨ s.arity = .mapped ∧ key.type ≠ s.key
    then .error .conversionNotDefined
    else .ok ()

/-- `ElementWriter::recurse`, after a number of elements, gives the class of the object. -/
def recurse (n : ℕ) (key : Any) : Except Fault Bytes :=
  match s.content with
  | .direct _ => .error .typeIsNotNested
  | .nested c =>
    if s.arity = .fixedIterable ∧ s.size ≤ n then .error .indexExceeded
    else if s.arity = .mapped ∧ key.type ≠ s.key then .error .conversionNotDefined
    else .ok c

/-- There is room for more elements. -/
def Room (n : ℕ) : Prop := s.arity = .fixedIterable → n < s.size

theorem write_ok {n : ℕ} {key val : Any} (hroom : s.Room n) (hkey : s.KeyFits key)
    (hval : s.ValueFits val) : s.write n key val = .ok () := by
  unfold write
  unfold ValueFits at hval
  cases hc : s.content with
  | nested c =>
    rw [hc] at hval
    cases hval
  | direct t =>
    rw [hc] at hval
    unfold KeyFits at hkey
    have hfull : ¬ (s.arity = .fixedIterable ∧ s.size ≤ n) := fun h =>
      Nat.not_le_of_lt (hroom h.1) h.2
    have htype : ¬ (val.type ≠ t.delivered ∨ s.arity = .mapped ∧ key.type ≠ s.key) := by
      rintro (h | ⟨hmap, h⟩)
      · exact h hval.1
      · rw [if_pos hmap] at hkey
        exact h hkey.1
    dsimp only
    rw [if_neg hfull, if_neg htype]

theorem recurse_ok {n : ℕ} {key : Any} {c : Bytes} (hroom : s.Room n) (hkey : s.KeyFits key)
    (hc : s.content = .nested c) : s.recurse n key = .ok c := by
  unfold recurse
  unfold KeyFits at hkey
  have hfull : ¬ (s.arity = .fixedIterable ∧ s.size ≤ n) := fun h =>
    Nat.not_le_of_lt (hroom h.1) h.2
  have htype : ¬ (s.arity = .mapped ∧ key.type ≠ s.key) := by
    rintro ⟨hmap, h⟩
    rw [if_pos hmap] at hkey
    exact h hkey.1
  rw [hc]
  dsimp only
  rw [if_neg hfull, if_neg htype]

end MemberSpec

end Dueca.Coding
