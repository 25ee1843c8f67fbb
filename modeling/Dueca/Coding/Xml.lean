import Dueca.Coding.Json
import Mathlib.Data.Nat.Digits.Lemmas

/-!
# XML documents

A document is a tree of nodes. The elements of a member are in nodes below that of the member; an
element of a map is a pair, of a node for the key, and one for the value or object. How numbers
are converted to text and back is a parameter.

The encoder writes no text in the node for the key of a value, and the decoder passes the node of
the key of an object instead of the key. What is not in the table of the encoder leaves a node
without text.
-/

namespace Dueca.Coding

open Dueca.Dco (Width)

mutual

/-- A node with its name, attributes, text and children. -/
inductive Xml
  | node (name : Bytes) (attributes : List (Bytes × Bytes)) (text : Bytes) (children : Xmls)

inductive Xmls
  | nil
  | cons (x : Xml) (xs : Xmls)

end

def Xml.name : Xml → Bytes
  | .node name _ _ _ => name

def Xml.text : Xml → Bytes
  | .node _ _ t _ => t

/-- `attribute().value()`: an attribute that is not there is empty. -/
def attributeValue (name : Bytes) (attributes : List (Bytes × Bytes)) : Bytes :=
  (attributes.lookup name).getD []

/-- `child`: the first child with a name. -/
def Xmls.child (name : Bytes) : Xmls → Option Xml
  | .nil => none
  | .cons x xs => if x.name = name then some x else xs.child name

/-- Numbers as text. `toInt` reads a number in a range, and a text that is empty is zero. -/
structure TextConversion where
  ofInt : ℤ → Bytes
  toInt : ℤ → ℤ → Bytes → ℤ
  ofFloat : BitVec 32 → Bytes
  toFloat : Bytes → BitVec 32
  ofDouble : BitVec 64 → Bytes
  toDouble : Bytes → BitVec 64
  toInt_ofInt : ∀ low high n, low ≤ n → n < high → toInt low high (ofInt n) = n
  toInt_nil : ∀ low high, toInt low high [] = 0
  toFloat_ofFloat : ∀ v, finite32 v → toFloat (ofFloat v) = v
  toFloat_nil : toFloat [] = 0
  toDouble_ofDouble : ∀ v, finite64 v → toDouble (ofDouble v) = v
  toDouble_nil : toDouble [] = 0

/-- `as_bool`. -/
def asBool (s : Bytes) : Bool := [0x31, 0x74, 0x54, 0x79, 0x59].contains (s.headD 0)

section Encoder

variable (conv : TextConversion) (typeName : TypeId → Bytes)

/-- `writeAnyValue`: the text of a node. -/
def writeText : Any → Bytes
  | .int false _ v => conv.ofInt v.toNat
  | .int true _ v => conv.ofInt v.toInt
  | .char c => cstr [c]
  | .bool b => if b then text "true" else text "false"
  | .float v => conv.ofFloat v
  | .double v => conv.ofDouble v
  | .string s => cstr s
  | .dstring mxsize s => if mxsize ∈ 5 :: dstringSizes then cstr s else []
  -- no mapping to serialize the type
  | .empty | .smartstring _ | .activityContext _ | .enum .. | .xmlNode | .other .. => []

def typeAttribute (showType : Bool) (t : TypeId) : List (Bytes × Bytes) :=
  if showType then [(text "type", typeName t)] else []

/-- The node for the key of an element of a map. -/
def keyNode (showType : Bool) (s : MemberSpec) (t : Bytes) : Xml :=
  .node (text "key") (typeAttribute typeName showType s.key) t .nil

def valueNode (showType : Bool) (s : MemberSpec) (val : Any) : Xml :=
  .node (text "value") (typeAttribute typeName showType s.typeIndex) (writeText conv val) .nil

def pairNode (key value : Xml) : Xml :=
  .node (text "pair") [] [] (.cons key (.cons value .nil))

def objectNode (c : Bytes) (members : Xmls) : Xml :=
  .node (text "object") [(text "class", c)] [] members

mutual

/-- The nodes for the members of an object. Types are shown for the members of the outer object
only. -/
def membersToXml (showType : Bool) : Obj → Xmls
  | .nil => .nil
  | .member s es ms =>
    .cons (.node (text "member") [(text "name", s.name)] [] (elemsToXml showType s es))
      (membersToXml showType ms)

def elemsToXml (showType : Bool) (s : MemberSpec) : Elems → Xmls
  | .nil => .nil
  | .value _ val es =>
    .cons
      (if s.arity = .mapped then
        -- the key is not written
        pairNode (keyNode typeName showType s []) (valueNode conv typeName showType s val)
      else valueNode conv typeName showType s val)
      (elemsToXml showType s es)
  | .object key obj es =>
    .cons
      (if s.arity = .mapped then
        pairNode (keyNode typeName showType s (writeText conv key))
          (objectNode s.className (membersToXml false obj))
      else objectNode s.className (membersToXml false obj))
      (elemsToXml showType s es)

end

/-- `DCOtoXML`. -/
def dcoToXml (showType : Bool) (c : Bytes) (v : Obj) : Xml :=
  objectNode c (membersToXml conv typeName showType v)

end Encoder

section Decoder

variable (conv : TextConversion)

/-- `convertValue`. A type that is not in the table is read as a string. -/
def readText (t : Bytes) : TypeId → Any
  | .int false w => .int false w (.ofInt _ (conv.toInt 0 (2 ^ numberBits w) t))
  | .int true w =>
    .int true w
      (.ofInt _ (conv.toInt (-2 ^ (numberBits w - 1)) (2 ^ (numberBits w - 1)) t))
  | .char => .char (t.headD 0)
  | .bool => .bool (asBool t)
  | .float => .float (conv.toFloat t)
  | .double => .double (conv.toDouble t)
  | .string => .string t
  | .smartstring => .smartstring t
  | .dstring mxsize =>
    if mxsize ∈ 5 :: dstringSizes then .dstring mxsize (t.take mxsize) else .string t
  | .void | .activityContext | .enum _ | .xmlNode | .other _ => .string t

/-- Warnings, with the name of the member. -/
inductive XmlWarning
  | notFound (name className : Bytes)
  | mismatch (name : Bytes)
  | expectsPairs (name : Bytes)
  | notFilled (name : Bytes)
  | exceeded (name : Bytes)
  | missing
  deriving DecidableEq, Repr

/-- Elements, warnings, and whether an index was exceeded. -/
abbrev Written := Elems × List XmlWarning × Bool

/-- An element that is written, or the end because there is no room for it. -/
def writeNext (written : Except Fault Unit) (rest : Except Fault Written)
    (cons : Elems → Elems) : Except Fault Written :=
  match written with
  | .ok () => rest.map fun (es, ws, exceeded) => (cons es, ws, exceeded)
  | .error .indexExceeded => .ok (.nil, [], true)
  | .error fault => .error fault

/-- `convertArray`: all nodes "value", after a number of elements. -/
def convertArray (s : MemberSpec) (n : ℕ) : Xmls → Except Fault Written
  | .nil => .ok (.nil, [], false)
  | .cons x xs =>
    if x.name = text "value" then
      let a := readText conv x.text s.typeIndex
      writeNext (s.write n .empty a) (convertArray s (n + 1) xs) (.value .empty a)
    else convertArray s n xs

/-- `convertMap`: all nodes "pair" that have a key and a value, after a number of elements. -/
def convertMap (s : MemberSpec) (n : ℕ) : Xmls → Except Fault (Elems × List XmlWarning)
  | .nil => .ok (.nil, [])
  | .cons (.node name _ _ children) xs =>
    if name = text "pair" then
      match children.child (text "key"), children.child (text "value") with
      | some k, some v => do
        let key := readText conv k.text s.key
        let a := readText conv v.text s.typeIndex
        s.write n key a
        let (es, ws) ← convertMap s (n + 1) xs
        .ok (.value key a es, ws)
      | _, _ => do
        let (es, ws) ← convertMap s n xs
        .ok (es, .missing :: ws)
    else convertMap s n xs

/-- The end of a fixed array: `convertFixedArray`, `convertFixedArrayObject`. -/
def fixedEnd (s : MemberSpec) (written : Except Fault Written) :
    Except Fault (Elems × List XmlWarning) :=
  written.map fun (es, ws, exceeded) =>
    if exceeded then (es, ws ++ [.exceeded s.name])
    else if es.length = s.size then (es, ws)
    else (es, ws ++ [.notFilled s.name])

/-- The end of a variable array. -/
def arrayEnd (written : Except Fault Written) : Except Fault (Elems × List XmlWarning) :=
  written.map fun (es, ws, _) => (es, ws)

variable (reg : Registry)

/-- The part of `XMLtoDCO` for a member, which chooses by the children that are there. -/
def convertMember (s : MemberSpec) (children : Xmls)
    (single array pairs : Except Fault (Elems × List XmlWarning))
    (fixed : Except Fault (Elems × List XmlWarning)) : Except Fault (Elems × List XmlWarning) :=
  let pair := children.child (text "pair")
  let inPair (name : Bytes) : Bool :=
    match pair with
    | some (.node _ _ _ below) => (below.child name).isSome
    | none => false
  if ((children.child (text "object")).isSome && s.isNested) ||
      ((children.child (text "value")).isSome && !s.isNested) then
    match s.arity with
    | .single => single
    | .iterable => array
    | .mapped => .ok (.nil, [.expectsPairs s.name])
    | .fixedIterable => fixed
  else if (inPair (text "object") && s.isNested) || (inPair (text "value") && !s.isNested) then
    pairs
  else if s.arity = .iterable ∨ s.arity = .mapped then .ok (.nil, [])
  else .ok (.nil, [.mismatch s.name])

/-- `convertValue` for a single value: the first node "value". -/
def convertSingle (s : MemberSpec) (children : Xmls) : Except Fault (Elems × List XmlWarning) :=
  match children.child (text "value") with
  | none => .ok (.nil, [])
  | some x =>
    let a := readText conv x.text s.typeIndex
    (s.write 0 .empty a).map fun _ => (.value .empty a .nil, [])

mutual

/-- `XMLtoDCO`, for an object of a class. -/
def xmlToDco (c : Bytes) : Xml → Except Fault (Obj × List XmlWarning)
  | .node name attributes _ children =>
    if attributeValue (text "class") attributes ≠ c then .error (.decode "dataclass mismatch")
    else if name ≠ text "object" then .error (.decode "incorrect node type, expected object")
    else readMembers c children

/-- The loop of `XMLtoDCO` over the members. -/
def readMembers (c : Bytes) : Xmls → Except Fault (Obj × List XmlWarning)
  | .nil => .ok (.nil, [])
  | .cons (.node name attributes _ children) rest =>
    if name = text "member" then
      match reg.find c (attributeValue (text "name") attributes) with
      | none => do
        let (ms, ws) ← readMembers c rest
        .ok (ms, .notFound (attributeValue (text "name") attributes) c :: ws)
      | some s => do
        let (es, ws) ← if s.isNested then
            convertMember s children (firstObject s children)
              (arrayEnd (convertArrayObject s 0 children)) (convertMapObjects s 0 children)
              (fixedEnd s (convertArrayObject s 0 children))
          else
            convertMember s children (convertSingle conv s children)
              (arrayEnd (convertArray conv s 0 children)) (convertMap conv s 0 children)
              (fixedEnd s (convertArray conv s 0 children))
        let (ms, ws') ← readMembers c rest
        .ok (.member s es ms, ws ++ ws')
    else readMembers c rest

/-- The first node "object". -/
def firstObject (s : MemberSpec) : Xmls → Except Fault (Elems × List XmlWarning)
  | .nil => .ok (.nil, [])
  | .cons x xs =>
    if x.name = text "object" then do
      let (o, ws) ← xmlToDco s.className x
      .ok (.object .empty o .nil, ws)
    else firstObject s xs

/-- `convertArrayObject`: all nodes "object", after a number of elements. -/
def convertArrayObject (s : MemberSpec) (n : ℕ) : Xmls → Except Fault Written
  | .nil => .ok (.nil, [], false)
  | .cons x xs =>
    if x.name = text "object" then
      match s.recurse n .empty with
      | .error .indexExceeded => .ok (.nil, [], true)
      | .error fault => .error fault
      | .ok c => do
        let (o, ws) ← xmlToDco c x
        let (es, ws', exceeded) ← convertArrayObject s (n + 1) xs
        .ok (.object .empty o es, ws ++ ws', exceeded)
    else convertArrayObject s n xs

/-- `convertMapObjects`: all nodes "pair" that have a key and an object. It is the node of the key
that is passed on. -/
def convertMapObjects (s : MemberSpec) (n : ℕ) : Xmls → Except Fault (Elems × List XmlWarning)
  | .nil => .ok (.nil, [])
  | .cons (.node name _ _ children) xs =>
    if name = text "pair" then
      match children.child (text "key"), childObject s children with
      | some _, some o => do
        let _ ← s.recurse n .xmlNode
        let (o, ws) ← o
        let (es, ws') ← convertMapObjects s (n + 1) xs
        .ok (.object .xmlNode o es, ws ++ ws')
      | _, _ => do
        let (es, ws) ← convertMapObjects s n xs
        .ok (es, .missing :: ws)
    else convertMapObjects s n xs

/-- The node "object" of a pair. -/
def childObject (s : MemberSpec) : Xmls → Option (Except Fault (Obj × List XmlWarning))
  | .nil => none
  | .cons x xs =>
    if x.name = text "object" then some (xmlToDco s.className x) else childObject s xs

end

end Decoder

/-! ### What is kept -/

/-- A string of characters, of which none is zero. -/
def Any.XmlPlain : Any → Prop
  | .string s => 0 ∉ s
  | _ => True

/-- The values that are kept. -/
def Any.XmlKept (conv : TextConversion) : Any → Prop
  | .int .. | .char _ | .bool _ | .string _ => True
  | .float v => conv.toFloat (conv.ofFloat v) = v
  | .double v => conv.toDouble (conv.ofDouble v) = v
  | .smartstring s => s = []
  | .dstring mxsize _ => mxsize ∈ 5 :: dstringSizes
  | .empty | .activityContext _ | .enum .. | .xmlNode | .other .. => False

/-- Zero, or no characters: the keys that are kept. -/
def Any.Default : Any → Prop
  | .int _ _ v => v = 0
  | .char c => c = 0
  | .bool b => b = false
  | .float v => v = 0
  | .double v => v = 0
  | .string s | .smartstring s => s = []
  | .dstring mxsize s => mxsize ∈ 5 :: dstringSizes ∧ s = []
  | .empty | .activityContext _ | .enum .. | .xmlNode | .other .. => False

section

variable (conv : TextConversion)

mutual

/-- The objects that are kept. -/
def Obj.XmlKept : Obj → Prop
  | .nil => True
  | .member s es ms => es.XmlKept s.arity ∧ ms.XmlKept

def Elems.XmlKept (arity : MemberArity) : Elems → Prop
  | .nil => True
  | .value key val es =>
    (arity = .mapped → key.Default) ∧ val.XmlKept conv ∧ es.XmlKept arity
  | .object _ obj es => arity ≠ .mapped ∧ obj.XmlKept ∧ es.XmlKept arity

end

variable {conv}

theorem readText_ofInt (signed : Bool) {w : Width} (v : BitVec w.bits) :
    readText conv (writeText conv (.int signed w v)) (.int signed w) = .int signed w v := by
  cases signed with
  | false =>
    have hbits : (2 : ℤ) ^ w.bits ≤ 2 ^ numberBits w := pow_le_pow_right₀ (by decide) (bits_le w)
    have hlt : (v.toNat : ℤ) < 2 ^ w.bits := mod_cast v.isLt
    rw [writeText, readText,
      conv.toInt_ofInt _ _ _ (Int.natCast_nonneg _) (lt_of_lt_of_le hlt hbits)]
    simp
  | true =>
    have hhalf : (2 : ℤ) ^ (w.bits - 1) ≤ 2 ^ (numberBits w - 1) :=
      pow_le_pow_right₀ (by decide) (Nat.sub_le_sub_right (bits_le w) 1)
    have hlow : -(2 : ℤ) ^ (w.bits - 1) ≤ v.toInt := BitVec.le_toInt v
    have hhigh : v.toInt < (2 : ℤ) ^ (w.bits - 1) := BitVec.toInt_lt
    rw [writeText, readText, conv.toInt_ofInt _ _ _ (le_trans (neg_le_neg hhalf) hlow)
      (lt_of_lt_of_le hhigh hhalf)]
    simp

/-- The values that are read as they were written. -/
theorem readText_writeText_iff {a : Any} {t : TypeId} (htype : a.type = t.delivered)
    (hsound : a.Sound) (hplain : a.XmlPlain) :
    readText conv (writeText conv a) t = a ↔ a.XmlKept conv := by
  by_cases hstring : a.type = .string
  · cases a with
    | string s =>
      have hread : Any.string (cstr s) = .string s := by rw [cstr_of_not_mem hplain]
      cases t with
      | string => exact iff_of_true hread trivial
      | enum name => exact iff_of_true hread trivial
      | _ => cases htype
    | _ => cases hstring
  · obtain rfl := TypeId.eq_of_delivered htype hstring
    cases a with
    | int signed w v => exact iff_of_true (readText_ofInt signed v) trivial
    | char c =>
      refine iff_of_true ?_ trivial
      by_cases hc : c = 0
      · subst hc
        rfl
      · have hcstr : cstr [c] = [c] := cstr_of_not_mem (by simpa using Ne.symm hc)
        rw [Any.type, writeText, readText, hcstr]
        rfl
    | bool b => exact iff_of_true (by cases b <;> rfl) trivial
    | float v => exact Any.float.injEq _ _ ▸ Iff.rfl
    | double v => exact Any.double.injEq _ _ ▸ Iff.rfl
    | string s => exact absurd rfl hstring
    | smartstring s =>
      rw [Any.type, writeText, readText, Any.smartstring.injEq]
      exact eq_comm
    | dstring mxsize s =>
      rw [Any.type, writeText, readText, Any.XmlKept]
      by_cases hsize : mxsize ∈ 5 :: dstringSizes
      · rw [if_pos hsize, if_pos hsize, cstr_of_not_mem hsound.2, List.take_of_length_le hsound.1]
        exact iff_of_true rfl hsize
      · rw [if_neg hsize, if_neg hsize]
        exact iff_of_false (fun h => by cases h) hsize
    | xmlNode => exact hsound.elim
    | empty | activityContext printed | enum name v | other name data =>
      exact iff_of_false (fun h => by cases h) id

/-- The values that are read from a node without text. -/
theorem readText_nil_iff {a : Any} : readText conv [] a.type = a ↔ a.Default := by
  cases a with
  | int signed w v =>
    cases signed <;> rw [Any.type, readText, conv.toInt_nil, Any.int.injEq] <;>
      exact ⟨fun h => show v = 0 by simpa using (eq_of_heq h.2.2).symm,
        fun h => ⟨rfl, rfl, by rw [h]; rfl⟩⟩
  | char c => exact ⟨fun h => (Any.char.inj h).symm, fun h => by rw [h]; rfl⟩
  | bool b => exact ⟨fun h => (Any.bool.inj h).symm, fun h => by rw [h]; rfl⟩
  | float v =>
    rw [Any.type, readText, conv.toFloat_nil, Any.float.injEq]
    exact eq_comm
  | double v =>
    rw [Any.type, readText, conv.toDouble_nil, Any.double.injEq]
    exact eq_comm
  | string s => exact ⟨fun h => (Any.string.inj h).symm, fun h => by rw [h]; rfl⟩
  | smartstring s => exact ⟨fun h => (Any.smartstring.inj h).symm, fun h => by rw [h]; rfl⟩
  | dstring mxsize s =>
    rw [Any.type, readText, Any.Default]
    by_cases hsize : mxsize ∈ 5 :: dstringSizes
    · rw [if_pos hsize, List.take_nil, Any.dstring.injEq]
      exact ⟨fun h => ⟨hsize, h.2.symm⟩, fun h => ⟨rfl, h.2.symm⟩⟩
    · rw [if_neg hsize]
      exact iff_of_false (fun h => by cases h) fun h => hsize h.1
  | empty | activityContext printed | enum name v | xmlNode | other name data =>
    exact iff_of_false (fun h => by cases h) id

end

/-! ### Round trips -/

/-- The result has these elements. -/
def Gives {α : Type} (x : Except Fault (α × List XmlWarning)) (a : α) : Prop :=
  ∃ ws, x = .ok (a, ws)

theorem gives_bind {α β γ : Type} {x : Except Fault (α × List XmlWarning)}
    {y : Except Fault (β × List XmlWarning)} {f : α → β → γ}
    (hf : ∀ a b a' b', f a b = f a' b' → a = a' ∧ b = b') {a : α} {b : β} :
    Gives (do
      let (o, ws) ← x
      let (es, ws') ← y
      .ok (f o es, ws ++ ws')) (f a b) ↔ Gives x a ∧ Gives y b := by
  constructor
  · rintro ⟨ws, h⟩
    cases x with
    | error fault => cases h
    | ok r =>
      cases y with
      | error fault => cases h
      | ok q =>
        obtain ⟨ho, hes⟩ := hf _ _ _ _ (congrArg Prod.fst (Except.ok.inj h))
        exact ⟨⟨r.2, by rw [← ho]⟩, ⟨q.2, by rw [← hes]⟩⟩
  · rintro ⟨⟨ws, rfl⟩, ws', rfl⟩
    exact ⟨ws ++ ws', rfl⟩

section

variable {conv : TextConversion} {typeName : TypeId → Bytes} {st : Bool} {s : MemberSpec}
  {reg : Registry}

theorem objectNode_name (c : Bytes) (ms : Xmls) : (objectNode c ms).name = text "object" := rfl

theorem valueNode_name (val : Any) : (valueNode conv typeName st s val).name = text "value" := rfl

theorem xmlToDco_objectNode (c : Bytes) (ms : Xmls) :
    xmlToDco conv reg c (objectNode c ms) = readMembers conv reg c ms := by
  have hclass : attributeValue (text "class") [(text "class", c)] = c := by
    rw [attributeValue, List.lookup_cons_self]
    rfl
  rw [objectNode, xmlToDco, hclass, if_neg (not_not.mpr rfl), if_neg (not_not.mpr rfl)]

theorem child_cons_self {x : Xml} (xs : Xmls) {name : Bytes} (h : x.name = name) :
    (Xmls.cons x xs).child name = some x := by
  rw [Xmls.child, if_pos h]

theorem child_cons_of_ne {x : Xml} (xs : Xmls) {name : Bytes} (h : x.name ≠ name) :
    (Xmls.cons x xs).child name = xs.child name := by
  rw [Xmls.child, if_neg h]

theorem keyNode_name (t : Bytes) : (keyNode typeName st s t).name = text "key" := rfl

theorem child_key (t : Bytes) (xs : Xmls) :
    (Xmls.cons (keyNode typeName st s t) xs).child (text "key") =
      some (keyNode typeName st s t) := child_cons_self _ rfl

theorem child_value (t : Bytes) (val : Any) :
    (Xmls.cons (keyNode typeName st s t) (.cons (valueNode conv typeName st s val) .nil)).child
      (text "value") = some (valueNode conv typeName st s val) := by
  rw [child_cons_of_ne _ (keyNode_name (s := s) t ▸ text_key_ne_value),
    child_cons_self _ (valueNode_name val)]

/-- All elements of a map are in pairs. -/
theorem child_of_mapped (hmap : s.arity = .mapped) {name : Bytes} (hname : text "pair" ≠ name) :
    (es : Elems) → (elemsToXml conv typeName st s es).child name = none
  | .nil => rfl
  | .value key val es => by
    rw [elemsToXml, if_pos hmap, child_cons_of_ne _ (show (pairNode _ _).name ≠ name from hname)]
    exact child_of_mapped hmap hname es
  | .object key obj es => by
    rw [elemsToXml, if_pos hmap, child_cons_of_ne _ (show (pairNode _ _).name ≠ name from hname)]
    exact child_of_mapped hmap hname es

theorem elemsToXml_value (hne : s.arity ≠ .mapped) (key val : Any) (es : Elems) :
    elemsToXml conv typeName st s (.value key val es) =
      .cons (valueNode conv typeName st s val) (elemsToXml conv typeName st s es) := by
  rw [elemsToXml, if_neg hne]

theorem elemsToXml_object (hne : s.arity ≠ .mapped) (key : Any) (obj : Obj) (es : Elems) :
    elemsToXml conv typeName st s (.object key obj es) =
      .cons (objectNode s.className (membersToXml conv typeName false obj))
        (elemsToXml conv typeName st s es) := by
  rw [elemsToXml, if_neg hne]

/-- The result for an array has these elements. -/
def GivesAll (x : Except Fault Written) (es : Elems) : Prop :=
  ∃ ws exceeded, x = .ok (es, ws, exceeded)

theorem gives_arrayEnd {x : Except Fault Written} {es : Elems} :
    Gives (arrayEnd x) es ↔ GivesAll x es := by
  constructor
  · rintro ⟨ws, h⟩
    cases x with
    | error fault => cases h
    | ok r =>
      obtain rfl : r.1 = es := congrArg Prod.fst (Except.ok.inj h)
      exact ⟨r.2.1, r.2.2, rfl⟩
  · rintro ⟨ws, exceeded, rfl⟩
    exact ⟨ws, rfl⟩

theorem gives_fixedEnd {x : Except Fault Written} {es : Elems} :
    Gives (fixedEnd s x) es ↔ GivesAll x es := by
  cases x with
  | error fault => exact iff_of_false (fun ⟨_, h⟩ => nomatch h) fun ⟨_, _, h⟩ => nomatch h
  | ok r =>
    obtain ⟨es', ws', exceeded⟩ := r
    have hfst : ∃ ws, fixedEnd s (.ok (es', ws', exceeded)) = .ok (es', ws) := by
      rw [fixedEnd, Except.map]
      dsimp only
      split
      · exact ⟨_, rfl⟩
      · split <;> exact ⟨_, rfl⟩
    obtain ⟨ws, hws⟩ := hfst
    rw [hws]
    constructor
    · rintro ⟨ws₁, h⟩
      obtain rfl : es' = es := congrArg Prod.fst (Except.ok.inj h)
      exact ⟨_, _, rfl⟩
    · rintro ⟨ws₁, exceeded₁, h⟩
      obtain rfl : es' = es := congrArg Prod.fst (Except.ok.inj h)
      exact ⟨_, rfl⟩

/-- A value is written, and the others after it. -/
theorem givesAll_writeNext {x : Except Fault Unit} {y : Except Fault Written} {a val : Any}
    {es : Elems} :
    GivesAll (writeNext x y (.value .empty a)) (.value .empty val es) ↔
      x = .ok () ∧ a = val ∧ GivesAll y es := by
  constructor
  · rintro ⟨ws, exceeded, h⟩
    unfold writeNext at h
    cases x with
    | error fault => cases fault <;> cases h
    | ok u =>
      cases y with
      | error fault => cases h
      | ok r =>
        have helems : Elems.value .empty a r.1 = .value .empty val es :=
          congrArg Prod.fst (Except.ok.inj h)
        obtain ⟨-, rfl, rfl⟩ := Elems.value.inj helems
        exact ⟨rfl, rfl, r.2.1, r.2.2, rfl⟩
  · rintro ⟨rfl, rfl, ws, exceeded, rfl⟩
    exact ⟨ws, exceeded, rfl⟩

theorem typeIndex_of_direct {t : TypeId} (ht : s.content = .direct t) : s.typeIndex = t := by
  rw [MemberSpec.typeIndex, ht]

theorem room_succ {n : ℕ} {es : Elems}
    (h : s.arity = .fixedIterable → n + (es.length + 1) ≤ s.size) :
    s.Room n ∧ (s.arity = .fixedIterable → n + 1 + es.length ≤ s.size) :=
  ⟨fun hf => by have := h hf; omega, fun hf => by have := h hf; omega⟩

/-- An array of values. -/
theorem convertArray_iff {t : TypeId} (ht : s.content = .direct t) (hne : s.arity ≠ .mapped) :
    (es : Elems) → (n : ℕ) → (s.arity = .fixedIterable → n + es.length ≤ s.size) →
    es.Fits reg s → es.All Any.XmlPlain Any.XmlPlain s.arity →
    (GivesAll (convertArray conv s n (elemsToXml conv typeName st s es)) es ↔
      es.XmlKept conv s.arity)
  | .nil, _, _, _, _ => iff_of_true ⟨_, _, rfl⟩ trivial
  | .value key val es, n, hroom, hfits, hall => by
    obtain ⟨hkey, hval, hes⟩ := hfits
    obtain rfl := KeyFits.empty hkey hne
    obtain ⟨t', ht', htype, hsound⟩ := ValueFits.content hval
    obtain rfl := Content.direct.inj (ht.symm.trans ht')
    obtain ⟨hn, hrest⟩ := room_succ hroom
    have ih := convertArray_iff ht hne es (n + 1) hrest hes hall.2.2
    have hread : readText conv (writeText conv val) t = val ↔ _ :=
      readText_writeText_iff htype hsound hall.2.1
    rw [elemsToXml_value hne, convertArray, if_pos (valueNode_name val), typeIndex_of_direct ht]
    dsimp only
    rw [givesAll_writeNext, ih]
    change _ ∧ readText conv (writeText conv val) t = val ∧ _ ↔ _
    rw [hread]
    constructor
    · rintro ⟨-, hkept, hes⟩
      exact ⟨fun h => absurd h hne, hkept, hes⟩
    · rintro ⟨-, hkept, hes⟩
      refine ⟨?_, hkept, hes⟩
      change s.write n .empty (readText conv (writeText conv val) t) = _
      rw [hread.mpr hkept]
      exact s.write_ok hn hkey hval
  | .object key obj es, _, _, hfits, _ => by
    obtain ⟨-, ⟨c, hc, -⟩, -⟩ := hfits
    rw [ht] at hc
    cases hc

theorem gives_value {x : Except Fault Unit} {y : Except Fault (Elems × List XmlWarning)}
    {key key' a val : Any} {es : Elems} :
    Gives (do
      x
      let (es, ws) ← y
      .ok (Elems.value key a es, ws)) (Elems.value key' val es) ↔
      x = .ok () ∧ key = key' ∧ a = val ∧ Gives y es := by
  constructor
  · rintro ⟨ws, h⟩
    cases x with
    | error fault => cases h
    | ok u =>
      cases y with
      | error fault => cases h
      | ok r =>
        have helems : Elems.value key a r.1 = .value key' val es :=
          congrArg Prod.fst (Except.ok.inj h)
        obtain ⟨rfl, rfl, rfl⟩ := Elems.value.inj helems
        exact ⟨rfl, rfl, rfl, r.2, rfl⟩
  · rintro ⟨rfl, rfl, rfl, ws, rfl⟩
    exact ⟨ws, rfl⟩

/-- A map of values. -/
theorem convertMap_iff {t : TypeId} (ht : s.content = .direct t) (hmap : s.arity = .mapped) :
    (es : Elems) → (n : ℕ) → es.Fits reg s → es.All Any.XmlPlain Any.XmlPlain s.arity →
    (Gives (convertMap conv s n (elemsToXml conv typeName st s es)) es ↔ es.XmlKept conv s.arity)
  | .nil, _, _, _ => iff_of_true ⟨_, rfl⟩ trivial
  | .value key val es, n, hfits, hall => by
    obtain ⟨hkey, hval, hes⟩ := hfits
    obtain ⟨t', ht', htype, hsound⟩ := ValueFits.content hval
    obtain rfl := Content.direct.inj (ht.symm.trans ht')
    have ih := convertMap_iff ht hmap es (n + 1) hes hall.2.2
    have hread : readText conv (writeText conv val) t = val ↔ _ :=
      readText_writeText_iff htype hsound hall.2.1
    have hkeyType : key.type = s.key := by
      have h := hkey
      unfold MemberSpec.KeyFits at h
      rw [if_pos hmap] at h
      exact h.1
    have hpair : convertMap conv s n (elemsToXml conv typeName st s (.value key val es)) = (do
        s.write n (readText conv [] s.key) (readText conv (writeText conv val) t)
        let (es, ws) ← convertMap conv s (n + 1) (elemsToXml conv typeName st s es)
        .ok (.value (readText conv [] s.key) (readText conv (writeText conv val) t) es, ws)) := by
      rw [elemsToXml, if_pos hmap, pairNode, convertMap, if_pos rfl, child_key, child_value,
        typeIndex_of_direct ht]
      rfl
    rw [hpair, gives_value, ih, hread, ← hkeyType, readText_nil_iff]
    constructor
    · rintro ⟨-, hdefault, hkept, hes⟩
      exact ⟨fun _ => hdefault, hkept, hes⟩
    · rintro ⟨hdefault, hkept, hes⟩
      refine ⟨?_, hdefault hmap, hkept, hes⟩
      rw [hread.mpr hkept, readText_nil_iff.mpr (hdefault hmap)]
      exact s.write_ok (fun h => by rw [hmap] at h; cases h) hkey hval
  | .object key obj es, _, hfits, _ => by
    obtain ⟨-, ⟨c, hc, -⟩, -⟩ := hfits
    rw [ht] at hc
    cases hc

/-- A map of objects that is not empty is not read: the node of a key is not a key. -/
theorem convertMapObjects_iff {c : Bytes} (hc : s.content = .nested c) (hmap : s.arity = .mapped)
    (es : Elems) (n : ℕ) (hfits : es.Fits reg s) :
    Gives (convertMapObjects conv reg s n (elemsToXml conv typeName st s es)) es ↔
      es.XmlKept conv s.arity := by
  cases es with
  | nil => exact iff_of_true ⟨_, rfl⟩ trivial
  | value key val es =>
    obtain ⟨t, ht, -⟩ := ValueFits.content hfits.2.1
    rw [hc] at ht
    cases ht
  | object key obj es =>
    refine iff_of_false ?_ fun h => h.1 hmap
    have hkey := hfits.1
    unfold MemberSpec.KeyFits at hkey
    rw [if_pos hmap] at hkey
    have hnode : Any.xmlNode.type ≠ s.key := by
      rw [← hkey.1]
      cases key with
      | xmlNode => exact hkey.2.elim
      | _ => exact fun h => nomatch h
    have hrecurse : s.recurse n .xmlNode = .error .conversionNotDefined := by
      unfold MemberSpec.recurse
      rw [hc]
      dsimp only
      have hfull : ¬ (s.arity = .fixedIterable ∧ s.size ≤ n) := fun h => by
        rw [hmap] at h
        cases h.1
      rw [if_neg hfull, if_pos ⟨hmap, hnode⟩]
    have hchild : childObject conv reg s (.cons (keyNode typeName st s (writeText conv key))
        (.cons (objectNode s.className (membersToXml conv typeName false obj)) .nil)) =
        some (xmlToDco conv reg s.className
          (objectNode s.className (membersToXml conv typeName false obj))) := by
      have hkey : (keyNode typeName st s (writeText conv key)).name ≠ text "object" := by
        rw [keyNode_name]
        decide
      rw [childObject, if_neg hkey, childObject, if_pos (objectNode_name _ _)]
    rintro ⟨ws, h⟩
    rw [elemsToXml, if_pos hmap, pairNode, convertMapObjects, if_pos rfl, child_key, hchild] at h
    dsimp only at h
    rw [hrecurse] at h
    cases h

/-- The children of a member that has elements choose the branch. -/
theorem convertMember_some {children : Xmls} {single array pairs fixed}
    (h : ((children.child (text "object")).isSome && s.isNested ||
      (children.child (text "value")).isSome && !s.isNested) = true) :
    convertMember s children single array pairs fixed =
      match s.arity with
      | .single => single
      | .iterable => array
      | .mapped => .ok (.nil, [.expectsPairs s.name])
      | .fixedIterable => fixed := by
  unfold convertMember
  dsimp only
  rw [if_pos h]

/-- A member without children has no elements. -/
theorem gives_convertMember_nil {single array pairs fixed} :
    Gives (convertMember s .nil single array pairs fixed) .nil := by
  unfold convertMember
  simp only [Xmls.child, Option.isSome_none, Bool.false_and, Bool.or_self, Bool.false_eq_true,
    if_false]
  split <;> exact ⟨_, rfl⟩

theorem convertMember_pairs {xs children : Xmls}
    {attributes : List (Bytes × Bytes)} {t : Bytes} {single array pairs fixed}
    (hobject : xs.child (text "object") = none) (hvalue : xs.child (text "value") = none)
    (h : ((children.child (text "object")).isSome && s.isNested ||
      (children.child (text "value")).isSome && !s.isNested) = true) :
    convertMember s (.cons (.node (text "pair") attributes t children) xs) single array pairs
      fixed = pairs := by
  have hobject' : (Xmls.cons (.node (text "pair") attributes t children) xs).child (text "object") =
      none := by
    rw [child_cons_of_ne (x := .node (text "pair") attributes t children) _
      (show text "pair" ≠ text "object" by decide), hobject]
  have hvalue' : (Xmls.cons (.node (text "pair") attributes t children) xs).child (text "value") =
      none := by
    rw [child_cons_of_ne (x := .node (text "pair") attributes t children) _
      (show text "pair" ≠ text "value" by decide), hvalue]
  unfold convertMember
  have hpair : (Xmls.cons (.node (text "pair") attributes t children) xs).child (text "pair") =
      some (.node (text "pair") attributes t children) := child_cons_self _ rfl
  rw [hobject', hvalue', hpair]
  simp only [Option.isSome_none, Bool.false_and, Bool.or_self, Bool.false_eq_true, if_false]
  rw [if_pos h]

/-- A member with values. -/
theorem convertMember_direct_iff {t : TypeId} (ht : s.content = .direct t) (es : Elems)
    (hcounts : s.Counts es.length) (hfits : es.Fits reg s)
    (hall : es.All Any.XmlPlain Any.XmlPlain s.arity) :
    Gives (convertMember s (elemsToXml conv typeName st s es)
        (convertSingle conv s (elemsToXml conv typeName st s es))
        (arrayEnd (convertArray conv s 0 (elemsToXml conv typeName st s es)))
        (convertMap conv s 0 (elemsToXml conv typeName st s es))
        (fixedEnd s (convertArray conv s 0 (elemsToXml conv typeName st s es)))) es ↔
      es.XmlKept conv s.arity := by
  have hnested : s.isNested = false := by rw [MemberSpec.isNested, ht]
  cases es with
  | nil => exact iff_of_true gives_convertMember_nil trivial
  | object key obj es =>
    obtain ⟨-, ⟨c, hc, -⟩, -⟩ := hfits
    rw [ht] at hc
    cases hc
  | value key val es =>
    by_cases hmap : s.arity = .mapped
    · have hpairs : Gives (convertMap conv s 0
          (elemsToXml conv typeName st s (.value key val es))) _ ↔ _ :=
        convertMap_iff ht hmap _ 0 hfits hall
      rw [elemsToXml, if_pos hmap] at hpairs ⊢
      rw [pairNode, convertMember_pairs (child_of_mapped hmap (by decide) es)
        (child_of_mapped hmap (by decide) es) (by rw [child_value, hnested]; simp)]
      exact hpairs
    · have hsome : ((elemsToXml conv typeName st s (.value key val es)).child
          (text "value")).isSome = true := by
        rw [elemsToXml_value hmap, child_cons_self _ (valueNode_name val)]
        rfl
      rw [convertMember_some (by rw [hsome, hnested]; simp)]
      cases harity : s.arity with
      | single =>
        unfold MemberSpec.Counts at hcounts
        rw [harity] at hcounts
        have hnil : es = .nil := by
          cases es with
          | nil => rfl
          | value _ _ es => exact nomatch Nat.succ.inj hcounts
          | object _ _ es => exact nomatch Nat.succ.inj hcounts
        subst hnil
        obtain ⟨hkey, hval, -⟩ := hfits
        obtain rfl := KeyFits.empty hkey hmap
        obtain ⟨t', ht', htype, hsound⟩ := ValueFits.content hval
        obtain rfl := Content.direct.inj (ht.symm.trans ht')
        have hread : readText conv (writeText conv val) t = val ↔ _ :=
          readText_writeText_iff htype hsound hall.2.1
        have hroom : s.Room 0 := fun h => by rw [harity] at h; cases h
        rw [convertSingle, elemsToXml_value hmap, child_cons_self _ (valueNode_name val)]
        dsimp only
        rw [typeIndex_of_direct ht]
        change Gives ((s.write 0 .empty (readText conv (writeText conv val) t)).map fun _ =>
          (Elems.value .empty (readText conv (writeText conv val) t) .nil, [])) _ ↔ _
        constructor
        · rintro ⟨ws, h⟩
          refine ⟨(nofun), hread.mp ?_, trivial⟩
          cases hwrite : s.write 0 .empty (readText conv (writeText conv val) t) with
          | error fault =>
            rw [hwrite] at h
            cases h
          | ok u =>
            rw [hwrite] at h
            exact (Elems.value.inj (congrArg Prod.fst (Except.ok.inj h))).2.1
        · rintro ⟨-, hkept, -⟩
          rw [hread.mpr hkept, s.write_ok hroom hkey hval]
          exact ⟨_, rfl⟩
      | mapped => exact absurd harity hmap
      | iterable =>
        rw [gives_arrayEnd, convertArray_iff ht hmap _ 0 (fun h => by rw [harity] at h; cases h)
          hfits hall, harity]
      | fixedIterable =>
        unfold MemberSpec.Counts at hcounts
        rw [harity] at hcounts
        rw [gives_fixedEnd, convertArray_iff ht hmap _ 0
          (fun _ => by rw [Nat.zero_add]; exact Nat.le_of_eq hcounts) hfits hall, harity]

/-- A member with objects. -/
theorem convertMember_nested_iff {c : Bytes} (hc : s.content = .nested c) (es : Elems)
    (hfits : es.Fits reg s)
    (hone : s.arity = .single →
      (Gives (firstObject conv reg s (elemsToXml conv typeName st s es)) es ↔
        es.XmlKept conv s.arity))
    (harray : s.arity ≠ .mapped →
      (GivesAll (convertArrayObject conv reg s 0 (elemsToXml conv typeName st s es)) es ↔
        es.XmlKept conv s.arity)) :
    Gives (convertMember s (elemsToXml conv typeName st s es)
        (firstObject conv reg s (elemsToXml conv typeName st s es))
        (arrayEnd (convertArrayObject conv reg s 0 (elemsToXml conv typeName st s es)))
        (convertMapObjects conv reg s 0 (elemsToXml conv typeName st s es))
        (fixedEnd s (convertArrayObject conv reg s 0 (elemsToXml conv typeName st s es)))) es ↔
      es.XmlKept conv s.arity := by
  have hnested : s.isNested = true := by rw [MemberSpec.isNested, hc]
  cases es with
  | nil => exact iff_of_true gives_convertMember_nil trivial
  | value key val es =>
    obtain ⟨t, ht, -⟩ := ValueFits.content hfits.2.1
    rw [hc] at ht
    cases ht
  | object key obj es =>
    by_cases hmap : s.arity = .mapped
    · have hpairs : Gives (convertMapObjects conv reg s 0
          (elemsToXml conv typeName st s (.object key obj es))) _ ↔ _ :=
        convertMapObjects_iff hc hmap _ 0 hfits
      rw [elemsToXml, if_pos hmap] at hpairs ⊢
      have hobject : (Xmls.cons (keyNode typeName st s (writeText conv key))
          (.cons (objectNode s.className (membersToXml conv typeName false obj)) .nil)).child
            (text "object") =
          some (objectNode s.className (membersToXml conv typeName false obj)) := by
        have hne : (keyNode typeName st s (writeText conv key)).name ≠ text "object" := by
          rw [keyNode_name]
          decide
        rw [child_cons_of_ne _ hne, child_cons_self _ (objectNode_name _ _)]
      rw [pairNode, convertMember_pairs (child_of_mapped hmap (by decide) es)
        (child_of_mapped hmap (by decide) es) (by rw [hobject, hnested]; simp)]
      exact hpairs
    · have hsome : ((elemsToXml conv typeName st s (.object key obj es)).child
          (text "object")).isSome = true := by
        rw [elemsToXml_object hmap, child_cons_self _ (objectNode_name _ _)]
        rfl
      rw [convertMember_some (by rw [hsome, hnested]; simp)]
      cases harity : s.arity with
      | single =>
        have h := hone harity
        rw [harity] at h
        exact h
      | mapped => exact absurd harity hmap
      | iterable => exact gives_arrayEnd.trans (harity ▸ harray hmap)
      | fixedIterable => exact gives_fixedEnd.trans (harity ▸ harray hmap)

theorem givesAll_object {x : Except Fault (Obj × List XmlWarning)} {y : Except Fault Written}
    {obj : Obj} {es : Elems} :
    GivesAll (do
      let (o, ws) ← x
      let (es, ws', exceeded) ← y
      .ok (Elems.object .empty o es, ws ++ ws', exceeded)) (.object .empty obj es) ↔
      Gives x obj ∧ GivesAll y es := by
  constructor
  · rintro ⟨ws, exceeded, h⟩
    cases x with
    | error fault => cases h
    | ok r =>
      cases y with
      | error fault => cases h
      | ok q =>
        have helems : Elems.object .empty r.1 q.1 = .object .empty obj es :=
          congrArg Prod.fst (Except.ok.inj h)
        obtain ⟨-, rfl, rfl⟩ := Elems.object.inj helems
        exact ⟨⟨r.2, rfl⟩, q.2.1, q.2.2, rfl⟩
  · rintro ⟨⟨ws, rfl⟩, ws', exceeded, rfl⟩
    exact ⟨ws ++ ws', exceeded, rfl⟩

theorem member_inj {s : MemberSpec} (es : Elems) (ms : Obj) (es' : Elems) (ms' : Obj)
    (h : Obj.member s es ms = .member s es' ms') : es = es' ∧ ms = ms' := (Obj.member.inj h).2

mutual

/-- The objects that are read as they were written. -/
theorem readMembers_membersToXml_iff (c : Bytes) : (v : Obj) → (st : Bool) →
    (ss : List MemberSpec) → (∀ s ∈ ss, s ∈ reg.members c) → v.Fits reg ss →
    v.All Any.XmlPlain Any.XmlPlain →
    (Gives (readMembers conv reg c (membersToXml conv typeName st v)) v ↔ v.XmlKept conv)
  | .nil, _, _, _, _, _ => iff_of_true ⟨_, rfl⟩ trivial
  | .member s es ms, _, [], _, hfits, _ => by cases hfits
  | .member t es ms, st, s :: ss, hmem, hfits, hall => by
    obtain ⟨rfl, hcounts, hes, hms⟩ := hfits
    obtain ⟨hallEs, hallMs⟩ := hall
    have ih := readMembers_membersToXml_iff c ms st ss
      (fun u hu => hmem u (List.mem_cons_of_mem _ hu)) hms hallMs
    have hname : attributeValue (text "name") [(text "name", t.name)] = t.name := by
      rw [attributeValue, List.lookup_cons_self]
      rfl
    rw [membersToXml, readMembers, if_pos rfl, hname, reg.find_of_mem (hmem t List.mem_cons_self)]
    dsimp only
    cases hc : t.content with
    | direct ty =>
      rw [show t.isNested = false by rw [MemberSpec.isNested, hc], if_neg (by decide)]
      refine (gives_bind (f := Obj.member t) member_inj).trans ?_
      rw [ih, convertMember_direct_iff hc es hcounts hes hallEs, Obj.XmlKept]
    | nested c' =>
      rw [show t.isNested = true by rw [MemberSpec.isNested, hc], if_pos rfl]
      refine (gives_bind (f := Obj.member t) member_inj).trans ?_
      rw [ih, Obj.XmlKept]
      refine and_congr_left fun _ => ?_
      refine convertMember_nested_iff hc es hes (fun harity => ?_) fun hne => ?_
      · unfold MemberSpec.Counts at hcounts
        rw [harity] at hcounts
        exact firstObject_iff hc harity es st hcounts hes hallEs
      · refine convertArrayObject_iff hc hne es st 0 (fun hfixed => ?_) hes hallEs
        unfold MemberSpec.Counts at hcounts
        rw [hfixed] at hcounts
        rw [Nat.zero_add]
        exact Nat.le_of_eq hcounts

/-- A single object. -/
theorem firstObject_iff {s : MemberSpec} {c : Bytes} (hc : s.content = .nested c)
    (harity : s.arity = .single) : (es : Elems) → (st : Bool) → es.length = 1 → es.Fits reg s →
    es.All Any.XmlPlain Any.XmlPlain s.arity →
    (Gives (firstObject conv reg s (elemsToXml conv typeName st s es)) es ↔
      es.XmlKept conv s.arity)
  | .nil, _, hlen, _, _ => by cases hlen
  | .value key val es, _, _, hfits, _ => by
    obtain ⟨t, ht, -⟩ := ValueFits.content hfits.2.1
    rw [hc] at ht
    cases ht
  | .object _ _ (.value _ _ _), _, hlen, _, _ => nomatch Nat.succ.inj hlen
  | .object _ _ (.object _ _ _), _, hlen, _, _ => nomatch Nat.succ.inj hlen
  | .object key obj .nil, st, _, hfits, hall => by
    have hne : s.arity ≠ .mapped := by rw [harity]; decide
    obtain ⟨hkey, ⟨c', hc', hobj⟩, -⟩ := hfits
    obtain rfl := KeyFits.empty hkey hne
    obtain rfl := Content.nested.inj (hc.symm.trans hc')
    have ih := readMembers_membersToXml_iff c obj false (reg.members c) (fun _ h => h) hobj hall.2.1
    have hclass : s.className = c := by rw [MemberSpec.className, hc]
    rw [elemsToXml_object hne, firstObject, if_pos (objectNode_name _ _), xmlToDco_objectNode,
      hclass]
    constructor
    · rintro ⟨ws, h⟩
      refine ⟨hne, ih.mp ?_, trivial⟩
      cases hread : readMembers conv reg c (membersToXml conv typeName false obj) with
      | error fault =>
        rw [hread] at h
        cases h
      | ok r =>
        rw [hread] at h
        have hobj : r.1 = obj := (Elems.object.inj (congrArg Prod.fst (Except.ok.inj h))).2.1
        exact ⟨r.2, by rw [← hobj]⟩
    · rintro ⟨-, hkept, -⟩
      obtain ⟨ws, hread⟩ := ih.mpr hkept
      rw [hread]
      exact ⟨ws, rfl⟩

/-- An array of objects. -/
theorem convertArrayObject_iff {s : MemberSpec} {c : Bytes} (hc : s.content = .nested c)
    (hne : s.arity ≠ .mapped) : (es : Elems) → (st : Bool) → (n : ℕ) →
    (s.arity = .fixedIterable → n + es.length ≤ s.size) → es.Fits reg s →
    es.All Any.XmlPlain Any.XmlPlain s.arity →
    (GivesAll (convertArrayObject conv reg s n (elemsToXml conv typeName st s es)) es ↔
      es.XmlKept conv s.arity)
  | .nil, _, _, _, _, _ => iff_of_true ⟨_, _, rfl⟩ trivial
  | .value key val es, _, _, _, hfits, _ => by
    obtain ⟨t, ht, -⟩ := ValueFits.content hfits.2.1
    rw [hc] at ht
    cases ht
  | .object key obj es, st, n, hroom, hfits, hall => by
    obtain ⟨hkey, ⟨c', hc', hobj⟩, hes⟩ := hfits
    obtain rfl := KeyFits.empty hkey hne
    obtain rfl := Content.nested.inj (hc.symm.trans hc')
    obtain ⟨hn, hrest⟩ := room_succ hroom
    have ih := readMembers_membersToXml_iff c obj false (reg.members c) (fun _ h => h) hobj hall.2.1
    have ihRest := convertArrayObject_iff hc hne es st (n + 1) hrest hes hall.2.2
    rw [elemsToXml_object hne, convertArrayObject, if_pos (objectNode_name _ _),
      s.recurse_ok hn hkey hc]
    dsimp only
    rw [givesAll_object, MemberSpec.className, hc]
    dsimp only
    rw [xmlToDco_objectNode, ih, ihRest]
    exact ⟨fun h => ⟨hne, h⟩, fun h => h.2⟩

end

/-- The decoder writes the elements that the readers delivered. -/
def XmlRoundTrips (conv : TextConversion) (typeName : TypeId → Bytes) (st : Bool) (reg : Registry)
    (c : Bytes) (v : Obj) : Prop :=
  Gives (xmlToDco conv reg c (dcoToXml conv typeName st c v)) v

/-- Objects make the round trip when they are kept. -/
theorem xmlRoundTrips_iff (conv : TextConversion) (typeName : TypeId → Bytes) (st : Bool)
    (reg : Registry) (c : Bytes) (v : Obj) (hfits : v.Fits reg (reg.members c))
    (hplain : v.All Any.XmlPlain Any.XmlPlain) :
    XmlRoundTrips conv typeName st reg c v ↔ v.XmlKept conv := by
  unfold XmlRoundTrips dcoToXml
  rw [xmlToDco_objectNode]
  exact readMembers_membersToXml_iff c v st (reg.members c) (fun _ h => h) hfits hplain

end

/-! ### Samples -/

/-- The decimal digits of a number. -/
def decimalDigits (n : ℕ) : Bytes :=
  if n = 0 then [0x30] else (Nat.digits 10 n).reverse.map fun d => UInt8.ofNat (0x30 + d)

def decimalValue (t : Bytes) : ℕ := Nat.ofDigits 10 (t.reverse.map fun b => b.toNat - 0x30)

theorem digit_toNat {d : ℕ} (hd : d < 10) : (UInt8.ofNat (0x30 + d)).toNat = 0x30 + d := by
  rw [UInt8.toNat_ofNat']
  omega

theorem decimalValue_decimalDigits (n : ℕ) : decimalValue (decimalDigits n) = n := by
  unfold decimalDigits
  split
  · next h =>
    subst h
    rfl
  · have hdigits : ∀ l : List ℕ, (∀ d ∈ l, d < 10) →
        (l.map fun d => UInt8.ofNat (0x30 + d)).map (fun b => b.toNat - 0x30) = l := by
      intro l hl
      rw [List.map_map]
      refine (List.map_congr_left fun d hd => ?_).trans (List.map_id l)
      rw [Function.comp_apply, digit_toNat (hl d hd), Nat.add_sub_cancel_left, id]
    rw [decimalValue, ← List.map_reverse, List.reverse_reverse, hdigits _ fun d hd =>
      Nat.digits_lt_base (by decide) hd, Nat.ofDigits_digits]

/-- The digits have no sign. -/
theorem head?_decimalDigits (n : ℕ) : (decimalDigits n).head? ≠ some 0x2d := by
  unfold decimalDigits
  split
  · decide
  · rw [List.head?_map]
    intro h
    obtain ⟨d, hd, h⟩ := Option.map_eq_some_iff.mp h
    have hlt : d < 10 := Nat.digits_lt_base (by decide) (List.mem_reverse.mp (List.mem_of_head? hd))
    have := congrArg UInt8.toNat h
    rw [digit_toNat hlt] at this
    change 0x30 + d = 0x2d at this
    omega

/-- A number in decimal notation. -/
def decimalOfInt : ℤ → Bytes
  | .ofNat n => decimalDigits n
  | .negSucc n => 0x2d :: decimalDigits (n + 1)

def decimalToInt (t : Bytes) : ℤ :=
  if t.head? = some 0x2d then -decimalValue t.tail else decimalValue t

theorem decimalToInt_decimalOfInt (n : ℤ) : decimalToInt (decimalOfInt n) = n := by
  cases n with
  | ofNat n =>
    rw [decimalOfInt, decimalToInt, if_neg (head?_decimalDigits n), decimalValue_decimalDigits]
    rfl
  | negSucc n =>
    rw [decimalOfInt, decimalToInt, if_pos List.head?_cons, List.tail_cons,
      decimalValue_decimalDigits]
    rfl

/-- Decimal notation, for floating point values too, of which it is the bit pattern. -/
def decimalText : TextConversion where
  ofInt := decimalOfInt
  toInt _ _ := decimalToInt
  ofFloat v := decimalDigits v.toNat
  toFloat t := BitVec.ofNat _ (decimalValue t)
  ofDouble v := decimalDigits v.toNat
  toDouble t := BitVec.ofNat _ (decimalValue t)
  toInt_ofInt _ _ n _ _ := decimalToInt_decimalOfInt n
  toInt_nil _ _ := rfl
  toFloat_ofFloat v _ := by
    rw [decimalValue_decimalDigits, BitVec.ofNat_toNat, BitVec.setWidth_eq]
  toFloat_nil := rfl
  toDouble_ofDouble v _ := by
    rw [decimalValue_decimalDigits, BitVec.ofNat_toNat, BitVec.setWidth_eq]
  toDouble_nil := rfl

/-- Numbers by a key, and named points. -/
def mapRegistry : Registry where
  members c :=
    if c = text "Plan" then
      [{ name := text "counts", arity := .mapped, key := .int true .w32,
         content := .direct (.int false .w16) },
       { name := text "points", arity := .iterable, content := .nested (text "Point") }]
    else if c = text "Point" then
      [{ name := text "name", arity := .single, content := .direct .string }]
    else []
  nodup c := by
    split
    · decide
    · split <;> decide
  terminated c := by
    split
    · decide
    · split <;> decide

/-- A plan with one number by a key, and one point. -/
def samplePlan (key : BitVec 32) : Obj :=
  .member { name := text "counts", arity := .mapped, key := .int true .w32,
            content := .direct (.int false .w16) }
    (.value (.int true .w32 key) (.int false .w16 7) .nil)
    (.member { name := text "points", arity := .iterable, content := .nested (text "Point") }
      (.object .empty
        (.member { name := text "name", arity := .single, content := .direct .string }
          (.value .empty (.string (text "A")) .nil) .nil) .nil) .nil)

theorem samplePlan_fits (key : BitVec 32) :
    (samplePlan key).Fits mapRegistry (mapRegistry.members (text "Plan")) := by
  refine ⟨rfl, trivial, ⟨⟨rfl, trivial⟩, ⟨rfl, trivial⟩, trivial⟩, rfl, trivial,
    ⟨rfl, ⟨text "Point", rfl, ?_⟩, trivial⟩, trivial⟩
  exact ⟨rfl, rfl, ⟨rfl, ⟨rfl, trivial⟩, trivial⟩, trivial⟩

theorem samplePlan_plain (key : BitVec 32) : (samplePlan key).All Any.XmlPlain Any.XmlPlain :=
  ⟨⟨fun _ => trivial, trivial, trivial⟩,
    ⟨nofun, ⟨⟨nofun, show 0 ∉ text "A" by decide, trivial⟩, trivial⟩, trivial⟩, trivial⟩

theorem xmlRoundTrips_samplePlan :
    XmlRoundTrips decimalText (fun _ => []) true mapRegistry (text "Plan") (samplePlan 0) :=
  (xmlRoundTrips_iff _ _ _ _ _ _ (samplePlan_fits 0) (samplePlan_plain 0)).mpr
    ⟨⟨fun _ => rfl, trivial, trivial⟩,
      ⟨nofun, ⟨⟨nofun, trivial, trivial⟩, trivial⟩, trivial⟩, trivial⟩

/-- The key of a value is not written: it is zero when it is read. -/
theorem not_xmlRoundTrips_key :
    ¬ ∀ (conv : TextConversion) (typeName : TypeId → Bytes) (showType : Bool) (reg : Registry)
      (c : Bytes) (v : Obj), v.Fits reg (reg.members c) → v.All Any.XmlPlain Any.XmlPlain →
      XmlRoundTrips conv typeName showType reg c v := by
  intro h
  obtain ⟨ws, hread⟩ := h decimalText (fun _ => []) false mapRegistry (text "Plan") (samplePlan 5)
    (samplePlan_fits 5) (samplePlan_plain 5)
  have hkey := (Elems.value.inj (Obj.member.inj (congrArg Prod.fst (Except.ok.inj hread))).2.1).1
  have hzero : (0 : BitVec 32) = 5 := eq_of_heq (Any.int.inj hkey).2.2
  cases hzero

end Dueca.Coding
