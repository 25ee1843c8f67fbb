import Dueca.Coding.Elements

/-!
# JSON documents

A document is given as the parser has it, so that its text does not matter here. A single element
is a value or an object, elements of other members are in an array, and an element of a map is an
object with a key and a value. The decoder sees from the shape of the document what applies.

A type that is not in the table of the encoder is written as null, and one that is not in the
table of the decoder is read as a string; an enumerated value comes back with that.
-/

namespace Dueca.Coding

open Dueca.Dco (Width)

mutual

/-- A value in a document. -/
inductive Json
  | null
  | bool (b : Bool)
  | int (n : ℤ)
  | double (v : BitVec 64)
  | string (s : Bytes)
  | array (vs : Jsons)
  | object (ms : JsonMembers)

inductive Jsons
  | nil
  | cons (v : Json) (vs : Jsons)

inductive JsonMembers
  | nil
  | cons (key : Bytes) (v : Json) (ms : JsonMembers)

end

/-- The first member with a name. -/
def JsonMembers.get (name : Bytes) : JsonMembers → Option Json
  | .nil => none
  | .cons key v ms => if key = name then some v else ms.get name

def finite32 (v : BitVec 32) : Prop := v.extractLsb' 23 8 ≠ 0xff

def finite64 (v : BitVec 64) : Prop := v.extractLsb' 52 11 ≠ 0x7ff

instance (v : BitVec 32) : Decidable (finite32 v) := inferInstanceAs (Decidable (_ ≠ _))

instance (v : BitVec 64) : Decidable (finite64 v) := inferInstanceAs (Decidable (_ ≠ _))

/-- Conversions between `float` and `double`. A finite `float` is a `double` too. -/
structure FloatConversion where
  widen : BitVec 32 → BitVec 64
  narrow : BitVec 64 → BitVec 32
  ofInt : ℤ → BitVec 64
  finite_widen : ∀ v, finite32 v → finite64 (widen v)
  narrow_widen : ∀ v, finite32 v → narrow (widen v) = v

section Encoder

variable (conv : FloatConversion) (strict : Bool)

/-- `Double` writes nothing for a value that is not finite. The strict variant writes null for one
that is not a number, and else a large value. -/
def writeDouble (v : BitVec 64) : Option Json :=
  if finite64 v then some (.double v)
  else if strict then
    if v.extractLsb' 0 52 ≠ 0 then some .null
    else if v.msb then some (.double 0xe974e718d7d7625a)
    else some (.double 0x6974e718d7d7625a)
  else none

/-- `writeAnyValue`. -/
def writeAny : Any → Option Json
  | .int false _ v => some (.int v.toNat)
  | .int true _ v => some (.int v.toInt)
  | .char c => some (.string [c])
  | .bool b => some (.bool b)
  | .float v => writeDouble strict (conv.widen v)
  | .double v => writeDouble strict v
  | .string s => some (.string s)
  | .smartstring s => some (.string s)
  | .dstring mxsize s => if mxsize ∈ 5 :: dstringSizes then some (.string s) else some .null
  | .activityContext printed => some (.string printed)
  -- no mapping to serialize the type
  | .empty | .enum .. | .xmlNode | .other .. => some .null

/-- An element of a map. -/
def pairToJson (key value : Json) : Json :=
  .object (.cons (text "key") key (.cons (text "value") value .nil))

mutual

/-- `DCOtoJSON`: the members of the object. -/
def dcoToJson : Obj → Option JsonMembers
  | .nil => some .nil
  | .member s es ms =>
    match elemsToJson (s.arity = .mapped) es, dcoToJson ms with
    | some vs, some rest =>
      if s.arity = .single then
        match vs with
        | .cons v .nil => some (.cons s.name v rest)
        | _ => none
      else some (.cons s.name (.array vs) rest)
    | _, _ => none

def elemsToJson (mapped : Bool) : Elems → Option Jsons
  | .nil => some .nil
  | .value key val es =>
    match writeAny conv strict val, elemsToJson mapped es with
    | some v, some vs =>
      if mapped then (writeAny conv strict key).map fun k => .cons (pairToJson k v) vs
      else some (.cons v vs)
    | _, _ => none
  | .object key obj es =>
    match dcoToJson obj, elemsToJson mapped es with
    | some ms, some vs =>
      if mapped then (writeAny conv strict key).map fun k => .cons (pairToJson k (.object ms)) vs
      else some (.cons (.object ms) vs)
    | _, _ => none

end

end Encoder

section Decoder

variable (conv : FloatConversion)

/-- `GetString`, which asserts that there is a string. -/
def getString : Json → Except Fault Bytes
  | .string s => .ok s
  | _ => .error .assertion

/-- `GetUint`, `GetInt` and the variants for 64 bits: the number has to be in this range. -/
def getInt (low high : ℤ) : Json → Except Fault ℤ
  | .int n => if low ≤ n ∧ n < high then .ok n else .error .assertion
  | _ => .error .assertion

def getDouble : Json → Except Fault (BitVec 64)
  | .double v => .ok v
  | .int n => .ok (conv.ofInt n)
  | _ => .error .assertion

def getBool : Json → Except Fault Bool
  | .bool b => .ok b
  | _ => .error .assertion

/-- The width of the numbers that are got for an integer. -/
def numberBits (w : Width) : ℕ := if w = .w64 then 64 else 32

/-- `readValue`. A type that is not in the table is read as a string. -/
def readValue (doc : Json) : TypeId → Except Fault Any
  | .int false w => (getInt 0 (2 ^ numberBits w) doc).map fun n => .int false w (.ofInt _ n)
  | .int true w =>
    (getInt (-2 ^ (numberBits w - 1)) (2 ^ (numberBits w - 1)) doc).map
      fun n => .int true w (.ofInt _ n)
  | .char => (getString doc).map fun s => .char (s.headD 0)
  | .bool => (getBool doc).map .bool
  | .float =>
    match doc with
    | .null => .ok (.float 0x7fc00000)
    | _ => (getDouble conv doc).map fun v => .float (conv.narrow v)
  | .double =>
    match doc with
    | .null => .ok (.double 0x7ff8000000000000)
    | _ => (getDouble conv doc).map .double
  | .string => (getString doc).map fun s => .string (cstr s)
  | .smartstring => (getString doc).map fun s => .smartstring (cstr s)
  | .dstring mxsize =>
    (getString doc).map fun s =>
      if mxsize ∈ 5 :: dstringSizes then .dstring mxsize ((cstr s).take mxsize)
      else .string (cstr s)
  | .void | .activityContext | .enum _ | .xmlNode | .other _ =>
    (getString doc).map fun s => .string (cstr s)

/-- Warnings, with the key and the class, or about an element of a map. -/
inductive Warning
  | needsObject (key className : Bytes)
  | isSingle (key className : Bytes)
  | needsValue (key className : Bytes)
  | notFound (key className : Bytes)
  | mapValues
  | mapObjects
  deriving DecidableEq, Repr

variable (reg : Registry)

/-- `!IsObject() && !IsArray()` -/
def Json.isDirect : Json → Bool
  | .object _ => false
  | .array _ => false
  | _ => true

mutual

/-- `JSONtoDCO`, for an object of a class. -/
def readObject (c : Bytes) : JsonMembers → Except Fault (Obj × List Warning)
  | .nil => .ok (.nil, [])
  | .cons key v rest =>
    match reg.find c (cstr key) with
    | none => do
      let (ms, ws) ← readObject c rest
      .ok (ms, .notFound (cstr key) c :: ws)
    | some s => do
      let (es, ws) ← readMember c s v
      let (ms, ws') ← readObject c rest
      .ok (match es with | some es => .member s es ms | none => ms, ws ++ ws')

/-- The part of `JSONtoDCO` for a member, which may not be written. -/
def readMember (c : Bytes) (s : MemberSpec) : Json → Except Fault (Option Elems × List Warning)
  | .object ms =>
    match s.content, s.arity with
    | .nested c', .single => do
      let (o, ws) ← readObject c' ms
      .ok (some (.object .empty o .nil), ws)
    | _, _ => .ok (none, [.needsObject s.name c])
  | .array vs =>
    match s.arity with
    | .single => .ok (none, [.isSingle s.name c])
    | .iterable => do
      let (es, ws) ← writeArray s 0 vs
      .ok (some es, ws)
    | .mapped => do
      let (es, ws) ← writeMap s vs
      .ok (some es, ws)
    | .fixedIterable =>
      -- what is to be warned about is an array, and not the string that is asked for
      match writeArray s 0 vs with
      | .ok (es, ws) => if es.length = s.size then .ok (some es, ws) else .error .assertion
      | .error .indexExceeded => .error .assertion
      | .error fault => .error fault
  | v =>
    if s.arity ≠ .single ∨ s.isNested = true then .ok (none, [.needsValue s.name c])
    else do
      let a ← readValue conv v s.typeIndex
      s.write 0 .empty a
      .ok (some (.value .empty a .nil), [])

/-- `writeArray`, after a number of elements. -/
def writeArray (s : MemberSpec) (n : ℕ) : Jsons → Except Fault (Elems × List Warning)
  | .nil => .ok (.nil, [])
  | .cons (.object ms) vs =>
    match s.content with
    | .nested _ => do
      let c ← s.recurse n .empty
      let (o, ws) ← readObject c ms
      let (es, ws') ← writeArray s (n + 1) vs
      .ok (.object .empty o es, ws ++ ws')
    | .direct _ => .error .assertion
  | .cons (.array _) _ => .error .assertion
  | .cons v vs =>
    match s.content with
    | .nested _ => .error .assertion
    | .direct t => do
      let a ← readValue conv v t
      s.write n .empty a
      let (es, ws) ← writeArray s (n + 1) vs
      .ok (.value .empty a es, ws)

/-- `writeMap`. -/
def writeMap (s : MemberSpec) : Jsons → Except Fault (Elems × List Warning)
  | .nil => .ok (.nil, [])
  | .cons (.object pair) vs =>
    match s.content with
    | .direct t =>
      match pair.get (text "key"), pair.get (text "value") with
      | some k, some v =>
        if v.isDirect then do
          let key ← readValue conv k s.key
          let a ← readValue conv v t
          s.write 0 key a
          let (es, ws) ← writeMap s vs
          .ok (.value key a es, ws)
        else do
          let (es, ws) ← writeMap s vs
          .ok (es, .mapValues :: ws)
      | _, _ => do
        let (es, ws) ← writeMap s vs
        .ok (es, .mapValues :: ws)
    | .nested c =>
      match pair.get (text "key"), valueObject c pair with
      | some k, some o => do
        let key ← readValue conv k s.key
        let _ ← s.recurse 0 key
        let (o, ws) ← o
        let (es, ws') ← writeMap s vs
        .ok (.object key o es, ws ++ ws')
      | _, _ => do
        let (es, ws) ← writeMap s vs
        .ok (es, .mapObjects :: ws)
  | .cons _ vs => do
    let (es, ws) ← writeMap s vs
    .ok (es, (if s.isNested then .mapObjects else .mapValues) :: ws)

/-- The member with name "value" of an element of a map, when that is an object. -/
def valueObject (c : Bytes) : JsonMembers → Option (Except Fault (Obj × List Warning))
  | .nil => none
  | .cons key (.object ms) rest =>
    if key = text "value" then some (readObject c ms) else valueObject c rest
  | .cons key _ rest => if key = text "value" then none else valueObject c rest

end

end Decoder

/-! ### Round trips -/

/-- A string without zero, and a finite floating point value. -/
def Any.Plain : Any → Prop
  | .float v => finite32 v
  | .double v => finite64 v
  | .string s | .smartstring s => 0 ∉ s
  | _ => True

instance : (a : Any) → Decidable a.Plain
  | .float v => inferInstanceAs (Decidable (finite32 v))
  | .double v => inferInstanceAs (Decidable (finite64 v))
  | .string s => inferInstanceAs (Decidable (0 ∉ s))
  | .smartstring s => inferInstanceAs (Decidable (0 ∉ s))
  | .empty | .int .. | .char _ | .bool _ | .dstring .. | .activityContext _ | .enum ..
  | .xmlNode | .other .. => .isTrue trivial

/-- The types that the tables of the encoder and the decoder both have. -/
def TypeId.Shared : TypeId → Prop
  | .dstring mxsize => mxsize ∈ 5 :: dstringSizes
  | .void | .activityContext | .enum _ | .xmlNode | .other _ => False
  | _ => True

/-- A type is delivered as itself, or as a string. -/
theorem TypeId.eq_of_delivered {t u : TypeId} (h : u = t.delivered) (hu : u ≠ .string) : t = u := by
  cases t with
  | enum name => exact absurd h hu
  | _ => exact h.symm

theorem getInt_ok {low high n : ℤ} (h : low ≤ n ∧ n < high) : getInt low high (.int n) = .ok n :=
  if_pos h

theorem bits_le (w : Width) : w.bits ≤ numberBits w := by
  cases w <;> decide

section

variable {conv : FloatConversion} {strict : Bool}

theorem writeDouble_finite {v : BitVec 64} (h : finite64 v) :
    writeDouble strict v = some (.double v) := if_pos h

/-- A value is read as it was written. -/
theorem readValue_writeAny {a : Any} {t : TypeId} (htype : a.type = t.delivered) (hsound : a.Sound)
    (hplain : a.Plain) (hshared : a.type.Shared) :
    ∃ doc, writeAny conv strict a = some doc ∧ doc.isDirect = true ∧
      readValue conv doc t = .ok a := by
  cases a with
  | int signed w v =>
    obtain rfl := TypeId.eq_of_delivered htype (by simp [Any.type])
    have hbits : (2 : ℤ) ^ w.bits ≤ 2 ^ numberBits w :=
      pow_le_pow_right₀ (by decide) (bits_le w)
    cases signed with
    | false =>
      refine ⟨_, rfl, rfl, ?_⟩
      have hlt : (v.toNat : ℤ) < 2 ^ w.bits := mod_cast v.isLt
      have hrange : (0 : ℤ) ≤ v.toNat ∧ (v.toNat : ℤ) < 2 ^ numberBits w :=
        ⟨Int.natCast_nonneg _, lt_of_lt_of_le hlt hbits⟩
      rw [Any.type, readValue, getInt_ok hrange]
      simp [Except.map]
    | true =>
      refine ⟨_, rfl, rfl, ?_⟩
      have hhalf : (2 : ℤ) ^ (w.bits - 1) ≤ 2 ^ (numberBits w - 1) :=
        pow_le_pow_right₀ (by decide) (Nat.sub_le_sub_right (bits_le w) 1)
      have hlow : -(2 : ℤ) ^ (w.bits - 1) ≤ v.toInt := BitVec.le_toInt v
      have hhigh : v.toInt < (2 : ℤ) ^ (w.bits - 1) := BitVec.toInt_lt
      have hrange : -(2 : ℤ) ^ (numberBits w - 1) ≤ v.toInt ∧
          v.toInt < (2 : ℤ) ^ (numberBits w - 1) :=
        ⟨le_trans (neg_le_neg hhalf) hlow, lt_of_lt_of_le hhigh hhalf⟩
      rw [Any.type, readValue, getInt_ok hrange]
      simp [Except.map]
  | char c =>
    obtain rfl := TypeId.eq_of_delivered htype (by simp [Any.type])
    exact ⟨_, rfl, rfl, rfl⟩
  | bool b =>
    obtain rfl := TypeId.eq_of_delivered htype (by simp [Any.type])
    exact ⟨_, rfl, rfl, rfl⟩
  | float v =>
    obtain rfl := TypeId.eq_of_delivered htype (by simp [Any.type])
    refine ⟨_, writeDouble_finite (conv.finite_widen v hplain), rfl, ?_⟩
    change Except.ok (Any.float (conv.narrow (conv.widen v))) = _
    rw [conv.narrow_widen v hplain]
  | double v =>
    obtain rfl := TypeId.eq_of_delivered htype (by simp [Any.type])
    exact ⟨_, writeDouble_finite hplain, rfl, rfl⟩
  | string s =>
    have hread : (Except.ok (Any.string (cstr s)) : Except Fault Any) = .ok (.string s) := by
      rw [cstr_of_not_mem hplain]
    cases t with
    | string => exact ⟨_, rfl, rfl, hread⟩
    | enum name => exact ⟨_, rfl, rfl, hread⟩
    | _ => cases htype
  | smartstring s =>
    obtain rfl := TypeId.eq_of_delivered htype (by simp [Any.type])
    refine ⟨_, rfl, rfl, ?_⟩
    change Except.ok (Any.smartstring (cstr s)) = _
    rw [cstr_of_not_mem hplain]
  | dstring mxsize s =>
    obtain rfl := TypeId.eq_of_delivered htype (by simp [Any.type])
    have hsize : mxsize ∈ 5 :: dstringSizes := hshared
    refine ⟨_, if_pos hsize, rfl, ?_⟩
    change Except.ok (if mxsize ∈ 5 :: dstringSizes then Any.dstring mxsize ((cstr s).take mxsize)
      else .string (cstr s)) = _
    rw [if_pos hsize, cstr_of_not_mem hsound.2, List.take_of_length_le hsound.1]
  | empty => cases hshared
  | activityContext printed => cases hshared
  | enum name v => cases hshared
  | xmlNode => cases hshared
  | other name data => cases hshared

/-- A value that can be coded. -/
def Any.Codable (a : Any) : Prop := a.Plain ∧ a.type.Shared

theorem Any.Codable.readValue (conv : FloatConversion) (strict : Bool) {a : Any} {t : TypeId}
    (h : a.Codable) (htype : a.type = t.delivered) (hsound : a.Sound) :
    ∃ doc, writeAny conv strict a = some doc ∧ doc.isDirect = true ∧
      readValue conv doc t = .ok a := readValue_writeAny htype hsound h.1 h.2

variable {reg : Registry} {s : MemberSpec}

theorem ValueFits.content {val : Any} (h : s.ValueFits val) :
    ∃ t, s.content = .direct t ∧ val.type = t.delivered ∧ val.Sound := by
  unfold MemberSpec.ValueFits at h
  split at h
  · rename_i t ht
    exact ⟨t, ht, h⟩
  · cases h

/-- A key of a map that is delivered for this type. -/
theorem KeyFits.key {key : Any} (h : s.KeyFits key) (hmap : s.arity = .mapped)
    (hkey : key.Codable) :
    key.type = s.key.delivered ∧ key.Sound := by
  unfold MemberSpec.KeyFits at h
  rw [if_pos hmap] at h
  refine ⟨?_, h.2⟩
  -- the key is not an enumerated value, as the tables do not have that
  cases hk : s.key with
  | enum name =>
    have hshared := hkey.2
    rw [h.1, hk] at hshared
    cases hshared
  | _ => rw [h.1, hk]; rfl

theorem KeyFits.empty {key : Any} (h : s.KeyFits key) (hmap : s.arity ≠ .mapped) :
    key = .empty := by
  unfold MemberSpec.KeyFits at h
  rwa [if_neg hmap] at h

theorem readMember_direct {c : Bytes} {v : Json} (hv : v.isDirect = true) :
    readMember conv reg c s v =
      if s.arity ≠ .single ∨ s.isNested = true then .ok (none, [.needsValue s.name c])
      else (do
        let a ← readValue conv v s.typeIndex
        s.write 0 .empty a
        .ok (some (.value .empty a .nil), [])) := by
  cases v with
  | object ms => cases hv
  | array vs => cases hv
  | _ => rw [readMember] <;> intros <;> contradiction

theorem writeArray_direct {n : ℕ} {v : Json} {vs : Jsons} (hv : v.isDirect = true) {t : TypeId}
    (ht : s.content = .direct t) :
    writeArray conv reg s n (.cons v vs) = (do
      let a ← readValue conv v t
      s.write n .empty a
      let (es, ws) ← writeArray conv reg s (n + 1) vs
      .ok (.value .empty a es, ws)) := by
  cases v with
  | object ms => cases hv
  | array vs => cases hv
  | _ => rw [writeArray, ht] <;> intros <;> contradiction

theorem text_key_ne_value : text "key" ≠ text "value" := by decide

mutual

/-- An object is read as it was written. -/
theorem readObject_dcoToJson (c : Bytes) : (v : Obj) → (ss : List MemberSpec) →
    (∀ s ∈ ss, s ∈ reg.members c) → v.Fits reg ss → v.All Any.Codable Any.Codable →
    ∃ ms, dcoToJson conv strict v = some ms ∧ readObject conv reg c ms = .ok (v, [])
  | .nil, _, _, _, _ => ⟨.nil, rfl, rfl⟩
  | .member s es ms, [], _, hfits, _ => by cases hfits
  | .member t es ms, s :: ss, hmem, hfits, hall => by
    obtain ⟨rfl, hcounts, hes, hms⟩ := hfits
    obtain ⟨hallEs, hallMs⟩ := hall
    obtain ⟨rest, hrest, hreadRest⟩ := readObject_dcoToJson c ms ss
      (fun u hu => hmem u (List.mem_cons_of_mem _ hu)) hms hallMs
    have hs := hmem t List.mem_cons_self
    have hfind : reg.find c (cstr t.name) = some t := by
      rw [cstr_of_not_mem (reg.terminated c t hs), reg.find_of_mem hs]
    -- the member is read back from its part of the document
    have hmember : ∃ v, dcoToJson conv strict (.member t es ms) = some (.cons t.name v rest) ∧
        readMember conv reg c t v = .ok (some es, []) := by
      cases harity : t.arity with
      | single =>
        have hlen : es.length = 1 := by
          unfold MemberSpec.Counts at hcounts
          rw [harity] at hcounts
          exact hcounts
        obtain ⟨v, hv, hread⟩ := readMember_elemsToJson c harity es hlen hes hallEs
        refine ⟨v, ?_, hread⟩
        rw [dcoToJson, harity, show decide (MemberArity.single = .mapped) = false from rfl, hv,
          hrest]
        rfl
      | iterable =>
        have hne : t.arity ≠ .mapped := by rw [harity]; decide
        have hroom : t.arity = .fixedIterable → 0 + es.length ≤ t.size := by
          rw [harity]
          intro h
          cases h
        obtain ⟨vs, hvs, hread⟩ := writeArray_elemsToJson hne es 0 hroom hes hallEs
        refine ⟨.array vs, ?_, ?_⟩
        · rw [dcoToJson, harity, show decide (MemberArity.iterable = .mapped) = false from rfl, hvs,
            hrest]
          rfl
        · rw [readMember, harity, hread]
          rfl
      | mapped =>
        obtain ⟨vs, hvs, hread⟩ := writeMap_elemsToJson harity es hes hallEs
        refine ⟨.array vs, ?_, ?_⟩
        · rw [dcoToJson, harity, show decide (MemberArity.mapped = .mapped) = true from rfl, hvs,
            hrest]
          rfl
        · rw [readMember, harity, hread]
          rfl
      | fixedIterable =>
        have hne : t.arity ≠ .mapped := by rw [harity]; decide
        have hlen : es.length = t.size := by
          unfold MemberSpec.Counts at hcounts
          rw [harity] at hcounts
          exact hcounts
        obtain ⟨vs, hvs, hread⟩ :=
          writeArray_elemsToJson hne es 0 (fun _ => by rw [hlen, Nat.zero_add]) hes hallEs
        refine ⟨.array vs, ?_, ?_⟩
        · rw [dcoToJson, harity, show decide (MemberArity.fixedIterable = .mapped) = false from rfl,
            hvs, hrest]
          rfl
        · rw [readMember, harity, hread]
          dsimp only
          rw [if_pos hlen]
    obtain ⟨v, hv, hread⟩ := hmember
    refine ⟨_, hv, ?_⟩
    rw [readObject, hfind]
    dsimp only
    rw [hread, hreadRest]
    rfl

/-- The only element of a member is read as it was written. -/
theorem readMember_elemsToJson (c : Bytes) {s : MemberSpec} (harity : s.arity = .single) :
    (es : Elems) → es.length = 1 → es.Fits reg s → es.All Any.Codable Any.Codable s.arity →
    ∃ v, elemsToJson conv strict false es = some (.cons v .nil) ∧
      readMember conv reg c s v = .ok (some es, [])
  | .nil, hlen, _, _ => by cases hlen
  | .value key val .nil, _, hfits, hall => by
    obtain ⟨hkey, hval, -⟩ := hfits
    obtain rfl := KeyFits.empty hkey (by rw [harity]; decide)
    obtain ⟨t, ht, htype, hsound⟩ := ValueFits.content hval
    obtain ⟨doc, hdoc, hdirect, hread⟩ := hall.2.1.readValue conv strict htype hsound
    refine ⟨doc, ?_, ?_⟩
    · rw [elemsToJson, hdoc]
      rfl
    · have hnot : ¬ (s.arity ≠ .single ∨ s.isNested = true) := by
        rw [MemberSpec.isNested, ht, harity]
        simp
      have hindex : s.typeIndex = t := by rw [MemberSpec.typeIndex, ht]
      have hroom : s.Room 0 := fun h => by rw [harity] at h; cases h
      rw [readMember_direct hdirect, if_neg hnot, hindex, hread]
      change (s.write 0 .empty val >>= _) = _
      rw [s.write_ok hroom hkey hval]
      rfl
  | .object key obj .nil, _, hfits, hall => by
    obtain ⟨hkey, ⟨c', hc', hobj⟩, -⟩ := hfits
    obtain rfl := KeyFits.empty hkey (by rw [harity]; decide)
    obtain ⟨ms, hms, hread⟩ := readObject_dcoToJson c' obj (reg.members c') (fun _ h => h) hobj
      hall.2.1
    refine ⟨.object ms, ?_, ?_⟩
    · rw [elemsToJson, hms]
      rfl
    · rw [readMember, hc', harity]
      dsimp only
      rw [hread]
      rfl
  | .value _ _ (.value _ _ es), hlen, _, _ => by
    have := Nat.succ.inj hlen
    cases this
  | .value _ _ (.object _ _ es), hlen, _, _ => by
    have := Nat.succ.inj hlen
    cases this
  | .object _ _ (.value _ _ es), hlen, _, _ => by
    have := Nat.succ.inj hlen
    cases this
  | .object _ _ (.object _ _ es), hlen, _, _ => by
    have := Nat.succ.inj hlen
    cases this

/-- The elements of an array are read as they were written. -/
theorem writeArray_elemsToJson {s : MemberSpec} (hne : s.arity ≠ .mapped) : (es : Elems) →
    (n : ℕ) → (s.arity = .fixedIterable → n + es.length ≤ s.size) → es.Fits reg s →
    es.All Any.Codable Any.Codable s.arity →
    ∃ vs, elemsToJson conv strict false es = some vs ∧
      writeArray conv reg s n vs = .ok (es, [])
  | .nil, _, _, _, _ => ⟨.nil, rfl, rfl⟩
  | .value key val es, n, hroom, hfits, hall => by
    obtain ⟨hkey, hval, hes⟩ := hfits
    obtain rfl := KeyFits.empty hkey hne
    obtain ⟨t, ht, htype, hsound⟩ := ValueFits.content hval
    obtain ⟨doc, hdoc, hdirect, hread⟩ := hall.2.1.readValue conv strict htype hsound
    obtain ⟨vs, hvs, hrest⟩ := writeArray_elemsToJson hne es (n + 1)
      (fun h => by have := hroom h; rw [Elems.length] at this; omega) hes hall.2.2
    refine ⟨.cons doc vs, ?_, ?_⟩
    · rw [elemsToJson, hdoc, hvs]
      rfl
    · have hn : s.Room n := fun h => by have := hroom h; rw [Elems.length] at this; omega
      rw [writeArray_direct hdirect ht, hread, hrest]
      change (s.write n .empty val >>= _) = _
      rw [s.write_ok hn hkey hval]
      rfl
  | .object key obj es, n, hroom, hfits, hall => by
    obtain ⟨hkey, ⟨c', hc', hobj⟩, hes⟩ := hfits
    obtain rfl := KeyFits.empty hkey hne
    obtain ⟨ms, hms, hread⟩ := readObject_dcoToJson c' obj (reg.members c') (fun _ h => h) hobj
      hall.2.1
    obtain ⟨vs, hvs, hrest⟩ := writeArray_elemsToJson hne es (n + 1)
      (fun h => by have := hroom h; rw [Elems.length] at this; omega) hes hall.2.2
    refine ⟨.cons (.object ms) vs, ?_, ?_⟩
    · rw [elemsToJson, hms, hvs]
      rfl
    · have hn : s.Room n := fun h => by have := hroom h; rw [Elems.length] at this; omega
      rw [writeArray, hc']
      dsimp only
      rw [s.recurse_ok hn hkey hc']
      change (readObject conv reg c' ms >>= _) = _
      rw [hread, hrest]
      rfl

/-- The elements of a map are read as they were written. -/
theorem writeMap_elemsToJson {s : MemberSpec} (hmap : s.arity = .mapped) : (es : Elems) →
    es.Fits reg s → es.All Any.Codable Any.Codable s.arity →
    ∃ vs, elemsToJson conv strict true es = some vs ∧ writeMap conv reg s vs = .ok (es, [])
  | .nil, _, _ => ⟨.nil, rfl, rfl⟩
  | .value key val es, hfits, hall => by
    obtain ⟨hkey, hval, hes⟩ := hfits
    obtain ⟨t, ht, htype, hsound⟩ := ValueFits.content hval
    obtain ⟨hkeyType, hkeySound⟩ := KeyFits.key hkey hmap (hall.1 hmap)
    obtain ⟨k, hk, -, hreadKey⟩ :=
      (hall.1 hmap).readValue conv strict hkeyType hkeySound
    obtain ⟨doc, hdoc, hdirect, hread⟩ := hall.2.1.readValue conv strict htype hsound
    obtain ⟨vs, hvs, hrest⟩ := writeMap_elemsToJson hmap es hes hall.2.2
    refine ⟨.cons (pairToJson k doc) vs, ?_, ?_⟩
    · rw [elemsToJson, hdoc, hvs, hk]
      rfl
    · have hroom : s.Room 0 := fun h => by rw [hmap] at h; cases h
      rw [pairToJson, writeMap, ht]
      simp only [JsonMembers.get, text_key_ne_value, if_true, if_false, hdirect]
      rw [hreadKey, hread, hrest]
      change (s.write 0 key val >>= _) = _
      rw [s.write_ok hroom hkey hval]
      rfl
  | .object key obj es, hfits, hall => by
    obtain ⟨hkey, ⟨c', hc', hobj⟩, hes⟩ := hfits
    obtain ⟨hkeyType, hkeySound⟩ := KeyFits.key hkey hmap (hall.1 hmap)
    obtain ⟨k, hk, -, hreadKey⟩ :=
      (hall.1 hmap).readValue conv strict hkeyType hkeySound
    obtain ⟨ms, hms, hread⟩ := readObject_dcoToJson c' obj (reg.members c') (fun _ h => h) hobj
      hall.2.1
    obtain ⟨vs, hvs, hrest⟩ := writeMap_elemsToJson hmap es hes hall.2.2
    refine ⟨.cons (pairToJson k (.object ms)) vs, ?_, ?_⟩
    · rw [elemsToJson, hms, hvs, hk]
      rfl
    · have hroom : s.Room 0 := fun h => by rw [hmap] at h; cases h
      have hvalue : valueObject conv reg c' (.cons (text "key") k
          (.cons (text "value") (.object ms) .nil)) = some (readObject conv reg c' ms) := by
        cases k <;> simp only [valueObject, text_key_ne_value, if_true, if_false]
      rw [pairToJson, writeMap, hc']
      dsimp only
      rw [hvalue]
      simp only [JsonMembers.get, if_true]
      rw [hreadKey]
      change (s.recurse 0 key >>= _) = _
      rw [s.recurse_ok hroom hkey hc', hread, hrest]
      rfl

end

/-- The decoder writes the elements that the readers delivered, and does not warn. -/
def JsonRoundTrips (conv : FloatConversion) (strict : Bool) (reg : Registry) (c : Bytes) (v : Obj) :
    Prop :=
  ∃ doc, dcoToJson conv strict v = some doc ∧ readObject conv reg c doc = .ok (v, [])

/-- All objects of which the tables have the types of the elements make the round trip. -/
theorem jsonRoundTrips_of_codable (conv : FloatConversion) (strict : Bool) (reg : Registry)
    (c : Bytes) (v : Obj) (hfits : v.Fits reg (reg.members c))
    (hall : v.All Any.Codable Any.Codable) : JsonRoundTrips conv strict reg c v :=
  readObject_dcoToJson c v (reg.members c) (fun _ h => h) hfits hall

end

/-! ### Samples -/

section Floats

variable (a : BitVec 1) (b : BitVec 11) (c : BitVec 23)

theorem sign_append : (a ++ (b ++ (c ++ 0#29)) : BitVec 64).extractLsb' 63 1 = a := by
  ext i hi
  simp
  grind

theorem exponent_append : (a ++ (b ++ (c ++ 0#29)) : BitVec 64).extractLsb' 52 11 = b := by
  ext i hi
  simp
  grind

theorem fraction_append : (a ++ (b ++ (c ++ 0#29)) : BitVec 64).extractLsb' 29 23 = c := by
  ext i hi
  simp
  grind

theorem append_parts (v : BitVec 32) :
    v.extractLsb' 31 1 ++ (v.extractLsb' 23 8 ++ v.extractLsb' 0 23) = v := by
  ext i hi
  simp
  grind

theorem exponent_finite (e : BitVec 8) (h : e ≠ 0xff) : e.setWidth 11 + 896#11 ≠ 0x7ff := by
  revert e
  decide

end Floats

/-- The conversions of normal floating point values: the exponents have an offset, and the fraction
gets more bits. -/
def normalFloats : FloatConversion where
  widen v := v.extractLsb' 31 1 ++
    ((v.extractLsb' 23 8).setWidth 11 + 896#11 ++ (v.extractLsb' 0 23 ++ 0#29))
  narrow v := v.extractLsb' 63 1 ++
    ((v.extractLsb' 52 11 - 896#11).setWidth 8 ++ v.extractLsb' 29 23)
  ofInt _ := 0
  finite_widen v h := by
    unfold finite64
    rw [exponent_append]
    exact exponent_finite _ h
  narrow_widen v _ := by
    rw [sign_append, exponent_append, fraction_append, BitVec.add_sub_cancel,
      BitVec.setWidth_setWidth_of_le _ (by decide), BitVec.setWidth_eq, append_parts]

/-- Two classes: a map of objects and an array of floating point values, and an enumerated value
with a fixed array of characters. -/
def sampleRegistry : Registry where
  members c :=
    if c = text "Outer" then
      [{ name := text "inners", arity := .mapped, key := .int true .w32,
         content := .nested (text "Inner") },
       { name := text "values", arity := .iterable, content := .direct .float }]
    else if c = text "Inner" then
      [{ name := text "mode", arity := .single, content := .direct (.enum (text "Mode")) },
       { name := text "code", arity := .fixedIterable, size := 2, content := .direct .char }]
    else []
  nodup c := by
    split
    · decide
    · split <;> decide
  terminated c := by
    split
    · decide
    · split <;> decide

def sampleInner : Obj :=
  .member { name := text "mode", arity := .single, content := .direct (.enum (text "Mode")) }
    (.value .empty (.string (text "On")) .nil)
    (.member { name := text "code", arity := .fixedIterable, size := 2, content := .direct .char }
      (.value .empty (.char 0) (.value .empty (.char 0x41) .nil)) .nil)

def sampleOuter : Obj :=
  .member { name := text "inners", arity := .mapped, key := .int true .w32,
            content := .nested (text "Inner") }
    (.object (.int true .w32 (-1)) sampleInner .nil)
    (.member { name := text "values", arity := .iterable, content := .direct .float }
      (.value .empty (.float 0x3f800000) .nil) .nil)

theorem jsonRoundTrips_sample :
    JsonRoundTrips normalFloats false sampleRegistry (text "Outer") sampleOuter := by
  refine jsonRoundTrips_of_codable _ _ _ _ _ ?_ ?_
  · refine ⟨rfl, trivial, ⟨⟨rfl, trivial⟩, ⟨text "Inner", rfl, ?_⟩, trivial⟩, rfl, trivial,
      ⟨rfl, ⟨rfl, trivial⟩, trivial⟩, trivial⟩
    exact ⟨rfl, rfl, ⟨rfl, ⟨rfl, trivial⟩, trivial⟩, rfl, rfl,
      ⟨rfl, ⟨rfl, trivial⟩, rfl, ⟨rfl, trivial⟩, trivial⟩, trivial⟩
  · refine ⟨⟨fun _ => ⟨trivial, trivial⟩, ?_, trivial⟩, ⟨nofun, ⟨by decide, trivial⟩, trivial⟩,
      trivial⟩
    exact ⟨⟨nofun, ⟨by decide, trivial⟩, trivial⟩,
      ⟨nofun, ⟨trivial, trivial⟩, nofun, ⟨trivial, trivial⟩, trivial⟩, trivial⟩

/-- A `Dstring` of a size that the tables do not have is written as null, and a string is asked for
when it is read. -/
theorem not_jsonRoundTrips_dstring :
    ¬ ∀ (reg : Registry) (c : Bytes) (v : Obj), v.Fits reg (reg.members c) →
      v.All Any.Plain Any.Plain → JsonRoundTrips normalFloats false reg c v := by
  intro h
  let spec : MemberSpec :=
    { name := text "label", arity := .single, content := .direct (.dstring 20) }
  let reg : Registry := ⟨fun _ => [spec], fun _ => by decide, fun _ => by decide⟩
  obtain ⟨doc, hdoc, hread⟩ :=
    h reg [] (.member spec (.value .empty (.dstring 20 (text "a")) .nil) .nil)
    ⟨rfl, rfl, ⟨rfl, ⟨rfl, by decide⟩, trivial⟩, trivial⟩ ⟨⟨nofun, trivial, trivial⟩, trivial⟩
  obtain rfl : JsonMembers.cons (text "label") .null .nil = doc := Option.some.inj hdoc
  cases hread

end Dueca.Coding
