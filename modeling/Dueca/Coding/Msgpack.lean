import Dueca.Coding.Json
import Dueca.Lib.Polish

/-!
# MessagePack documents

The encoder announces the number of elements of an object, a map or an array, and writes these
after it. A value that is not in its table is not written, so that the values behind it are taken
for the elements that were announced before.

The decoder takes objects and maps as maps with strings for keys, and asserts that these are
strings. Entries are taken in the order of their keys, the first one of those with the same key.
Exceptions end the decoding of the member that they come from.
-/

namespace Dueca.Coding

open Dueca.Dco (Width)
open Dueca.Lib

mutual

/-- A value in a document. -/
inductive Msg
  | nil
  | bool (b : Bool)
  | int (n : ℤ)
  | float32 (v : BitVec 32)
  | float64 (v : BitVec 64)
  | str (s : Bytes)
  | bin (s : Bytes)
  | ext (kind : ℤ) (data : Bytes)
  | array (vs : Msgs)
  | map (ps : MsgPairs)

inductive Msgs
  | nil
  | cons (v : Msg) (vs : Msgs)

inductive MsgPairs
  | nil
  | cons (k v : Msg) (ps : MsgPairs)

end

/-- What is packed: an array and a map as the number of their elements. -/
inductive MsgToken
  | nil
  | bool (b : Bool)
  | int (n : ℤ)
  | float32 (v : BitVec 32)
  | float64 (v : BitVec 64)
  | str (s : Bytes)
  | bin (s : Bytes)
  | ext (kind : ℤ) (data : Bytes)
  | array (n : ℕ)
  | map (n : ℕ)
  deriving DecidableEq, Repr

/-- The number of values that follow and belong to it. -/
def MsgToken.arity : MsgToken → ℕ
  | .array n => n
  | .map n => 2 * n
  | _ => 0

def Msgs.length : Msgs → ℕ
  | .nil => 0
  | .cons _ vs => vs.length + 1

def MsgPairs.length : MsgPairs → ℕ
  | .nil => 0
  | .cons _ _ ps => ps.length + 1

mutual

/-- How a document is written. -/
def Msg.tokens : Msg → List MsgToken
  | .nil => [.nil]
  | .bool b => [.bool b]
  | .int n => [.int n]
  | .float32 v => [.float32 v]
  | .float64 v => [.float64 v]
  | .str s => [.str s]
  | .bin s => [.bin s]
  | .ext kind data => [.ext kind data]
  | .array vs => .array vs.length :: vs.tokens
  | .map ps => .map ps.length :: ps.tokens

def Msgs.tokens : Msgs → List MsgToken
  | .nil => []
  | .cons v vs => v.tokens ++ vs.tokens

def MsgPairs.tokens : MsgPairs → List MsgToken
  | .nil => []
  | .cons k v ps => k.tokens ++ v.tokens ++ ps.tokens

end

/-! ### The encoder -/

/-- `code_value`. A type that is not in the table gives nothing. -/
def codeValue : Any → List MsgToken
  | .int false _ v => [.int v.toNat]
  | .int true _ v => [.int v.toInt]
  | .char c => [.int c.toBitVec.toInt]
  | .bool b => [.bool b]
  | .float v => [.float32 v]
  | .double v => [.float64 v]
  | .string s => [.str s]
  | .dstring mxsize s => if mxsize ∈ dstringSizes then [.str s] else []
  -- no mapping to serialize the type
  | .empty | .smartstring _ | .activityContext _ | .enum .. | .xmlNode | .other .. => []

/-- `getNumMembers`. -/
def Obj.length : Obj → ℕ
  | .nil => 0
  | .member _ _ ms => ms.length + 1

/-- What goes before the elements of a member. -/
def MemberArity.header (size : ℕ) : MemberArity → List MsgToken
  | .single => []
  | .mapped => [.map size]
  | .iterable | .fixedIterable => [.array size]

/-- The key of an element of a map. -/
def codeKey (arity : MemberArity) (key : Any) : List MsgToken :=
  if arity = .mapped then codeValue key else []

mutual

/-- The loop of `code_dco` over the members. -/
def codeMembers : Obj → List MsgToken
  | .nil => []
  | .member s es ms =>
    .str s.name :: (s.arity.header es.length ++ codeElems s.arity es ++ codeMembers ms)

def codeElems (arity : MemberArity) : Elems → List MsgToken
  | .nil => []
  | .value key val es => codeKey arity key ++ codeValue val ++ codeElems arity es
  | .object key obj es =>
    codeKey arity key ++ (.map obj.length :: codeMembers obj) ++ codeElems arity es

end

/-- `code_dco`. -/
def codeDco (v : Obj) : List MsgToken := .map v.length :: codeMembers v

/-! ### The decoder -/

/-- Casts between numbers, which `as` makes. -/
structure FloatCasts where
  widen : BitVec 32 → BitVec 64
  narrow : BitVec 64 → BitVec 32
  floatOfInt : ℤ → BitVec 32
  doubleOfInt : ℤ → BitVec 64

def asInt (low high : ℤ) : Msg → Except Fault ℤ
  | .int n => if low ≤ n ∧ n < high then .ok n else .error (.decode "type error")
  | _ => .error (.decode "type error")

def asString : Msg → Except Fault Bytes
  | .str s | .bin s => .ok s
  | _ => .error (.decode "type error")

/-- The function in the table of the decoder for a type, or the fallback to a string. -/
def readMsg (conv : FloatCasts) (doc : Msg) : TypeId → Except Fault Any
  | .int false w => (asInt 0 (2 ^ w.bits) doc).map fun n => .int false w (.ofInt _ n)
  | .int true w =>
    (asInt (-2 ^ (w.bits - 1)) (2 ^ (w.bits - 1)) doc).map fun n => .int true w (.ofInt _ n)
  | .char => (asInt (-2 ^ 7) (2 ^ 7) doc).map fun n => .char (.ofBitVec (.ofInt _ n))
  | .bool =>
    match doc with
    | .bool b => .ok (.bool b)
    | _ => .error (.decode "type error")
  | .float =>
    match doc with
    | .float32 v => .ok (.float v)
    | .float64 v => .ok (.float (conv.narrow v))
    | .int n => .ok (.float (conv.floatOfInt n))
    | _ => .error (.decode "type error")
  | .double =>
    match doc with
    | .float32 v => .ok (.double (conv.widen v))
    | .float64 v => .ok (.double v)
    | .int n => .ok (.double (conv.doubleOfInt n))
    | _ => .error (.decode "type error")
  | .string => (asString doc).map .string
  | .smartstring => (asString doc).map .smartstring
  | .dstring mxsize =>
    (asString doc).map fun s =>
      if mxsize ∈ dstringSizes then .dstring mxsize ((cstr s).take mxsize) else .string s
  | .void | .activityContext | .enum _ | .xmlNode | .other _ => (asString doc).map .string

/-- `decode_value`. -/
def decodeValue (conv : FloatCasts) (doc : Msg) (t : TypeId) : Any :=
  match readMsg conv doc t with
  | .ok a => a
  | .error _ => .string (text "-- cannot decode --")

/-- The key of an entry in the `mainmap_t`. -/
def Msg.keyBytes : Msg → Bytes
  | .str s => s
  | _ => []

def Msg.isStr : Msg → Bool
  | .str _ => true
  | _ => false

/-- What `as<mainmap_t>` asserts. -/
def MsgPairs.strKeys : MsgPairs → Bool
  | .nil => true
  | .cons k _ ps => k.isStr && ps.strKeys

/-- The entries of a `mainmap_t`, which was filled with `emplace`. -/
def mainmap {V : Type} (es : List (Bytes × V)) : List (Bytes × V) :=
  KeyMap.inOrder (fun key : Bytes => key.map UInt8.toNat) es

/-- What is given to an `ElementWriter`: a value, or the decoding of an object. -/
abbrev Item := Any ⊕ Except Fault Obj

/-- The part of `decode_dco` for the elements of a member, after a number of elements. Exceptions
are caught outside of this loop. -/
def writeEach (s : MemberSpec) (n : ℕ) : List (Any × Item) → Except Fault Elems
  | [] => .ok .nil
  | (key, .inl val) :: items =>
    match s.write n key val with
    | .ok () => (writeEach s (n + 1) items).map (.value key val)
    | .error _ => .ok .nil
  | (key, .inr obj) :: items =>
    match s.recurse n key with
    | .ok _ =>
      match obj with
      | .ok o => (writeEach s (n + 1) items).map (.object key o)
      | .error .assertion => .error .assertion
      | .error _ => .ok (.object key .nil .nil)
    | .error _ => .ok .nil

/-- The part of `decode_dco` for a member, with what the document gives for one element, for the
elements of an array, and for those of a map. -/
def decodeMember (s : MemberSpec) (doc : Msg) (one : Item) (each : List Item)
    (pairs : List (Bytes × Item)) : Except Fault Elems :=
  match s.arity with
  | .single => writeEach s 0 [(.empty, one)]
  | .mapped =>
    match doc with
    | .map ps =>
      if ps.strKeys then writeEach s 0 ((mainmap pairs).map (Prod.map .string id))
      else .error .assertion
    | _ => .ok .nil
  | .iterable | .fixedIterable =>
    match doc with
    | .array _ => writeEach s 0 (each.map fun item => (.empty, item))
    | _ => .ok .nil

/-- The members that were found, in the order of their names. -/
def assemble : List (Bytes × Except Fault (Option (MemberSpec × Elems))) → Except Fault Obj
  | [] => .ok .nil
  | (_, member) :: es => do
    let m ← member
    let ms ← assemble es
    match m with
    | some (s, es) => .ok (.member s es ms)
    | none => .ok ms

section Decoder

variable (conv : FloatCasts) (reg : Registry)

/-- One element, when the object is decoded as this. -/
def item (s : MemberSpec) (doc : Msg) (obj : Bytes → Except Fault Obj) : Item :=
  match s.content with
  | .direct _ => .inl (decodeValue conv doc s.typeIndex)
  | .nested c => .inr (obj c)

mutual

/-- `decode_dco`, after `as<mainmap_t>`. -/
def decodeObject (c : Bytes) : Msg → Except Fault Obj
  | .map ps =>
    if ps.strKeys then assemble (mainmap (decodeEntries c ps)) else .error .assertion
  | _ => .error (.decode "type error")

/-- The loop of `decode_dco` over the entries. -/
def decodeEntries (c : Bytes) :
    MsgPairs → List (Bytes × Except Fault (Option (MemberSpec × Elems)))
  | .nil => []
  | .cons k v ps =>
    (k.keyBytes,
      match reg.find c (cstr k.keyBytes) with
      -- the exception is caught, and the member skipped
      | none => .ok none
      | some s =>
        (decodeMember s v (item conv s v fun c => decodeObject c v) (decodeEach s v)
          (decodePairs s v)).map fun es => some (s, es)) :: decodeEntries c ps

/-- The elements of an array. -/
def decodeEach (s : MemberSpec) : Msg → List Item
  | .array vs => decodeItems s vs
  | _ => []

def decodeItems (s : MemberSpec) : Msgs → List Item
  | .nil => []
  | .cons v vs => item conv s v (fun c => decodeObject c v) :: decodeItems s vs

/-- The elements of a map. -/
def decodePairs (s : MemberSpec) : Msg → List (Bytes × Item)
  | .map ps => decodeMap s ps
  | _ => []

def decodeMap (s : MemberSpec) : MsgPairs → List (Bytes × Item)
  | .nil => []
  | .cons k v ps => (k.keyBytes, item conv s v fun c => decodeObject c v) :: decodeMap s ps

end

end Decoder

/-! ### Announced numbers -/

/-- The values in the table of the encoder. -/
def Any.Coded : Any → Prop
  | .int .. | .char _ | .bool _ | .float _ | .double _ | .string _ => True
  | .dstring mxsize _ => mxsize ∈ dstringSizes
  | .empty | .smartstring _ | .activityContext _ | .enum .. | .xmlNode | .other .. => False

mutual

theorem Msg.items_tokens : (m : Msg) → Items MsgToken.arity 1 m.tokens
  | .nil | .bool _ | .int _ | .float32 _ | .float64 _ | .str _ | .bin _ | .ext _ _ => .leaf rfl
  | .array vs => .one vs.items_tokens
  | .map ps => .one ps.items_tokens

theorem Msgs.items_tokens : (vs : Msgs) → Items MsgToken.arity vs.length vs.tokens
  | .nil => .nil
  | .cons v vs => by
    rw [Msgs.length, Nat.add_comm]
    exact v.items_tokens.append vs.items_tokens

theorem MsgPairs.items_tokens : (ps : MsgPairs) → Items MsgToken.arity (2 * ps.length) ps.tokens
  | .nil => .nil
  | .cons k v ps => by
    rw [MsgPairs.length, Nat.mul_add, Nat.add_comm]
    exact (k.items_tokens.append v.items_tokens).append ps.items_tokens

end

mutual

/-- Documents that are written in the same way are the same. -/
theorem Msg.tokens_inj : (m m' : Msg) → m.tokens = m'.tokens → m = m'
  | .array vs, m', h => by
    cases m' with
    | array us =>
      obtain ⟨hlen, htokens⟩ := List.cons.inj h
      rw [Msgs.tokens_inj vs us (MsgToken.array.inj hlen) htokens]
    | _ => cases h
  | .map ps, m', h => by
    cases m' with
    | map qs =>
      obtain ⟨hlen, htokens⟩ := List.cons.inj h
      rw [MsgPairs.tokens_inj ps qs (MsgToken.map.inj hlen) htokens]
    | _ => cases h
  | .nil, m', h | .bool _, m', h | .int _, m', h | .float32 _, m', h | .float64 _, m', h
  | .str _, m', h | .bin _, m', h | .ext _ _, m', h => by
    cases m' <;> cases h
    rfl

theorem Msgs.tokens_inj :
    (vs us : Msgs) → vs.length = us.length → vs.tokens = us.tokens → vs = us
  | .nil, .nil, _, _ => rfl
  | .nil, .cons .., hlen, _ | .cons .., .nil, hlen, _ => nomatch hlen
  | .cons v vs, .cons u us, hlen, h => by
    obtain ⟨hv, hvs⟩ := v.items_tokens.cancel u.items_tokens h
    rw [Msg.tokens_inj v u hv, Msgs.tokens_inj vs us (Nat.succ.inj hlen) hvs]

theorem MsgPairs.tokens_inj :
    (ps qs : MsgPairs) → ps.length = qs.length → ps.tokens = qs.tokens → ps = qs
  | .nil, .nil, _, _ => rfl
  | .nil, .cons .., hlen, _ | .cons .., .nil, hlen, _ => nomatch hlen
  | .cons k v ps, .cons l u qs, hlen, h => by
    rw [MsgPairs.tokens, MsgPairs.tokens, List.append_assoc, List.append_assoc] at h
    obtain ⟨hk, h⟩ := k.items_tokens.cancel l.items_tokens h
    obtain ⟨hv, hps⟩ := v.items_tokens.cancel u.items_tokens h
    rw [Msg.tokens_inj k l hk, Msg.tokens_inj v u hv,
      MsgPairs.tokens_inj ps qs (Nat.succ.inj hlen) hps]

end

/-- A value is one item, or nothing when it is not in the table. -/
theorem codeValue_eq (a : Any) :
    a.Coded ∧ (∃ t, codeValue a = [t] ∧ t.arity = 0) ∨ ¬ a.Coded ∧ codeValue a = [] := by
  cases a with
  | int signed w v => cases signed <;> exact .inl ⟨trivial, _, rfl, rfl⟩
  | char c => exact .inl ⟨trivial, _, rfl, rfl⟩
  | bool b => exact .inl ⟨trivial, _, rfl, rfl⟩
  | float v => exact .inl ⟨trivial, _, rfl, rfl⟩
  | double v => exact .inl ⟨trivial, _, rfl, rfl⟩
  | string s => exact .inl ⟨trivial, _, rfl, rfl⟩
  | dstring mxsize s =>
    by_cases h : mxsize ∈ dstringSizes
    · exact .inl ⟨h, _, if_pos h, rfl⟩
    · exact .inr ⟨h, if_neg h⟩
  | _ => exact .inr ⟨id, rfl⟩

theorem balance_codeValue (a : Any) :
    balance MsgToken.arity (codeValue a) ≤ 1 ∧
      (balance MsgToken.arity (codeValue a) = 1 → a.Coded) := by
  obtain ⟨hcoded, t, ht, hleaf⟩ | ⟨-, hnil⟩ := codeValue_eq a
  · rw [ht, (Items.leaf hleaf).balance_eq]
    exact ⟨le_rfl, fun _ => hcoded⟩
  · rw [hnil, balance_nil]
    exact ⟨Int.one_nonneg, fun h => absurd h Int.zero_ne_one⟩

/-- The number of items in an element. -/
def MemberArity.items (arity : MemberArity) : ℕ := if arity = .mapped then 2 else 1

theorem balance_codeKey (arity : MemberArity) (key : Any) :
    balance MsgToken.arity (codeKey arity key) + 1 ≤ arity.items ∧
      (balance MsgToken.arity (codeKey arity key) + 1 = arity.items →
        arity = .mapped → key.Coded) := by
  obtain ⟨hle, heq⟩ := balance_codeValue key
  unfold codeKey MemberArity.items
  split
  · push_cast
    exact ⟨by omega, fun h _ => heq (by omega)⟩
  · next hmap => exact ⟨le_rfl, fun _ h => absurd h hmap⟩

theorem balance_header {s : MemberSpec} {n : ℕ} (h : s.Counts n) :
    balance MsgToken.arity (s.arity.header n) + s.arity.items * n = 1 := by
  unfold MemberSpec.Counts at h
  unfold MemberArity.header MemberArity.items
  cases harity : s.arity with
  | single =>
    rw [harity] at h
    rw [h]
    rfl
  | mapped => simp [MsgToken.arity]
  | iterable | fixedIterable => simp [MsgToken.arity]

mutual

/-- An object is followed by no more than it announces, and less when a value is missing. -/
theorem balance_codeMembers {reg : Registry} : (v : Obj) → (ss : List MemberSpec) → v.Fits reg ss →
    balance MsgToken.arity (codeMembers v) ≤ 2 * v.length ∧
      (balance MsgToken.arity (codeMembers v) = 2 * v.length → v.All Any.Coded Any.Coded)
  | .nil, _, _ => ⟨le_rfl, fun _ => trivial⟩
  | .member _ _ _, [], hfits => by cases hfits
  | .member t es ms, s :: ss, hfits => by
    obtain ⟨rfl, hcounts, hes, hms⟩ := hfits
    obtain ⟨hle, heq⟩ := balance_codeElems es t hes
    obtain ⟨hle', heq'⟩ := balance_codeMembers ms ss hms
    have hheader := balance_header hcounts
    have hstr : balance MsgToken.arity [.str t.name] = 1 := rfl
    rw [codeMembers, Obj.length, ← List.singleton_append, balance_append, balance_append,
      balance_append, hstr]
    push_cast
    exact ⟨by omega, fun h => ⟨heq (by omega), heq' (by omega)⟩⟩

theorem balance_codeElems {reg : Registry} : (es : Elems) → (s : MemberSpec) → es.Fits reg s →
    balance MsgToken.arity (codeElems s.arity es) ≤ s.arity.items * es.length ∧
      (balance MsgToken.arity (codeElems s.arity es) = s.arity.items * es.length →
        es.All Any.Coded Any.Coded s.arity)
  | .nil, _, _ => ⟨le_rfl, fun _ => trivial⟩
  | .value key val es, s, hfits => by
    obtain ⟨-, -, hes⟩ := hfits
    obtain ⟨hle, heq⟩ := balance_codeElems es s hes
    obtain ⟨hkey, hkeyEq⟩ := balance_codeKey s.arity key
    obtain ⟨hval, hvalEq⟩ := balance_codeValue val
    rw [codeElems, Elems.length, balance_append, balance_append]
    push_cast
    rw [mul_add, mul_one]
    exact ⟨by omega, fun h => ⟨hkeyEq (by omega), hvalEq (by omega), heq (by omega)⟩⟩
  | .object key obj es, s, hfits => by
    obtain ⟨-, ⟨c, -, hobj⟩, hes⟩ := hfits
    obtain ⟨hle, heq⟩ := balance_codeElems es s hes
    obtain ⟨hkey, hkeyEq⟩ := balance_codeKey s.arity key
    obtain ⟨hval, hvalEq⟩ := balance_codeMembers obj _ hobj
    rw [codeElems, Elems.length, balance_append, balance_append, balance_cons]
    push_cast [MsgToken.arity]
    rw [mul_add, mul_one]
    exact ⟨by omega, fun h => ⟨hkeyEq (by omega), hvalEq (by omega), heq (by omega)⟩⟩

end

/-! ### Documents for objects -/

/-- The document for a value in the table. -/
def Any.msg : Any → Msg
  | .int false _ v => .int v.toNat
  | .int true _ v => .int v.toInt
  | .char c => .int c.toBitVec.toInt
  | .bool b => .bool b
  | .float v => .float32 v
  | .double v => .float64 v
  | .string s | .dstring _ s => .str s
  | .empty | .smartstring _ | .activityContext _ | .enum .. | .xmlNode | .other .. => .nil

def Msgs.headD : Msgs → Msg
  | .nil => .nil
  | .cons v _ => v

/-- The document for a member. -/
def MemberArity.msg (vs : Msgs) (ps : MsgPairs) : MemberArity → Msg
  | .single => vs.headD
  | .mapped => .map ps
  | .iterable | .fixedIterable => .array vs

mutual

def Obj.msgPairs : Obj → MsgPairs
  | .nil => .nil
  | .member s es ms => .cons (.str s.name) (s.arity.msg es.msgs es.msgPairs) ms.msgPairs

def Elems.msgs : Elems → Msgs
  | .nil => .nil
  | .value _ val es => .cons val.msg es.msgs
  | .object _ obj es => .cons (.map obj.msgPairs) es.msgs

def Elems.msgPairs : Elems → MsgPairs
  | .nil => .nil
  | .value key val es => .cons key.msg val.msg es.msgPairs
  | .object key obj es => .cons key.msg (.map obj.msgPairs) es.msgPairs

end

/-- The document for an object. -/
def Obj.msg (v : Obj) : Msg := .map v.msgPairs

theorem codeValue_of_coded {a : Any} (h : a.Coded) : codeValue a = a.msg.tokens := by
  cases a with
  | int signed w v => cases signed <;> rfl
  | dstring mxsize s => exact if_pos h
  | char c | bool b | float v | double v | string s => rfl
  | empty | smartstring s | activityContext printed | enum name v | xmlNode | other name data =>
    exact h.elim

theorem Obj.length_msgPairs : (v : Obj) → v.msgPairs.length = v.length
  | .nil => rfl
  | .member _ _ ms => congrArg Nat.succ ms.length_msgPairs

theorem Elems.length_msgPairs : (es : Elems) → es.msgPairs.length = es.length
  | .nil => rfl
  | .value _ _ es => congrArg Nat.succ es.length_msgPairs
  | .object _ _ es => congrArg Nat.succ es.length_msgPairs

theorem Elems.length_msgs : (es : Elems) → es.msgs.length = es.length
  | .nil => rfl
  | .value _ _ es => congrArg Nat.succ es.length_msgs
  | .object _ _ es => congrArg Nat.succ es.length_msgs

theorem Msgs.tokens_of_length_one : (vs : Msgs) → vs.length = 1 → vs.tokens = vs.headD.tokens
  | .cons _ .nil, _ => List.append_nil _
  | .nil, h => nomatch h
  | .cons _ (.cons _ _), h => nomatch Nat.succ.inj h

mutual

/-- An object of which all values are in the table is written as its document. -/
theorem codeMembers_eq {reg : Registry} : (v : Obj) → (ss : List MemberSpec) → v.Fits reg ss →
    v.All Any.Coded Any.Coded → codeMembers v = v.msgPairs.tokens
  | .nil, _, _, _ => rfl
  | .member _ _ _, [], hfits, _ => by cases hfits
  | .member t es ms, s :: ss, hfits, hall => by
    obtain ⟨rfl, hcounts, hes, hms⟩ := hfits
    have hmember : t.arity.header es.length ++ codeElems t.arity es =
        (t.arity.msg es.msgs es.msgPairs).tokens := by
      unfold MemberSpec.Counts at hcounts
      have hes := codeElems_eq es t hes hall.1
      cases harity : t.arity with
      | single =>
        rw [harity] at hcounts hes
        rw [hes, if_neg (by decide), MemberArity.header, MemberArity.msg, List.nil_append]
        exact Msgs.tokens_of_length_one _ (es.length_msgs.trans hcounts)
      | mapped =>
        rw [harity] at hes
        rw [hes, if_pos rfl, MemberArity.msg, Msg.tokens, Elems.length_msgPairs]
        rfl
      | iterable | fixedIterable =>
        rw [harity] at hes
        rw [hes, if_neg (by decide), MemberArity.msg, Msg.tokens, Elems.length_msgs]
        rfl
    rw [codeMembers, hmember, codeMembers_eq ms ss hms hall.2]
    rfl

theorem codeElems_eq {reg : Registry} : (es : Elems) → (s : MemberSpec) → es.Fits reg s →
    es.All Any.Coded Any.Coded s.arity →
    codeElems s.arity es = if s.arity = .mapped then es.msgPairs.tokens else es.msgs.tokens
  | .nil, _, _, _ => by split <;> rfl
  | .value key val es, s, hfits, hall => by
    obtain ⟨hkey, hval, hes⟩ := hall
    rw [codeElems, codeElems_eq es s hfits.2.2 hes, codeValue_of_coded hval, codeKey]
    split
    · next hmap =>
      rw [codeValue_of_coded (hkey hmap)]
      rfl
    · rfl
  | .object key obj es, s, hfits, hall => by
    obtain ⟨hkey, hobj, hes⟩ := hall
    obtain ⟨-, ⟨c, -, hfitsObj⟩, hfitsEs⟩ := hfits
    rw [codeElems, codeElems_eq es s hfitsEs hes, codeMembers_eq obj _ hfitsObj hobj, codeKey,
      ← obj.length_msgPairs]
    split
    · next hmap =>
      rw [codeValue_of_coded (hkey hmap)]
      rfl
    · rfl

end

theorem codeDco_eq {reg : Registry} {v : Obj} {ss : List MemberSpec} (hfits : v.Fits reg ss)
    (hall : v.All Any.Coded Any.Coded) : codeDco v = v.msg.tokens := by
  rw [codeDco, codeMembers_eq v ss hfits hall, Obj.msg, Msg.tokens, v.length_msgPairs]

/-- One complete map is written, in which all numbers are as announced. -/
def Complete (v : Obj) : Prop := ∃ ps : MsgPairs, codeDco v = (Msg.map ps).tokens

/-- Objects are complete when all of their values are in the table. -/
theorem complete_iff {reg : Registry} {v : Obj} {ss : List MemberSpec} (hfits : v.Fits reg ss) :
    Complete v ↔ v.All Any.Coded Any.Coded := by
  constructor
  · rintro ⟨ps, h⟩
    have hbalance := (Msg.items_tokens (.map ps)).balance_eq
    rw [← h, codeDco, balance_cons, MsgToken.arity] at hbalance
    push_cast at hbalance
    exact (balance_codeMembers v ss hfits).2 (by omega)
  · exact fun hall => ⟨v.msgPairs, codeDco_eq hfits hall⟩

end Dueca.Coding
