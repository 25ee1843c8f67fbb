import Dueca.Coding.Msgpack
import Mathlib.Data.List.Nodup

/-!
# Round trips of MessagePack documents

The document for an object is decoded member by member, in the order of the names, and the elements
of a map in the order of their keys. The keys that the decoder gives are strings.
-/

namespace Dueca.Coding

open Dueca.Lib

/-! ### Round trips -/

/-- The members of an object by their names. -/
def Obj.toList : Obj → List (Bytes × MemberSpec × Elems)
  | .nil => []
  | .member s es ms => (s.name, s, es) :: ms.toList

def Obj.ofList : List (Bytes × MemberSpec × Elems) → Obj
  | [] => .nil
  | (_, s, es) :: l => .member s es (Obj.ofList l)

/-- The elements of a member with their keys. -/
def Elems.toList : Elems → List (Any × (Any ⊕ Obj))
  | .nil => []
  | .value key val es => (key, .inl val) :: es.toList
  | .object key obj es => (key, .inr obj) :: es.toList

def Elems.ofList : List (Any × (Any ⊕ Obj)) → Elems
  | [] => .nil
  | (key, .inl val) :: l => .value key val (Elems.ofList l)
  | (key, .inr obj) :: l => .object key obj (Elems.ofList l)

/-- The bytes of a key that is a string. -/
def Any.keyBytes : Any → Bytes
  | .string s => s
  | _ => []

/-- Elements of a map with strings for keys are put in the order of these. -/
def MemberSpec.arrange (s : MemberSpec) (l : List (Any × (Any ⊕ Obj))) : Elems :=
  if s.arity = .mapped ∧ s.key = .string then
    Elems.ofList ((mainmap (l.map (Prod.map Any.keyBytes id))).map (Prod.map .string id))
  else Elems.ofList l

mutual

/-- The members, with sorted elements. -/
def Obj.sortedMembers : Obj → List (Bytes × MemberSpec × Elems)
  | .nil => []
  | .member s es ms => (s.name, s, s.arrange es.sortedItems) :: ms.sortedMembers

def Elems.sortedItems : Elems → List (Any × (Any ⊕ Obj))
  | .nil => []
  | .value key val es => (key, .inl val) :: es.sortedItems
  | .object key obj es => (key, .inr (Obj.ofList (mainmap obj.sortedMembers))) :: es.sortedItems

end

/-- The object with its members in the order of their names, and the elements of maps with strings
for keys in the order of these. -/
def Obj.sorted (v : Obj) : Obj := Obj.ofList (mainmap v.sortedMembers)

section

variable (p : List Any → Prop)

mutual

/-- The keys of all maps have a property. -/
def Obj.Maps : Obj → Prop
  | .nil => True
  | .member s es ms => (s.arity = .mapped → p (es.toList.map Prod.fst)) ∧ es.Maps ∧ ms.Maps

def Elems.Maps : Elems → Prop
  | .nil => True
  | .value _ _ es => es.Maps
  | .object _ obj es => obj.Maps ∧ es.Maps

end

end

/-- All keys are strings. -/
def Strings (keys : List Any) : Prop := ∀ key ∈ keys, key.type = .string

/-- Keys are equal when their bytes have the same order. -/
theorem map_toNat_injective : Function.Injective fun key : Bytes => key.map UInt8.toNat :=
  List.map_injective_iff.mpr fun _ _ h => UInt8.toNat_inj.mp h

theorem mainmap_perm {V : Type} {es : List (Bytes × V)} (h : (es.map Prod.fst).Nodup) :
    (mainmap es).Perm es := by
  refine KeyMap.inOrder_perm ?_
  have hmap : (es.map fun e => e.1.map UInt8.toNat) =
      (es.map Prod.fst).map fun key => key.map UInt8.toNat := (List.map_map).symm
  rw [hmap]
  exact List.Nodup.map map_toNat_injective h

theorem mainmap_map {V W : Type} (f : V → W) (es : List (Bytes × V)) :
    mainmap (es.map (Prod.map id f)) = (mainmap es).map (Prod.map id f) := KeyMap.inOrder_map f es

/-- Members are put together as these, when each of them is decoded as this. -/
theorem assemble_eq_iff {α : Type} (r : α → Except Fault (Option (MemberSpec × Elems)))
    (x : α → MemberSpec × Elems) (l : List (Bytes × α))
    (hfound : ∀ e ∈ l, r e.2 ≠ .ok none) :
    assemble (l.map (Prod.map id r)) = .ok (Obj.ofList (l.map (Prod.map id x))) ↔
      ∀ e ∈ l, r e.2 = .ok (some (x e.2)) := by
  induction l with
  | nil => exact iff_of_true rfl fun _ h => nomatch h
  | cons e l ih =>
    have ih := ih fun f hf => hfound f (List.mem_cons_of_mem _ hf)
    rw [List.forall_mem_cons, ← ih, List.map_cons, List.map_cons, assemble.eq_def]
    dsimp only [Prod.map]
    cases hr : r e.2 with
    | error fault => exact iff_of_false (fun h => nomatch h) fun h => nomatch h.1
    | ok m =>
      cases m with
      | none => exact absurd hr (hfound e List.mem_cons_self)
      | some y =>
        cases hrest : assemble (l.map (Prod.map id r)) with
        | error fault => exact iff_of_false (fun h => nomatch h) fun h => nomatch h.2
        | ok ms =>
          constructor
          · intro h
            obtain ⟨h₁, h₂, h₃⟩ := Obj.member.inj (Except.ok.inj h)
            exact ⟨by rw [show y = x e.2 from Prod.ext h₁ h₂], by rw [h₃]⟩
          · rintro ⟨h₁, h₂⟩
            obtain rfl := Option.some.inj (Except.ok.inj h₁)
            obtain rfl := Except.ok.inj h₂
            rfl

theorem assemble_mainmap_iff {α : Type} (r : α → Except Fault (Option (MemberSpec × Elems)))
    (x : α → MemberSpec × Elems) {l : List (Bytes × α)} (hnodup : (l.map Prod.fst).Nodup)
    (hfound : ∀ e ∈ l, r e.2 ≠ .ok none) :
    assemble (mainmap (l.map (Prod.map id r))) =
        .ok (Obj.ofList (mainmap (l.map (Prod.map id x)))) ↔
      ∀ e ∈ l, r e.2 = .ok (some (x e.2)) := by
  have hmem : ∀ e, e ∈ mainmap l ↔ e ∈ l := fun _ => (mainmap_perm hnodup).mem_iff
  rw [mainmap_map, mainmap_map, assemble_eq_iff r x _ fun e he => hfound e ((hmem e).mp he)]
  exact forall_congr' fun e => by rw [hmem]

section

variable {conv : FloatCasts} {reg : Registry} {s : MemberSpec}

/-- A value in the table is read as it was written. -/
theorem decodeValue_msg {a : Any} {t : TypeId} (htype : a.type = t.delivered) (hsound : a.Sound)
    (hcoded : a.Coded) : decodeValue conv a.msg t = a := by
  by_cases hstring : a.type = .string
  · cases a with
    | string b =>
      cases t with
      | string => rfl
      | enum name => rfl
      | _ => cases htype
    | _ => cases hstring
  · obtain rfl := TypeId.eq_of_delivered htype hstring
    cases a with
    | int signed w v =>
      cases signed with
      | false =>
        have hlow : (0 : ℤ) ≤ v.toNat := Int.natCast_nonneg _
        have hhigh : (v.toNat : ℤ) < 2 ^ w.bits := mod_cast v.isLt
        rw [decodeValue, Any.type, Any.msg, readMsg, asInt, if_pos ⟨hlow, hhigh⟩]
        simp [Except.map]
      | true =>
        rw [decodeValue, Any.type, Any.msg, readMsg, asInt,
          if_pos ⟨BitVec.le_toInt v, BitVec.toInt_lt⟩]
        simp [Except.map]
    | char c =>
      have hrange : (-2 ^ 7 : ℤ) ≤ c.toBitVec.toInt ∧ c.toBitVec.toInt < 2 ^ 7 :=
        ⟨BitVec.le_toInt c.toBitVec, BitVec.toInt_lt⟩
      rw [decodeValue, Any.type, Any.msg, readMsg, asInt, if_pos hrange]
      simp [Except.map]
    | dstring mxsize b =>
      have hsize : mxsize ∈ dstringSizes := hcoded
      rw [decodeValue, Any.type, Any.msg, readMsg, asString]
      simp only [Except.map, if_pos hsize, cstr_of_not_mem hsound.2]
      rw [List.take_of_length_le hsound.1]
    | bool b | float v | double v => rfl
    | string b => exact absurd rfl hstring
    | empty | smartstring b | activityContext printed | enum name v | xmlNode | other name data =>
      exact hcoded.elim

/-- The only fault is an assertion: exceptions were caught. -/
def OnlyAssertion {α : Type} (x : Except Fault α) : Prop :=
  ∀ fault, x = .error fault → fault = .assertion

theorem onlyAssertion_ok {α : Type} (a : α) : OnlyAssertion (.ok a : Except Fault α) :=
  fun _ h => nomatch h

theorem OnlyAssertion.map {α β : Type} {x : Except Fault α} (h : OnlyAssertion x) (f : α → β) :
    OnlyAssertion (x.map f) := by
  cases x with
  | error fault =>
    obtain rfl := h fault rfl
    exact fun _ h => (Except.error.inj h).symm
  | ok a => exact onlyAssertion_ok _

theorem writeEach_onlyAssertion (s : MemberSpec) (n : ℕ) (items : List (Any × Item)) :
    OnlyAssertion (writeEach s n items) := by
  induction items generalizing n with
  | nil => exact onlyAssertion_ok _
  | cons e items ih =>
    obtain ⟨key, item⟩ := e
    rw [writeEach.eq_def]
    cases item with
    | inl val =>
      dsimp only
      split
      · exact (ih (n + 1)).map _
      · exact onlyAssertion_ok _
    | inr obj =>
      dsimp only
      split
      · split
        · exact (ih (n + 1)).map _
        · exact fun _ h => (Except.error.inj h).symm
        · exact onlyAssertion_ok _
      · exact onlyAssertion_ok _

theorem decodeMember_onlyAssertion (s : MemberSpec) (doc : Msg) (one : Item) (each : List Item)
    (pairs : List (Bytes × Item)) : OnlyAssertion (decodeMember s doc one each pairs) := by
  unfold decodeMember
  split
  · exact writeEach_onlyAssertion _ _ _
  · split
    · split
      · exact writeEach_onlyAssertion _ _ _
      · exact fun _ h => (Except.error.inj h).symm
    · exact onlyAssertion_ok _
  all_goals
    split
    · exact writeEach_onlyAssertion _ _ _
    · exact onlyAssertion_ok _

theorem assemble_onlyAssertion {l : List (Bytes × Except Fault (Option (MemberSpec × Elems)))}
    (h : ∀ e ∈ l, OnlyAssertion e.2) : OnlyAssertion (assemble l) := by
  induction l with
  | nil => exact onlyAssertion_ok _
  | cons e l ih =>
    obtain ⟨name, m⟩ := e
    have ih := ih fun f hf => h f (List.mem_cons_of_mem _ hf)
    have hm := h _ List.mem_cons_self
    rw [assemble]
    cases m with
    | error fault => exact fun f h => hm f (congrArg _ (Except.error.inj h))
    | ok m =>
      cases hrest : assemble l with
      | error fault =>
        rw [hrest] at ih
        exact fun f h => ih f (congrArg _ (Except.error.inj h))
      | ok ms => cases m <;> exact onlyAssertion_ok _

/-- A value as it is, or the decoding of an object. -/
def Item.For (s : MemberSpec) : Item → Any ⊕ Obj → Prop
  | .inl a, .inl b => a = b ∧ s.ValueFits b
  | .inr d, .inr _ => (∃ c, s.content = .nested c) ∧ OnlyAssertion d
  | _, _ => False

/-- Elements are written as these, when each object is decoded as this. -/
theorem writeEach_eq_iff {α : Type} (r : α → Item) (x : α → Any ⊕ Obj) (l : List (Any × α)) (n : ℕ)
    (hroom : s.arity = .fixedIterable → n + l.length ≤ s.size) (hkey : ∀ e ∈ l, s.KeyFits e.1)
    (hitems : ∀ e ∈ l, Item.For s (r e.2) (x e.2)) :
    writeEach s n (l.map (Prod.map id r)) = .ok (Elems.ofList (l.map (Prod.map id x))) ↔
      ∀ e ∈ l, r e.2 = Sum.map id Except.ok (x e.2) := by
  induction l generalizing n with
  | nil => exact iff_of_true rfl fun _ h => nomatch h
  | cons e l ih =>
    have hn : s.Room n := fun hfixed => by
      have := hroom hfixed
      rw [List.length_cons] at this
      omega
    have ih := ih (n + 1) (fun hfixed => by
        have := hroom hfixed
        rw [List.length_cons] at this
        omega)
      (fun f hf => hkey f (List.mem_cons_of_mem _ hf))
      fun f hf => hitems f (List.mem_cons_of_mem _ hf)
    have hkey := hkey e List.mem_cons_self
    have hitem := hitems e List.mem_cons_self
    rw [List.forall_mem_cons, ← ih, List.map_cons, List.map_cons]
    obtain ⟨key, y⟩ := e
    dsimp only [Prod.map, id] at hkey hitem ⊢
    cases hr : r y with
    | inl a =>
      cases hx : x y with
      | inr o =>
        rw [hr, hx] at hitem
        cases hitem
      | inl b =>
        rw [hr, hx] at hitem
        obtain ⟨rfl, hval⟩ := hitem
        rw [writeEach, s.write_ok hn hkey hval]
        cases writeEach s (n + 1) (l.map (Prod.map id r)) with
        | error fault => exact iff_of_false (fun h => nomatch h) fun h => nomatch h.2
        | ok es =>
          constructor
          · intro h
            obtain ⟨-, -, hes⟩ := Elems.value.inj (Except.ok.inj h)
            exact ⟨rfl, by rw [hes]⟩
          · rintro ⟨-, h⟩
            rw [Except.ok.inj h]
            rfl
    | inr d =>
      cases hx : x y with
      | inl b =>
        rw [hr, hx] at hitem
        cases hitem
      | inr o =>
        rw [hr, hx] at hitem
        obtain ⟨⟨c, hc⟩, hfault⟩ := hitem
        rw [writeEach.eq_def]
        dsimp only
        rw [s.recurse_ok hn hkey hc]
        cases d with
        | error fault =>
          obtain rfl := hfault fault rfl
          exact iff_of_false (fun h => nomatch h) fun h => nomatch h.1
        | ok o' =>
          cases writeEach s (n + 1) (l.map (Prod.map id r)) with
          | error fault => exact iff_of_false (fun h => nomatch h) fun h => nomatch h.2
          | ok es =>
            constructor
            · intro h
              obtain ⟨-, ho, hes⟩ := Elems.object.inj (Except.ok.inj h)
              exact ⟨by rw [ho]; rfl, by rw [hes]⟩
            · rintro ⟨ho, h⟩
              obtain rfl := Except.ok.inj (Sum.inr.inj ho)
              rw [Except.ok.inj h]
              rfl

theorem decodeEntries_onlyAssertion (c : Bytes) : (ps : MsgPairs) →
    ∀ e ∈ decodeEntries conv reg c ps, OnlyAssertion e.2
  | .nil, _, he => nomatch he
  | .cons k v ps, e, he => by
    obtain rfl | he := List.mem_cons.mp he
    · dsimp only
      split
      · exact onlyAssertion_ok _
      · exact (decodeMember_onlyAssertion _ _ _ _ _).map _
    · exact decodeEntries_onlyAssertion c ps e he

theorem decodeObject_onlyAssertion (c : Bytes) (ps : MsgPairs) :
    OnlyAssertion (decodeObject conv reg c (.map ps)) := by
  rw [decodeObject]
  split
  · exact assemble_onlyAssertion fun e he =>
      decodeEntries_onlyAssertion c ps e (KeyMap.mem_of_mem_inOrder he)
  · exact fun _ h => (Except.error.inj h).symm

/-- The document for an element. -/
def elementMsg : Any ⊕ Obj → Msg
  | .inl a => a.msg
  | .inr o => o.msg

variable (conv reg s) in
/-- What the decoder gives for an element. -/
def decodeElement (y : Any ⊕ Obj) : Item :=
  item conv s (elementMsg y) fun c => decodeObject conv reg c (elementMsg y)

theorem decodeItems_msgs : (es : Elems) →
    decodeItems conv reg s es.msgs = es.toList.map fun e => decodeElement conv reg s e.2
  | .nil => rfl
  | .value _ _ es => congrArg _ (decodeItems_msgs es)
  | .object _ _ es => congrArg _ (decodeItems_msgs es)

theorem decodeMap_msgPairs : (es : Elems) →
    decodeMap conv reg s es.msgPairs =
      es.toList.map fun e => (e.1.msg.keyBytes, decodeElement conv reg s e.2)
  | .nil => rfl
  | .value _ _ es => congrArg _ (decodeMap_msgPairs es)
  | .object _ _ es => congrArg _ (decodeMap_msgPairs es)

theorem sortedItems_eq : (es : Elems) →
    es.sortedItems = es.toList.map (Prod.map id (Sum.map id Obj.sorted))
  | .nil => rfl
  | .value _ _ es => congrArg _ (sortedItems_eq es)
  | .object _ _ es => congrArg _ (sortedItems_eq es)

theorem Elems.length_toList : (es : Elems) → es.toList.length = es.length
  | .nil => rfl
  | .value _ _ es => congrArg Nat.succ es.length_toList
  | .object _ _ es => congrArg Nat.succ es.length_toList

theorem Elems.keyFits : (es : Elems) → es.Fits reg s → ∀ e ∈ es.toList, s.KeyFits e.1
  | .nil, _, _, he => nomatch he
  | .value _ _ es, hfits, e, he => by
    obtain rfl | he := List.mem_cons.mp he
    · exact hfits.1
    · exact es.keyFits hfits.2.2 e he
  | .object _ _ es, hfits, e, he => by
    obtain rfl | he := List.mem_cons.mp he
    · exact hfits.1
    · exact es.keyFits hfits.2.2 e he

theorem Elems.keys_type (es : Elems) (hmap : s.arity = .mapped) (hfits : es.Fits reg s) :
    ∀ e ∈ es.toList, e.1.type = s.key := by
  intro e he
  have h := es.keyFits hfits e he
  unfold MemberSpec.KeyFits at h
  rw [if_pos hmap] at h
  exact h.1

/-- The values in the elements are read as they were. -/
theorem decodeElement_for : (es : Elems) → es.Fits reg s →
    es.All Any.Coded Any.Coded s.arity →
    ∀ e ∈ es.toList, Item.For s (decodeElement conv reg s e.2) (Sum.map id Obj.sorted e.2)
  | .nil, _, _, _, he => nomatch he
  | .value key val es, hfits, hall, e, he => by
    obtain rfl | he := List.mem_cons.mp he
    · obtain ⟨t, ht, htype, hsound⟩ := ValueFits.content hfits.2.1
      have hval : decodeElement conv reg s (.inl val) = .inl val := by
        unfold decodeElement item
        rw [ht, MemberSpec.typeIndex, ht]
        exact congrArg Sum.inl (decodeValue_msg htype hsound hall.2.1)
      dsimp only
      rw [hval]
      exact ⟨rfl, hfits.2.1⟩
    · exact decodeElement_for es hfits.2.2 hall.2.2 e he
  | .object key obj es, hfits, hall, e, he => by
    obtain rfl | he := List.mem_cons.mp he
    · obtain ⟨c, hc, -⟩ := hfits.2.1
      unfold decodeElement item
      rw [hc]
      exact ⟨⟨c, hc⟩, decodeObject_onlyAssertion c _⟩
    · exact decodeElement_for es hfits.2.2 hall.2.2 e he

theorem strKeys_msgPairs : (es : Elems) →
    (es.msgPairs.strKeys = true ↔ ∀ e ∈ es.toList, e.1.msg.isStr = true)
  | .nil => iff_of_true rfl fun _ h => nomatch h
  | .value key val es => by
    rw [Elems.msgPairs, MsgPairs.strKeys, Elems.toList, List.forall_mem_cons, Bool.and_eq_true,
      strKeys_msgPairs es]
  | .object key obj es => by
    rw [Elems.msgPairs, MsgPairs.strKeys, Elems.toList, List.forall_mem_cons, Bool.and_eq_true,
      strKeys_msgPairs es]

/-- The elements of a map with other keys are not written. -/
theorem writeEach_of_ne (hmap : s.arity = .mapped) (hkey : s.key ≠ .string)
    (items : List (Bytes × Item)) : writeEach s 0 (items.map (Prod.map .string id)) = .ok .nil := by
  cases items with
  | nil => rfl
  | cons e items =>
    obtain ⟨key, i⟩ := e
    have hfixed : ¬ (s.arity = .fixedIterable ∧ s.size ≤ 0) := fun h => by
      rw [hmap] at h
      cases h.1
    have htype : s.arity = .mapped ∧ (Any.string key).type ≠ s.key := ⟨hmap, hkey.symm⟩
    rw [List.map_cons, writeEach.eq_def]
    dsimp only [Prod.map, id]
    cases i with
    | inl val =>
      unfold MemberSpec.write
      dsimp only
      cases s.content with
      | nested c => rfl
      | direct t =>
        dsimp only
        rw [if_neg hfixed, if_pos (.inr htype)]
    | inr obj =>
      unfold MemberSpec.recurse
      dsimp only
      cases s.content with
      | direct t => rfl
      | nested c =>
        dsimp only
        rw [if_neg hfixed, if_pos htype]

theorem Elems.ofList_ne_nil {e : Any × (Any ⊕ Obj)} {l : List (Any × (Any ⊕ Obj))} :
    Elems.ofList (e :: l) ≠ .nil := by
  obtain ⟨key, y⟩ := e
  cases y <;> exact fun h => nomatch h

theorem Any.eq_string {a : Any} (h : a.type = .string) : a = .string a.keyBytes := by
  cases a with
  | string b => rfl
  | _ => cases h

/-- The elements of a map with strings for keys, in the order of these. -/
def Elems.byKey (es : Elems) : List (Any × (Any ⊕ Obj)) :=
  (mainmap (es.toList.map (Prod.map Any.keyBytes id))).map (Prod.map .string id)

theorem Elems.byKey_perm {es : Elems} (hstrings : Strings (es.toList.map Prod.fst))
    (hnodup : (es.toList.map Prod.fst).Nodup) : es.byKey.Perm es.toList := by
  have hback : (es.toList.map (Prod.map Any.keyBytes id)).map (Prod.map .string id) =
      es.toList := by
    rw [List.map_map]
    refine (List.map_congr_left fun e he => ?_).trans (List.map_id _)
    exact Prod.ext (Any.eq_string (hstrings e.1 (List.mem_map_of_mem he))).symm rfl
  have hkeys : ((es.toList.map (Prod.map Any.keyBytes id)).map Prod.fst).Nodup := by
    refine List.Nodup.of_map Any.string ?_
    rw [← hback, List.map_map] at hnodup
    rw [List.map_map]
    exact hnodup
  exact hback ▸ (mainmap_perm hkeys).map _

/-- The elements of a map with strings for keys are decoded when its objects are. -/
theorem decodeMember_strings_iff (es : Elems) (hmap : s.arity = .mapped) (hkey : s.key = .string)
    (hfits : es.Fits reg s) (hall : es.All Any.Coded Any.Coded s.arity)
    (hnodup : (es.toList.map Prod.fst).Nodup) (one : Item) (each : List Item) :
    decodeMember s (.map es.msgPairs) one each (decodeMap conv reg s es.msgPairs) =
        .ok (s.arrange es.sortedItems) ↔
      ∀ e ∈ es.toList, decodeElement conv reg s e.2 =
        Sum.map id Except.ok (Sum.map id Obj.sorted e.2) := by
  have hstrings : Strings (es.toList.map Prod.fst) := fun key hk => by
    obtain ⟨e, he, rfl⟩ := List.mem_map.mp hk
    exact (es.keys_type hmap hfits e he).trans hkey
  have hperm := Elems.byKey_perm hstrings hnodup
  have hstr : es.msgPairs.strKeys = true := (strKeys_msgPairs es).mpr fun e he => by
    rw [Any.eq_string (hstrings e.1 (List.mem_map_of_mem he))]
    rfl
  have hgiven : (mainmap (decodeMap conv reg s es.msgPairs)).map (Prod.map .string id) =
      es.byKey.map (Prod.map id (decodeElement conv reg s)) := by
    have hmaplist : decodeMap conv reg s es.msgPairs =
        (es.toList.map (Prod.map Any.keyBytes id)).map
          (Prod.map id (decodeElement conv reg s)) := by
      rw [decodeMap_msgPairs, List.map_map]
      refine List.map_congr_left fun e he => Prod.ext ?_ rfl
      rw [Any.eq_string (hstrings e.1 (List.mem_map_of_mem he))]
      rfl
    rw [hmaplist, mainmap_map, Elems.byKey, List.map_map, List.map_map]
    rfl
  have hwanted : s.arrange es.sortedItems =
      Elems.ofList (es.byKey.map (Prod.map id (Sum.map id Obj.sorted))) := by
    have hsorted : es.sortedItems.map (Prod.map Any.keyBytes id) =
        (es.toList.map (Prod.map Any.keyBytes id)).map (Prod.map id (Sum.map id Obj.sorted)) := by
      rw [sortedItems_eq, List.map_map, List.map_map]
      rfl
    rw [MemberSpec.arrange, if_pos ⟨hmap, hkey⟩, hsorted, mainmap_map, Elems.byKey, List.map_map,
      List.map_map]
    rfl
  unfold decodeMember
  rw [hmap]
  dsimp only
  rw [if_pos hstr, hgiven, hwanted, writeEach_eq_iff]
  · exact forall_congr' fun e => by rw [hperm.mem_iff]
  · intro h
    rw [hmap] at h
    cases h
  · intro e he
    exact es.keyFits hfits e (hperm.mem_iff.mp he)
  · intro e he
    exact decodeElement_for es hfits hall e (hperm.mem_iff.mp he)

/-- The elements of a map are decoded when its keys are strings, and its objects are decoded. -/
theorem decodeMember_mapped_iff (es : Elems) (hmap : s.arity = .mapped) (hfits : es.Fits reg s)
    (hall : es.All Any.Coded Any.Coded s.arity) (hnodup : (es.toList.map Prod.fst).Nodup)
    (one : Item) (each : List Item) :
    decodeMember s (.map es.msgPairs) one each (decodeMap conv reg s es.msgPairs) =
        .ok (s.arrange es.sortedItems) ↔
      Strings (es.toList.map Prod.fst) ∧
        ∀ e ∈ es.toList, decodeElement conv reg s e.2 =
          Sum.map id Except.ok (Sum.map id Obj.sorted e.2) := by
  have htype := es.keys_type hmap hfits
  by_cases hkey : s.key = .string
  · rw [decodeMember_strings_iff es hmap hkey hfits hall hnodup]
    refine (and_iff_right fun key hk => ?_).symm
    obtain ⟨e, he, rfl⟩ := List.mem_map.mp hk
    exact (htype e he).trans hkey
  · unfold decodeMember
    rw [MemberSpec.arrange, if_neg fun h => hkey h.2, sortedItems_eq, hmap]
    dsimp only
    rw [writeEach_of_ne hmap hkey]
    cases hlist : es.toList with
    | nil =>
      have hstr : es.msgPairs.strKeys = true := (strKeys_msgPairs es).mpr fun e he => by
        rw [hlist] at he
        cases he
      rw [if_pos hstr]
      exact iff_of_true rfl ⟨fun _ h => (nomatch h), fun _ h => nomatch h⟩
    | cons e l =>
      refine iff_of_false (fun h => ?_) fun h => ?_
      · split at h
        · exact Elems.ofList_ne_nil (Except.ok.inj h).symm
        · cases h
      · refine hkey ?_
        rw [← htype e (hlist ▸ List.mem_cons_self)]
        exact h.1 e.1 List.mem_cons_self

/-- The elements of other members are decoded when their objects are. -/
theorem writeEach_toList_iff (es : Elems) (hmap : s.arity ≠ .mapped) (hcounts : s.Counts es.length)
    (hfits : es.Fits reg s) (hall : es.All Any.Coded Any.Coded s.arity) :
    writeEach s 0 (es.toList.map fun e => (.empty, decodeElement conv reg s e.2)) =
        .ok (s.arrange es.sortedItems) ↔
      ∀ e ∈ es.toList, decodeElement conv reg s e.2 =
        Sum.map id Except.ok (Sum.map id Obj.sorted e.2) := by
  have hkeys : (es.toList.map fun e => (Any.empty, decodeElement conv reg s e.2)) =
      es.toList.map (Prod.map id (decodeElement conv reg s)) :=
    List.map_congr_left fun e he => Prod.ext (KeyFits.empty (es.keyFits hfits e he) hmap).symm rfl
  rw [hkeys, MemberSpec.arrange, if_neg fun h => hmap h.1, sortedItems_eq]
  refine writeEach_eq_iff _ _ _ _ (fun hfixed => ?_) (es.keyFits hfits)
    (decodeElement_for es hfits hall)
  unfold MemberSpec.Counts at hcounts
  rw [hfixed] at hcounts
  rw [Nat.zero_add, es.length_toList]
  exact Nat.le_of_eq hcounts

variable (conv reg) in
/-- What the decoder gives for a member. -/
def decodeSpec (m : MemberSpec × Elems) : Except Fault (Option (MemberSpec × Elems)) :=
  let doc := m.1.arity.msg m.2.msgs m.2.msgPairs
  (decodeMember m.1 doc (item conv m.1 doc fun c => decodeObject conv reg c doc)
    (decodeEach conv reg m.1 doc) (decodePairs conv reg m.1 doc)).map fun es => some (m.1, es)

theorem map_some_eq_iff {x : Except Fault Elems} {es : Elems} :
    (x.map fun es => some (s, es)) = .ok (some (s, es)) ↔ x = .ok es := by
  cases x with
  | error fault => exact iff_of_false (fun h => nomatch h) fun h => nomatch h
  | ok es' =>
    constructor
    · intro h
      rw [(Prod.mk.inj (Option.some.inj (Except.ok.inj h))).2]
    · intro h
      rw [Except.ok.inj h]
      rfl

theorem decodeSpec_iff (es : Elems) (hcounts : s.Counts es.length) (hfits : es.Fits reg s)
    (hall : es.All Any.Coded Any.Coded s.arity)
    (hnodup : s.arity = .mapped → (es.toList.map Prod.fst).Nodup) :
    decodeSpec conv reg (s, es) = .ok (some (s, s.arrange es.sortedItems)) ↔
      (s.arity = .mapped → Strings (es.toList.map Prod.fst)) ∧
        ∀ e ∈ es.toList, decodeElement conv reg s e.2 =
          Sum.map id Except.ok (Sum.map id Obj.sorted e.2) := by
  rw [decodeSpec, map_some_eq_iff]
  by_cases hmap : s.arity = .mapped
  · have hmsg : s.arity.msg es.msgs es.msgPairs = .map es.msgPairs := by
      rw [hmap]
      rfl
    rw [forall_prop_of_true hmap, ← decodeMember_mapped_iff es hmap hfits hall (hnodup hmap)]
    dsimp only
    rw [hmsg]
    rfl
  · rw [and_iff_right fun h => absurd h hmap,
      ← writeEach_toList_iff es hmap hcounts hfits hall]
    unfold decodeMember
    dsimp only
    cases harity : s.arity with
    | single =>
      unfold MemberSpec.Counts at hcounts
      rw [harity] at hcounts
      cases es with
      | nil => cases hcounts
      | value key val es =>
        cases es with
        | nil => rfl
        | value _ _ es => cases Nat.succ.inj hcounts
        | object _ _ es => cases Nat.succ.inj hcounts
      | object key obj es =>
        cases es with
        | nil => rfl
        | value _ _ es => cases Nat.succ.inj hcounts
        | object _ _ es => cases Nat.succ.inj hcounts
    | mapped => exact absurd harity hmap
    | iterable | fixedIterable =>
      rw [MemberArity.msg, decodeEach, decodeItems_msgs, List.map_map]
      rfl

theorem decodeEntries_msgPairs {c : Bytes} : (v : Obj) → (ss : List MemberSpec) →
    (∀ s ∈ ss, s ∈ reg.members c) → v.Fits reg ss →
    decodeEntries conv reg c v.msgPairs = v.toList.map (Prod.map id (decodeSpec conv reg))
  | .nil, _, _, _ => rfl
  | .member _ _ _, [], _, hfits => by cases hfits
  | .member t es ms, s :: ss, hmem, hfits => by
    obtain ⟨rfl, -, -, hms⟩ := hfits
    have ht := hmem t List.mem_cons_self
    have hfind : reg.find c (cstr t.name) = some t := by
      rw [cstr_of_not_mem (reg.terminated c t ht), reg.find_of_mem ht]
    rw [Obj.msgPairs, decodeEntries, Msg.keyBytes, hfind, Obj.toList, List.map_cons,
      decodeEntries_msgPairs ms ss (fun u hu => hmem u (List.mem_cons_of_mem _ hu)) hms]
    rfl

theorem sortedMembers_eq : (v : Obj) →
    v.sortedMembers = v.toList.map (Prod.map id fun m => (m.1, m.1.arrange m.2.sortedItems))
  | .nil => rfl
  | .member _ _ ms => congrArg _ (sortedMembers_eq ms)

theorem Obj.names_toList : (v : Obj) → (ss : List MemberSpec) → v.Fits reg ss →
    v.toList.map Prod.fst = ss.map MemberSpec.name
  | .nil, [], _ => rfl
  | .nil, _ :: _, hfits => by cases hfits
  | .member _ _ _, [], hfits => by cases hfits
  | .member t es ms, s :: ss, hfits => by
    obtain ⟨rfl, -, -, hms⟩ := hfits
    exact congrArg _ (ms.names_toList ss hms)

theorem Obj.strKeys_msgPairs : (v : Obj) → v.msgPairs.strKeys = true
  | .nil => rfl
  | .member _ _ ms => ms.strKeys_msgPairs

/-- An object is decoded when each of its members is. -/
theorem decodeObject_msg {c : Bytes} {v : Obj} (hfits : v.Fits reg (reg.members c)) :
    decodeObject conv reg c v.msg = .ok v.sorted ↔
      ∀ e ∈ v.toList,
        decodeSpec conv reg e.2 = .ok (some (e.2.1, e.2.1.arrange e.2.2.sortedItems)) := by
  have hnodup : (v.toList.map Prod.fst).Nodup := by
    rw [v.names_toList _ hfits]
    exact reg.nodup c
  have hfound : ∀ e ∈ v.toList, decodeSpec conv reg e.2 ≠ .ok none := fun e _ h => by
    unfold decodeSpec at h
    dsimp only at h
    generalize decodeMember .. = x at h
    cases x with
    | error fault => cases h
    | ok es => exact nomatch Except.ok.inj h
  rw [Obj.msg, decodeObject, if_pos v.strKeys_msgPairs,
    decodeEntries_msgPairs v _ (fun _ h => h) hfits, Obj.sorted, sortedMembers_eq]
  exact assemble_mainmap_iff _ _ hnodup hfound

mutual

/-- The objects that are decoded. -/
theorem decodeMembers_iff : (v : Obj) → (ss : List MemberSpec) → v.Fits reg ss →
    v.All Any.Coded Any.Coded → v.Maps List.Nodup →
    ((∀ e ∈ v.toList,
      decodeSpec conv reg e.2 = .ok (some (e.2.1, e.2.1.arrange e.2.2.sortedItems))) ↔
        v.Maps Strings)
  | .nil, _, _, _, _ => iff_of_true (fun _ h => nomatch h) trivial
  | .member _ _ _, [], hfits, _, _ => by cases hfits
  | .member t es ms, s :: ss, hfits, hall, hmaps => by
    obtain ⟨rfl, hcounts, hes, hms⟩ := hfits
    obtain ⟨hallEs, hallMs⟩ := hall
    obtain ⟨hnodup, hmapsEs, hmapsMs⟩ := hmaps
    rw [Obj.toList, List.forall_mem_cons, decodeSpec_iff es hcounts hes hallEs hnodup,
      decodeElements_iff es t hes hallEs hmapsEs, decodeMembers_iff ms ss hms hallMs hmapsMs,
      and_assoc]
    rfl

theorem decodeElements_iff : (es : Elems) → (s : MemberSpec) → es.Fits reg s →
    es.All Any.Coded Any.Coded s.arity → es.Maps List.Nodup →
    ((∀ e ∈ es.toList, decodeElement conv reg s e.2 =
      Sum.map id Except.ok (Sum.map id Obj.sorted e.2)) ↔ es.Maps Strings)
  | .nil, _, _, _, _ => iff_of_true (fun _ h => nomatch h) trivial
  | .value key val es, s, hfits, hall, hmaps => by
    obtain ⟨t, ht, htype, hsound⟩ := ValueFits.content hfits.2.1
    have hval : decodeElement conv reg s (.inl val) = .inl val := by
      unfold decodeElement item
      rw [ht, MemberSpec.typeIndex, ht]
      exact congrArg Sum.inl (decodeValue_msg htype hsound hall.2.1)
    rw [Elems.toList, List.forall_mem_cons, decodeElements_iff es s hfits.2.2 hall.2.2 hmaps]
    exact and_iff_right hval
  | .object key obj es, s, hfits, hall, hmaps => by
    obtain ⟨-, ⟨c, hc, hobj⟩, hes⟩ := hfits
    rw [Elems.toList, List.forall_mem_cons, decodeElements_iff es s hes hall.2.2 hmaps.2]
    refine and_congr_left fun _ => ?_
    have hdecode : decodeElement conv reg s (.inr obj) =
        .inr (decodeObject conv reg c obj.msg) := by
      unfold decodeElement item
      rw [hc]
      rfl
    dsimp only
    rw [hdecode, ← decodeMembers_iff obj _ hobj hall.2.1 hmaps.1, ← decodeObject_msg hobj]
    exact ⟨Sum.inr.inj, congrArg Sum.inr⟩

end

end

/-- What the encoder writes is a document, for which the decoder writes the elements that the
readers delivered. -/
def MsgRoundTrips (conv : FloatCasts) (reg : Registry) (c : Bytes) (v : Obj) : Prop :=
  ∃ doc : Msg, codeDco v = doc.tokens ∧ decodeObject conv reg c doc = .ok v.sorted

/-- Objects make the round trip when all values are in the table, and all keys are strings. -/
theorem decodeObject_msg_iff {conv : FloatCasts} {reg : Registry} {c : Bytes} {v : Obj}
    (hfits : v.Fits reg (reg.members c)) (hnodup : v.Maps List.Nodup) :
    MsgRoundTrips conv reg c v ↔ v.All Any.Coded Any.Coded ∧ v.Maps Strings := by
  constructor
  · rintro ⟨doc, htokens, hdecode⟩
    have hall : v.All Any.Coded Any.Coded := by
      refine (complete_iff hfits).mp ?_
      cases doc with
      | map ps => exact ⟨ps, htokens⟩
      | _ => cases htokens
    have hdoc : doc = v.msg := Msg.tokens_inj _ _ (htokens.symm.trans (codeDco_eq hfits hall))
    subst hdoc
    exact ⟨hall, (decodeMembers_iff v _ hfits hall hnodup).mp ((decodeObject_msg hfits).mp hdecode)⟩
  · rintro ⟨hall, hstrings⟩
    exact ⟨v.msg, codeDco_eq hfits hall,
      (decodeObject_msg hfits).mpr ((decodeMembers_iff v _ hfits hall hnodup).mpr hstrings)⟩

end Dueca.Coding
