import Dueca.Coding.MsgpackTrips

/-!
# Documents that are received

What a peer sends need not come from the encoder. The decoder asserts that the keys of a map are
strings where it takes one for an object, or for the elements of a member that is a map.
-/

namespace Dueca.Coding

open Dueca.Lib

/-! ### Documents without other keys -/

def Msg.isMap : Msg → Bool
  | .map _ => true
  | _ => false

/-- The elements that are decoded have a property: those up to the first one that is not taken, or
is not a map. -/
def walk (s : MemberSpec) (n : ℕ) : List (Any × Bool × Prop) → Prop
  | [] => True
  | (key, isMap, p) :: l =>
    (∃ c, s.recurse n key = .ok c) → isMap = true → p ∧ walk s (n + 1) l

/-- The keys of a map are strings, and the elements that are decoded have a property. -/
def memberText (s : MemberSpec) (doc : Msg) (one : Bool × Prop) (each : List (Bool × Prop))
    (pairs : List (Bytes × Bool × Prop)) : Prop :=
  match s.arity with
  | .single => walk s 0 [(.empty, one)]
  | .mapped =>
    match doc with
    | .map ps => ps.strKeys = true ∧ walk s 0 ((mainmap pairs).map (Prod.map .string id))
    | _ => True
  | .iterable | .fixedIterable =>
    match doc with
    | .array _ => walk s 0 (each.map fun e => (.empty, e))
    | _ => True

section

variable (reg : Registry)

mutual

/-- All keys are strings, in the maps for objects and for members that are maps. -/
def Msg.TextKeys (c : Bytes) : Msg → Prop
  | .map ps => ps.strKeys = true ∧ ∀ e ∈ mainmap (ps.entriesText c), e.2
  | _ => True

def MsgPairs.entriesText (c : Bytes) : MsgPairs → List (Bytes × Prop)
  | .nil => []
  | .cons k v ps =>
    (k.keyBytes,
      match reg.find c (cstr k.keyBytes) with
      | none => True
      | some s =>
        memberText s v (v.isMap, v.TextKeys s.className) (v.eachText s.className)
          (v.pairsText s.className)) :: ps.entriesText c

def Msg.eachText (c : Bytes) : Msg → List (Bool × Prop)
  | .array vs => vs.itemsText c
  | _ => []

def Msgs.itemsText (c : Bytes) : Msgs → List (Bool × Prop)
  | .nil => []
  | .cons v vs => (v.isMap, v.TextKeys c) :: vs.itemsText c

def Msg.pairsText (c : Bytes) : Msg → List (Bytes × Bool × Prop)
  | .map ps => ps.mapText c
  | _ => []

def MsgPairs.mapText (c : Bytes) : MsgPairs → List (Bytes × Bool × Prop)
  | .nil => []
  | .cons k v ps => (k.keyBytes, v.isMap, v.TextKeys c) :: ps.mapText c

end

end

def Msgs.toList : Msgs → List Msg
  | .nil => []
  | .cons v vs => v :: vs.toList

def MsgPairs.toList : MsgPairs → List (Bytes × Msg)
  | .nil => []
  | .cons k v ps => (k.keyBytes, v) :: ps.toList

section

variable {conv : FloatCasts} {reg : Registry} {s : MemberSpec}

theorem itemsText_eq (c : Bytes) (vs : Msgs) :
    vs.itemsText reg c = vs.toList.map fun v => (v.isMap, v.TextKeys reg c) := by
  cases vs with
  | nil => rfl
  | cons v vs => exact congrArg _ (itemsText_eq c vs)

theorem mapText_eq (c : Bytes) (ps : MsgPairs) :
    ps.mapText reg c = ps.toList.map (Prod.map id fun v => (v.isMap, v.TextKeys reg c)) := by
  cases ps with
  | nil => rfl
  | cons key v ps => exact congrArg _ (mapText_eq c ps)

variable (conv reg s) in
/-- What the decoder gives for a document. -/
def decodeDoc (v : Msg) : Item := item conv s v fun c => decodeObject conv reg c v

theorem decodeItems_eq (vs : Msgs) :
    decodeItems conv reg s vs = vs.toList.map (decodeDoc conv reg s) := by
  cases vs with
  | nil => rfl
  | cons v vs => exact congrArg _ (decodeItems_eq vs)

theorem decodeMap_eq (ps : MsgPairs) :
    decodeMap conv reg s ps = ps.toList.map (Prod.map id (decodeDoc conv reg s)) := by
  cases ps with
  | nil => rfl
  | cons key v ps => exact congrArg _ (decodeMap_eq ps)

/-- No assertion fails. -/
def Safe {α : Type} (x : Except Fault α) : Prop := x ≠ .error .assertion

variable (conv reg) in
/-- No assertion fails for a document as an object when the keys are strings. -/
def Exact (v : Msg) : Prop := ∀ c, Safe (decodeObject conv reg c v) ↔ v.TextKeys reg c

theorem safe_ok {α : Type} (a : α) : Safe (.ok a : Except Fault α) := fun h => nomatch h

theorem safe_map {α β : Type} (x : Except Fault α) (f : α → β) : Safe (x.map f) ↔ Safe x := by
  cases x with
  | error fault => exact not_congr ⟨fun h => congrArg _ (Except.error.inj h),
      fun h => congrArg _ (Except.error.inj h)⟩
  | ok a => exact iff_of_true (safe_ok _) (safe_ok _)

theorem walk_of_direct {t : TypeId} (ht : s.content = .direct t) (n : ℕ)
    (l : List (Any × Bool × Prop)) : walk s n l := by
  cases l with
  | nil => trivial
  | cons e l =>
    rintro ⟨c, hc⟩
    unfold MemberSpec.recurse at hc
    rw [ht] at hc
    cases hc

/-- What is not a map is not an object. -/
theorem decodeObject_of_not_map {c : Bytes} {v : Msg} (h : v.isMap = false) :
    decodeObject conv reg c v = .error (.decode "type error") := by
  cases v with
  | map ps => cases h
  | _ => rfl

/-- The object of an element is decoded, and then those behind it. -/
theorem safe_object {c : Bytes} {v : Msg} (hv : Exact conv reg v) (n : ℕ) (key : Any)
    (items : List (Any × Item)) (p : Prop) (hp : Safe (writeEach s (n + 1) items) ↔ p) :
    Safe (writeEach s n ((key, .inr (decodeObject conv reg c v)) :: items)) ↔
      ((∃ c, s.recurse n key = .ok c) → v.isMap = true → v.TextKeys reg c ∧ p) := by
  rw [writeEach.eq_def, ← hp]
  dsimp only
  cases s.recurse n key with
  | error fault => exact iff_of_true (safe_ok _) fun h => by cases h.choose_spec
  | ok c' =>
    rw [forall_prop_of_true ⟨c', rfl⟩]
    dsimp only
    cases hmap : v.isMap with
    | false =>
      rw [decodeObject_of_not_map hmap]
      exact iff_of_true (safe_ok _) fun h => by cases h
    | true =>
      rw [forall_prop_of_true rfl, ← hv c]
      cases hdecode : decodeObject conv reg c v with
      | ok o =>
        rw [safe_map]
        exact (and_iff_right (safe_ok _)).symm
      | error fault =>
        have honly : fault = .assertion := by
          cases v with
          | map ps => exact decodeObject_onlyAssertion c ps fault hdecode
          | _ => cases hmap
        subst honly
        exact iff_of_false (fun h => h rfl) fun h => h.1 rfl

/-- The elements of a member are decoded without an assertion that fails. -/
theorem safe_writeEach (l : List (Any × Msg)) (n : ℕ) (h : ∀ e ∈ l, Exact conv reg e.2) :
    Safe (writeEach s n (l.map (Prod.map id (decodeDoc conv reg s)))) ↔
      walk s n (l.map (Prod.map id fun v => (v.isMap, v.TextKeys reg s.className))) := by
  induction l generalizing n with
  | nil => exact iff_of_true (safe_ok _) trivial
  | cons e l ih =>
    have ih := ih (n + 1) fun f hf => h f (List.mem_cons_of_mem _ hf)
    have hv := h e List.mem_cons_self
    rw [List.map_cons, List.map_cons]
    dsimp only [Prod.map, id]
    cases hc : s.content with
    | direct t =>
      have hitem : decodeDoc conv reg s e.2 = .inl (decodeValue conv e.2 s.typeIndex) := by
        unfold decodeDoc item
        rw [hc]
      rw [hitem, writeEach.eq_def]
      refine iff_of_true ?_ (walk_of_direct hc n _)
      dsimp only
      split
      · exact (safe_map _ _).mpr (ih.mpr (walk_of_direct hc (n + 1) _))
      · exact safe_ok _
    | nested c =>
      have hitem : decodeDoc conv reg s e.2 = .inr (decodeObject conv reg c e.2) := by
        unfold decodeDoc item
        rw [hc]
      have hclass : s.className = c := by rw [MemberSpec.className, hc]
      rw [hitem, walk, hclass]
      rw [hclass] at ih
      exact safe_object hv n e.1 _ _ ih

/-- A member is decoded without an assertion that fails. -/
theorem safe_decodeMember (v : Msg) (hone : Exact conv reg v)
    (heach : ∀ vs, v = .array vs → ∀ u ∈ vs.toList, Exact conv reg u)
    (hpairs : ∀ ps, v = .map ps → ∀ e ∈ ps.toList, Exact conv reg e.2) :
    Safe (decodeMember s v (decodeDoc conv reg s v) (decodeEach conv reg s v)
        (decodePairs conv reg s v)) ↔
      memberText s v (v.isMap, v.TextKeys reg s.className) (v.eachText reg s.className)
        (v.pairsText reg s.className) := by
  have harray : ∀ vs, v = .array vs →
      (Safe (writeEach s 0 ((decodeItems conv reg s vs).map fun i => (.empty, i))) ↔
        walk s 0 ((vs.itemsText reg s.className).map fun e => (.empty, e))) := fun vs hvs => by
    rw [decodeItems_eq, itemsText_eq, List.map_map, List.map_map]
    have hlist := safe_writeEach (s := s) (vs.toList.map fun u => (Any.empty, u)) 0 fun e he => by
      obtain ⟨u, hu, rfl⟩ := List.mem_map.mp he
      exact heach vs hvs u hu
    rw [List.map_map, List.map_map] at hlist
    exact hlist
  unfold decodeMember memberText
  cases s.arity with
  | single =>
    refine safe_writeEach [(Any.empty, v)] 0 fun e he => ?_
    obtain rfl := List.mem_singleton.mp he
    exact hone
  | mapped =>
    cases v with
    | map ps =>
      dsimp only
      rw [decodePairs, Msg.pairsText, decodeMap_eq, mapText_eq, mainmap_map, mainmap_map]
      split
      · next hstr =>
        rw [and_iff_right hstr, List.map_map, List.map_map]
        have hlist := safe_writeEach (s := s) ((mainmap ps.toList).map (Prod.map Any.string id)) 0
          fun e he => by
            obtain ⟨f, hf, rfl⟩ := List.mem_map.mp he
            exact hpairs ps rfl f (KeyMap.mem_of_mem_inOrder hf)
        rw [List.map_map, List.map_map] at hlist
        exact hlist
      · next hstr => exact iff_of_false (fun h => h rfl) fun h => hstr h.1
    | _ => exact iff_of_true (safe_ok _) trivial
  | iterable | fixedIterable =>
    cases v with
    | array vs => exact harray vs rfl
    | _ => exact iff_of_true (safe_ok _) trivial

theorem safe_assemble {l : List (Bytes × Except Fault (Option (MemberSpec × Elems)))}
    (honly : ∀ e ∈ l, OnlyAssertion e.2) : Safe (assemble l) ↔ ∀ e ∈ l, Safe e.2 := by
  induction l with
  | nil => exact iff_of_true (safe_ok _) fun _ h => nomatch h
  | cons e l ih =>
    obtain ⟨name, m⟩ := e
    have ih := ih fun f hf => honly f (List.mem_cons_of_mem _ hf)
    rw [List.forall_mem_cons, ← ih, assemble]
    cases m with
    | error fault =>
      obtain rfl := honly _ List.mem_cons_self fault rfl
      exact iff_of_false (fun h => h rfl) fun h => h.1 rfl
    | ok m =>
      rw [and_iff_right (safe_ok m)]
      cases assemble l with
      | error fault =>
        exact not_congr ⟨fun h => congrArg _ (Except.error.inj h),
          fun h => congrArg _ (Except.error.inj h)⟩
      | ok ms => cases m <;> exact iff_of_true (safe_ok _) (safe_ok _)

mutual

/-- Documents are decoded without an assertion that fails when keys are strings. -/
theorem Msg.exact : (v : Msg) → Exact conv reg v ∧
    (∀ vs, v = .array vs → ∀ u ∈ vs.toList, Exact conv reg u) ∧
    ∀ ps, v = .map ps → ∀ e ∈ ps.toList, Exact conv reg e.2
  | .map ps => by
    obtain ⟨hvalues, hentries⟩ := ps.exact
    refine ⟨fun c => ?_, fun _ h => (nomatch h), fun _ h => Msg.map.inj h ▸ hvalues⟩
    rw [decodeObject, Msg.TextKeys, hentries c, mainmap_map]
    split
    · next hstr =>
      rw [and_iff_right hstr, List.forall_mem_map]
      exact safe_assemble fun e he =>
        decodeEntries_onlyAssertion c ps e (KeyMap.mem_of_mem_inOrder he)
    · next hstr => exact iff_of_false (fun h => h rfl) fun h => hstr h.1
  | .array vs => by
    refine ⟨fun c => ?_, fun _ h => Msg.array.inj h ▸ vs.exact, fun _ h => nomatch h⟩
    exact iff_of_true (fun h => nomatch h) trivial
  | .nil | .bool _ | .int _ | .float32 _ | .float64 _ | .str _ | .bin _ | .ext _ _ =>
    ⟨fun _ => iff_of_true (fun h => nomatch h) trivial, fun _ h => (nomatch h),
      fun _ h => nomatch h⟩

theorem Msgs.exact : (vs : Msgs) → ∀ u ∈ vs.toList, Exact conv reg u
  | .nil, _, hu => nomatch hu
  | .cons v vs, u, hu => by
    obtain hu | hu := List.mem_cons.mp hu
    · exact hu ▸ v.exact.1
    · exact vs.exact u hu

theorem MsgPairs.exact : (ps : MsgPairs) → (∀ e ∈ ps.toList, Exact conv reg e.2) ∧
    ∀ c, ps.entriesText reg c = (decodeEntries conv reg c ps).map (Prod.map id Safe)
  | .nil => ⟨fun _ he => (nomatch he), fun _ => rfl⟩
  | .cons k v ps => by
    obtain ⟨hvalues, hentries⟩ := ps.exact
    obtain ⟨hone, heach, hpairs⟩ := v.exact
    refine ⟨fun e he => ?_, fun c => ?_⟩
    · obtain rfl | he := List.mem_cons.mp he
      · exact hone
      · exact hvalues e he
    · rw [MsgPairs.entriesText, decodeEntries, List.map_cons, hentries c]
      refine congrArg (· :: _) (Prod.ext rfl (propext ?_))
      dsimp only [Prod.map]
      cases reg.find c (cstr k.keyBytes) with
      | none => exact iff_of_true trivial (safe_ok _)
      | some s =>
        dsimp only
        rw [safe_map]
        exact (safe_decodeMember v hone heach hpairs).symm

end

end

/-- Documents are decoded without an assertion that fails when all keys are strings. -/
theorem safe_decodeObject (conv : FloatCasts) (reg : Registry) (c : Bytes) (doc : Msg) :
    Safe (decodeObject conv reg c doc) ↔ doc.TextKeys reg c := doc.exact.1 c

/-- An object is complete when all values are in the table of the encoder, and makes the round trip
when, besides, the keys of all maps are strings. A document is decoded without an assertion that
fails when all its keys are strings. -/
theorem msgpack_iff (conv : FloatCasts) (reg : Registry) (c : Bytes) :
    (∀ v : Obj, v.Fits reg (reg.members c) → v.Maps List.Nodup →
      (Complete v ↔ v.All Any.Coded Any.Coded) ∧
      (MsgRoundTrips conv reg c v ↔ v.All Any.Coded Any.Coded ∧ v.Maps Strings)) ∧
    ∀ doc : Msg, Safe (decodeObject conv reg c doc) ↔ doc.TextKeys reg c :=
  ⟨fun _ hfits hnodup => ⟨complete_iff hfits, decodeObject_msg_iff hfits hnodup⟩,
    safe_decodeObject conv reg c⟩

def zeroCasts : FloatCasts := ⟨fun _ => 0, fun _ => 0, fun _ => 0, fun _ => 0⟩

/-- Scores by name, and a remark. -/
def teamRegistry : Registry where
  members c :=
    if c = text "Team" then
      [{ name := text "scores", arity := .mapped, key := .string,
         content := .direct (.int false .w16) },
       { name := text "remark", arity := .single, content := .direct (.dstring 16) }]
    else []
  nodup c := by split <;> decide
  terminated c := by split <;> decide

/-- The scores are not in the order of the names. -/
def sampleTeam : Obj :=
  .member { name := text "scores", arity := .mapped, key := .string,
            content := .direct (.int false .w16) }
    (.value (.string (text "B")) (.int false .w16 7)
      (.value (.string (text "A")) (.int false .w16 9) .nil))
    (.member { name := text "remark", arity := .single, content := .direct (.dstring 16) }
      (.value .empty (.dstring 16 (text "ok")) .nil) .nil)

theorem msgpack_sampleTeam :
    Complete sampleTeam ∧ MsgRoundTrips zeroCasts teamRegistry (text "Team") sampleTeam ∧
      Safe (decodeObject zeroCasts teamRegistry (text "Team") (.map .nil)) := by
  obtain ⟨hobjects, hdocs⟩ := msgpack_iff zeroCasts teamRegistry (text "Team")
  have hfits : sampleTeam.Fits teamRegistry (teamRegistry.members (text "Team")) :=
    ⟨rfl, trivial, ⟨⟨rfl, trivial⟩, ⟨rfl, trivial⟩, ⟨rfl, trivial⟩, ⟨rfl, trivial⟩, trivial⟩,
      rfl, rfl, ⟨rfl, ⟨rfl, by decide⟩, trivial⟩, trivial⟩
  have hall : sampleTeam.All Any.Coded Any.Coded :=
    ⟨⟨fun _ => trivial, trivial, fun _ => trivial, trivial, trivial⟩,
      ⟨nofun, show 16 ∈ dstringSizes by decide, trivial⟩, trivial⟩
  have hnodup : sampleTeam.Maps List.Nodup := ⟨fun _ => by decide, trivial, nofun, trivial, trivial⟩
  have hstrings : sampleTeam.Maps Strings :=
    ⟨fun _ key hkey => by
      obtain rfl | hkey := List.mem_cons.mp hkey
      · rfl
      · obtain rfl := List.mem_singleton.mp hkey
        rfl, trivial, nofun, trivial, trivial⟩
  obtain ⟨hcomplete, htrips⟩ := hobjects sampleTeam hfits hnodup
  exact ⟨hcomplete.mpr hall, htrips.mpr ⟨hall, hstrings⟩,
    (hdocs _).mpr ⟨rfl, fun e he => nomatch he⟩⟩

def tagSpec : MemberSpec := ⟨[], .single, 0, .void, .direct .bool⟩

def sampleTag : Obj := .member tagSpec (.value .empty (.bool true) .nil) .nil

/-- A smart string is announced but not written, the elements of a map with numbers for keys are not
read, and neither is a document with a number for a key. -/
theorem not_msgpack :
    (¬ ∀ (reg : Registry) (c : Bytes) (v : Obj), v.Fits reg (reg.members c) →
      v.Maps List.Nodup → Complete v) ∧
    (¬ ∀ (conv : FloatCasts) (reg : Registry) (c : Bytes) (v : Obj),
      v.Fits reg (reg.members c) → v.Maps List.Nodup → MsgRoundTrips conv reg c v) ∧
    ¬ ∀ (conv : FloatCasts) (reg : Registry) (c : Bytes) (doc : Msg),
      Safe (decodeObject conv reg c doc) := by
  refine ⟨fun h => ?_, fun h => ?_, fun h => ?_⟩
  · let spec : MemberSpec := ⟨text "note", .single, 0, .void, .direct .smartstring⟩
    let reg : Registry := ⟨fun _ => [spec], fun _ => by decide, fun _ => by decide⟩
    have hfits : (Obj.member spec (.value .empty (.smartstring []) .nil) .nil).Fits reg [spec] :=
      ⟨rfl, rfl, ⟨rfl, ⟨rfl, trivial⟩, trivial⟩, trivial⟩
    exact ((complete_iff hfits).mp (h reg [] _ hfits ⟨nofun, trivial, trivial⟩)).1.2.1
  · let spec : MemberSpec := ⟨text "table", .mapped, 0, .int true .w32, .direct .bool⟩
    let reg : Registry := ⟨fun _ => [spec], fun _ => by decide, fun _ => by decide⟩
    let v : Obj := .member spec (.value (.int true .w32 1) (.bool true) .nil) .nil
    have hfits : v.Fits reg (reg.members []) :=
      ⟨rfl, trivial, ⟨⟨rfl, trivial⟩, ⟨rfl, trivial⟩, trivial⟩, trivial⟩
    have hnodup : v.Maps List.Nodup := ⟨fun _ => by decide, trivial, trivial⟩
    have hstrings := ((decodeObject_msg_iff hfits hnodup).mp (h zeroCasts reg [] v hfits hnodup)).2
    exact nomatch hstrings.1 rfl _ List.mem_cons_self
  · exact h zeroCasts teamRegistry [] (.map (.cons (.int 1) .nil .nil)) rfl

end Dueca.Coding
