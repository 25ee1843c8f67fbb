import Dueca.Coding.MsgpackTrips

/-!
# Messages of the websocket server

The server composes its messages with calls of an encoder. The encoder for MessagePack packs the
announced numbers, and nothing where an object or an array ends; the one for JSON ignores the
numbers, and writes the brackets. A message is the same document for both when a tree of keys and
values is written with either of them.

A class can have members that are objects of a class, whose description is within its own.
-/

namespace Dueca.Coding

/-! ### Encoders -/

/-- The calls of an encoder. A `String` can be given as `const char*` or as `std::string`. -/
inductive Call
  | startObject (n : ℕ)
  | endObject
  | key (k : Bytes)
  | startArray (n : ℕ)
  | endArray
  | string (s : Bytes)
  | stdString (s : Bytes)
  | int (n : ℤ)
  | uint (n : ℕ)
  | bool (b : Bool)
  | double (v : BitVec 64)
  | dco (v : Obj)

/-- `msgpackpacker`. -/
def Call.tokens : Call → List MsgToken
  | .startObject n => [.map n]
  | .startArray n => [.array n]
  | .endObject | .endArray => []
  | .key s | .string s => [.str (cstr s)]
  | .stdString s => [.str s]
  | .int n => [.int n]
  | .uint n => [.int n]
  | .bool b => [.bool b]
  | .double v => [.float64 v]
  | .dco v => codeDco v

def msgTokens (cs : List Call) : List MsgToken := cs.flatMap Call.tokens

/-- What a JSON text is made of. -/
inductive JsonEvent
  | null
  | bool (b : Bool)
  | int (n : ℤ)
  | double (v : BitVec 64)
  | string (s : Bytes)
  | key (s : Bytes)
  | startArray
  | endArray
  | startObject
  | endObject
  deriving DecidableEq, Repr

mutual

/-- How a document is written. -/
def Json.events : Json → List JsonEvent
  | .null => [.null]
  | .bool b => [.bool b]
  | .int n => [.int n]
  | .double v => [.double v]
  | .string s => [.string s]
  | .array vs => .startArray :: (vs.events ++ [.endArray])
  | .object ms => .startObject :: (ms.events ++ [.endObject])

def Jsons.events : Jsons → List JsonEvent
  | .nil => []
  | .cons v vs => v.events ++ vs.events

def JsonMembers.events : JsonMembers → List JsonEvent
  | .nil => []
  | .cons key v ms => .key key :: (v.events ++ ms.events)

end

section

variable (conv : FloatConversion)

/-- `jsonpacker`, in its extended form. -/
def Call.events : Call → Option (List JsonEvent)
  | .startObject _ => some [.startObject]
  | .endObject => some [.endObject]
  | .startArray _ => some [.startArray]
  | .endArray => some [.endArray]
  | .key s => some [.key (cstr s)]
  | .string s | .stdString s => some [.string (cstr s)]
  | .int n => some [.int n]
  | .uint n => some [.int n]
  -- the argument is not used
  | .bool _ => some [.bool true]
  | .double v => (writeDouble false v).map Json.events
  | .dco v => (dcoToJson conv false v).map fun ms => (Json.object ms).events

def jsonEvents : List Call → Option (List JsonEvent)
  | [] => some []
  | c :: cs => do
    let e ← c.events conv
    let es ← jsonEvents cs
    some (e ++ es)

end

/-! ### Messages -/

/-- The calls for all elements of a list. -/
def codeAll {α : Type} (code : α → Option (List Call)) : List α → Option (List Call)
  | [] => some []
  | x :: xs => do
    let cs ← code x
    let rest ← codeAll code xs
    some (cs ++ rest)

/-- The classes that are registered, and their members. -/
structure ClassInfo extends Registry where
  registered : Bytes → Bool
  typeName : TypeId → Bytes
  class_terminated : ∀ c, registered c → 0 ∉ c

namespace ClassInfo

variable (info : ClassInfo)

/-- `getMemberClass`. -/
def memberClass (s : MemberSpec) : Bytes :=
  match s.content with
  | .direct t => info.typeName t
  | .nested c => c

/-- The number of keys that is announced for a member. -/
def numElements (s : MemberSpec) : ℕ :=
  (if info.registered (info.memberClass s) then 3 else 2) +
    (if s.arity = .fixedIterable ∨ s.arity = .iterable then 1 else 0) +
    (if s.arity = .mapped then 2 else 0)

/-- What is written for the arity of a member. -/
def codeArity (s : MemberSpec) : List Call :=
  match s.arity with
  | .single => []
  -- this case falls through
  | .fixedIterable =>
    [.key (text "size"), .int s.size, .key (text "array"), .bool true]
  | .iterable => [.key (text "array"), .bool true]
  | .mapped =>
    [.key (text "map"), .bool true, .key (text "keytype"), .string (info.typeName s.key)]

/-- The part of `codeTypeInfo` for a member. -/
def codeMember (typeInfo : Bytes → Option (List Call)) (s : MemberSpec) : Option (List Call) := do
  let nested ←
    if info.registered (info.memberClass s) then
      (typeInfo (info.memberClass s)).map fun cs => .key (text "typeinfo") :: cs
    else some []
  some (.startObject (info.numElements s) ::
    ([.key (text "name"), .string s.name, .key (text "type"), .string (info.memberClass s)] ++
      nested ++ info.codeArity s ++ [.endObject]))

/-- `codeTypeInfo`, to a depth. -/
def codeTypeInfo : ℕ → Bytes → Option (List Call)
  | 0, _ => none
  | depth + 1, c => do
    let cs ← codeAll (info.codeMember (codeTypeInfo depth)) (info.members c)
    some (.startArray (info.members c).length :: (cs ++ [.endArray]))

end ClassInfo

/-- An endpoint with an entry, and one that is set up with a class. -/
structure EntryEndpoint where
  name : Bytes
  id : ℕ
  datatype : Bytes

structure ClassEndpoint where
  name : Bytes
  datatype : Bytes

/-- The endpoints of a server. -/
structure Configuration where
  readsingles : List EntryEndpoint
  followers : List EntryEndpoint
  monitors : List Bytes
  writersetup : List ClassEndpoint
  presetwriters : List ClassEndpoint
  writereadsetup : List Bytes
  granule : BitVec 64
  granule_finite : finite64 granule

section

variable (info : ClassInfo) (depth : ℕ)

def codeEntryEndpoint (e : EntryEndpoint) : Option (List Call) := do
  let typeinfo ← info.codeTypeInfo depth e.datatype
  some (.startObject 4 ::
    ([.key (text "endpoint"), .string e.name, .key (text "dataclass"), .string e.datatype,
      .key (text "typeinfo")] ++ typeinfo ++ [.key (text "entry"), .int e.id, .endObject]))

def codeNameEndpoint (name : Bytes) : List Call :=
  [.startObject 1, .key (text "endpoint"), .string name, .endObject]

/-- An endpoint for writing, with its class when that is known. -/
def codeWriteEndpoint (e : ClassEndpoint) : Option (List Call) := do
  let dataclass ←
    if 0 < e.datatype.length then
      (info.codeTypeInfo depth e.datatype).map fun cs =>
        [.key (text "dataclass"), .string e.datatype, .key (text "typeinfo")] ++ cs
    else some []
  some (.startObject (1 + if 0 < e.datatype.length then 2 else 0) ::
    ([.key (text "endpoint"), .string e.name] ++ dataclass ++ [.endObject]))

def codePresetEndpoint (e : ClassEndpoint) : Option (List Call) := do
  let typeinfo ← info.codeTypeInfo depth e.datatype
  some (.startObject 3 ::
    ([.key (text "endpoint"), .string e.name, .key (text "dataclass"), .string e.datatype,
      .key (text "typeinfo")] ++ typeinfo ++ [.endObject]))

/-- A key with an array. -/
def codeArray (key : Bytes) (n : ℕ) (elements : List Call) : List Call :=
  .key key :: .startArray n :: (elements ++ [.endArray])

/-- The message that is sent when a configuration connection opens. -/
def codeConfiguration (cfg : Configuration) : Option (List Call) := do
  let current ← codeAll (codeEntryEndpoint info depth) cfg.readsingles
  let read ← codeAll (codeEntryEndpoint info depth) cfg.followers
  let write ← codeAll (codeWriteEndpoint info depth) cfg.writersetup
  let preset ← codeAll (codePresetEndpoint info depth) cfg.presetwriters
  let rest : List Call := [.key (text "granule"), .double cfg.granule, .endObject]
  let rest := codeArray (text "write-and-read") cfg.writereadsetup.length
    (cfg.writereadsetup.flatMap codeNameEndpoint) ++ rest
  let rest := codeArray (text "write") cfg.writersetup.length (write ++ preset) ++ rest
  let rest := codeArray (text "info") cfg.monitors.length
    (cfg.monitors.flatMap codeNameEndpoint) ++ rest
  let rest := codeArray (text "read") cfg.followers.length read ++ rest
  some (.startObject 6 :: (codeArray (text "current") cfg.readsingles.length current ++ rest))

def entryEnd : ℕ := 0xffff

/-- The part of `codeEntryInfo` for an entry that is added. -/
def codeAdded (key dataname : Bytes) (entryid : ℕ) : Option (List Call) :=
  if 0 < dataname.length then
    (info.codeTypeInfo depth dataname).map fun cs =>
      [.key key, .startObject 3, .key (text "dataclass"), .stdString dataname,
        .key (text "entry"), .uint entryid, .key (text "typeinfo")] ++ cs ++ [.endObject]
  else some []

/-- The part of `codeEntryInfo` for an entry that is removed. -/
def codeRemoved (key dataname : Bytes) (entryid : ℕ) : List Call :=
  if entryid ≠ entryEnd then
    [.key key, .startObject 2, .key (text "dataclass"), .stdString dataname,
      .key (text "entry"), .uint entryid, .endObject]
  else []

/-- `codeEntryInfo`. -/
def codeEntryInfo (wName : Bytes) (wEntry : ℕ) (rName : Bytes) (rEntry : ℕ) :
    Option (List Call) :=
  if 0 < rName.length ∨ 0 < wName.length then do
    let read ← codeAdded info depth (text "read") rName rEntry
    let write ← codeAdded info depth (text "write") wName wEntry
    some (.startObject ((if 0 < wName.length then 1 else 0) +
      if 0 < rName.length then 1 else 0) :: (read ++ write ++ [.endObject]))
  else
    some (.startObject ((if rEntry ≠ entryEnd then 1 else 0) +
      if wEntry ≠ entryEnd then 1 else 0) ::
      (codeRemoved (text "read") rName rEntry ++ codeRemoved (text "write") wName wEntry ++
        [.endObject]))

end

/-- `codeData`. -/
def codeData (tick : ℕ) (v : Obj) : List Call :=
  [.startObject 2, .key (text "tick"), .uint tick, .key (text "data"), .dco v, .endObject]

/-- `codeEmpty`. -/
def codeEmpty : List Call := [.startObject 0, .endObject]

/-! ### The same document -/

section

variable (conv : FloatConversion)

mutual

/-- The tree of keys and values of a MessagePack document. -/
def Msg.json : Msg → Option Json
  | .nil => some .null
  | .bool b => some (.bool b)
  | .int n => some (.int n)
  | .float32 v => some (.double (conv.widen v))
  | .float64 v => some (.double v)
  | .str s => some (.string s)
  | .bin _ | .ext _ _ => none
  | .array vs => vs.json.map .array
  | .map ps => ps.json.map .object

def Msgs.json : Msgs → Option Jsons
  | .nil => some .nil
  | .cons v vs =>
    match v.json, vs.json with
    | some w, some ws => some (.cons w ws)
    | _, _ => none

def MsgPairs.json : MsgPairs → Option JsonMembers
  | .nil => some .nil
  | .cons (.str s) v ps =>
    match v.json, ps.json with
    | some w, some ms => some (.cons s w ms)
    | _, _ => none
  | .cons _ _ _ => none

end

/-- Both encoders write a document, and these have the same tree. -/
def SameDocument (cs : List Call) : Prop :=
  ∃ (m : Msg) (j : Json), msgTokens cs = m.tokens ∧ jsonEvents conv cs = some j.events ∧
    m.json conv = some j

/-- Both encoders write the elements of an array. -/
def SameElements (cs : List Call) (n : ℕ) : Prop :=
  ∃ (vs : Msgs) (js : Jsons), msgTokens cs = vs.tokens ∧ jsonEvents conv cs = some js.events ∧
    vs.json conv = some js ∧ vs.length = n

/-- Both encoders write the members of an object. -/
def SameMembers (cs : List Call) (n : ℕ) : Prop :=
  ∃ (ps : MsgPairs) (ms : JsonMembers), msgTokens cs = ps.tokens ∧
    jsonEvents conv cs = some ms.events ∧ ps.json conv = some ms ∧ ps.length = n

end

/-! A JSON document ends at one place only: an element does not begin as an array ends, and a
member not as an object ends. -/

theorem Json.events_ne_end (v : Json) {es fs : List JsonEvent} :
    v.events ++ es ≠ .endArray :: fs := by
  cases v <;> exact fun h => nomatch h

mutual

theorem Json.events_cancel : (v w : Json) → {es fs : List JsonEvent} →
    v.events ++ es = w.events ++ fs → v = w ∧ es = fs
  | .array vs, w, es, fs, h => by
    cases w with
    | array ws =>
      rw [Json.events, Json.events, List.cons_append, List.cons_append, List.append_assoc,
        List.append_assoc] at h
      have htail := (List.cons.inj h).2
      obtain ⟨rfl, rfl⟩ := Jsons.events_cancel vs ws htail
      exact ⟨rfl, rfl⟩
    | _ => cases h
  | .object ms, w, es, fs, h => by
    cases w with
    | object ns =>
      rw [Json.events, Json.events, List.cons_append, List.cons_append, List.append_assoc,
        List.append_assoc] at h
      have htail := (List.cons.inj h).2
      obtain ⟨rfl, rfl⟩ := JsonMembers.events_cancel ms ns htail
      exact ⟨rfl, rfl⟩
    | _ => cases h
  | .null, w, _, _, h | .bool _, w, _, _, h | .int _, w, _, _, h | .double _, w, _, _, h
  | .string _, w, _, _, h => by
    cases w <;> cases h
    exact ⟨rfl, rfl⟩

theorem Jsons.events_cancel : (vs ws : Jsons) → {es fs : List JsonEvent} →
    vs.events ++ (.endArray :: es) = ws.events ++ (.endArray :: fs) → vs = ws ∧ es = fs
  | .nil, .nil, _, _, h => ⟨rfl, (List.cons.inj h).2⟩
  | .nil, .cons w ws, _, _, h => by
    rw [Jsons.events, Jsons.events, List.append_assoc] at h
    exact absurd h.symm w.events_ne_end
  | .cons v vs, .nil, _, _, h => by
    rw [Jsons.events, Jsons.events, List.append_assoc] at h
    exact absurd h v.events_ne_end
  | .cons v vs, .cons w ws, _, _, h => by
    rw [Jsons.events, Jsons.events, List.append_assoc, List.append_assoc] at h
    obtain ⟨rfl, hrest⟩ := Json.events_cancel v w h
    obtain ⟨rfl, rfl⟩ := Jsons.events_cancel vs ws hrest
    exact ⟨rfl, rfl⟩

theorem JsonMembers.events_cancel : (ms ns : JsonMembers) → {es fs : List JsonEvent} →
    ms.events ++ (.endObject :: es) = ns.events ++ (.endObject :: fs) → ms = ns ∧ es = fs
  | .nil, .nil, _, _, h => ⟨rfl, (List.cons.inj h).2⟩
  | .nil, .cons .., _, _, h | .cons .., .nil, _, _, h => nomatch (List.cons.inj h).1
  | .cons k v ms, .cons l w ns, _, _, h => by
    rw [JsonMembers.events, JsonMembers.events, List.cons_append, List.cons_append,
      List.append_assoc, List.append_assoc] at h
    obtain ⟨hkey, htail⟩ := List.cons.inj h
    obtain rfl := JsonEvent.key.inj hkey
    obtain ⟨rfl, hrest⟩ := Json.events_cancel v w htail
    obtain ⟨rfl, rfl⟩ := JsonMembers.events_cancel ms ns hrest
    exact ⟨rfl, rfl⟩

end

/-- The documents that the two encoders write have the same tree. -/
theorem SameDocument.tree {conv : FloatConversion} {cs : List Call} {m : Msg} {j : Json}
    (h : SameDocument conv cs) (hm : msgTokens cs = m.tokens)
    (hj : jsonEvents conv cs = some j.events) : m.json conv = some j := by
  obtain ⟨m', j', htokens, hevents, htree⟩ := h
  obtain rfl := Msg.tokens_inj m m' (hm.symm.trans htokens)
  have hjson : j.events ++ [] = j'.events ++ [] := by
    rw [List.append_nil, List.append_nil]
    exact Option.some.inj (hj.symm.trans hevents)
  rw [htree, (Json.events_cancel j j' hjson).1]

theorem msgTokens_append (cs ds : List Call) :
    msgTokens (cs ++ ds) = msgTokens cs ++ msgTokens ds :=
  List.flatMap_append

theorem msgTokens_cons (c : Call) (cs : List Call) :
    msgTokens (c :: cs) = c.tokens ++ msgTokens cs :=
  List.flatMap_cons

section

variable {conv : FloatConversion} {cs ds : List Call} {n m : ℕ}

theorem jsonEvents_cons {c : Call} {e es : List JsonEvent} (he : c.events conv = some e)
    (hes : jsonEvents conv cs = some es) : jsonEvents conv (c :: cs) = some (e ++ es) := by
  rw [jsonEvents, he, hes]
  rfl

theorem jsonEvents_append {es fs : List JsonEvent} (hes : jsonEvents conv cs = some es)
    (hfs : jsonEvents conv ds = some fs) : jsonEvents conv (cs ++ ds) = some (es ++ fs) := by
  induction cs generalizing es with
  | nil =>
    obtain rfl : [] = es := Option.some.inj hes
    exact hfs
  | cons c cs ih =>
    cases he : c.events conv with
    | none =>
      rw [jsonEvents, he] at hes
      cases hes
    | some e =>
      cases hrest : jsonEvents conv cs with
      | none =>
        rw [jsonEvents, he, hrest] at hes
        cases hes
      | some rest =>
        obtain rfl : e ++ rest = es := by
          rw [jsonEvents_cons he hrest] at hes
          exact Option.some.inj hes
        rw [List.cons_append, jsonEvents_cons he (ih hrest), List.append_assoc]

/-- A call that writes a value of its own. -/
theorem SameDocument.leaf {c : Call} {v : Msg} {j : Json} (htokens : c.tokens = v.tokens)
    (hevents : c.events conv = some j.events) (htree : v.json conv = some j) :
    SameDocument conv [c] := by
  refine ⟨v, j, ?_, ?_, htree⟩
  · rw [msgTokens_cons, htokens]
    exact List.append_nil _
  · rw [jsonEvents_cons hevents rfl, List.append_nil]

theorem SameDocument.array (h : SameElements conv cs n) :
    SameDocument conv (.startArray n :: (cs ++ [.endArray])) := by
  obtain ⟨vs, js, htokens, hevents, htree, rfl⟩ := h
  refine ⟨.array vs, .array js, ?_, ?_, ?_⟩
  · rw [msgTokens_cons, msgTokens_append, htokens]
    exact congrArg (_ :: ·) (List.append_nil _)
  · have hend : jsonEvents conv [.endArray] = some [.endArray] := rfl
    exact jsonEvents_cons (e := [.startArray]) rfl (jsonEvents_append hevents hend)
  · rw [Msg.json, htree]
    rfl

theorem SameDocument.object (h : SameMembers conv cs n) :
    SameDocument conv (.startObject n :: (cs ++ [.endObject])) := by
  obtain ⟨ps, ms, htokens, hevents, htree, rfl⟩ := h
  refine ⟨.map ps, .object ms, ?_, ?_, ?_⟩
  · rw [msgTokens_cons, msgTokens_append, htokens]
    exact congrArg (_ :: ·) (List.append_nil _)
  · have hend : jsonEvents conv [.endObject] = some [.endObject] := rfl
    exact jsonEvents_cons (e := [.startObject]) rfl (jsonEvents_append hevents hend)
  · rw [Msg.json, htree]
    rfl

theorem SameElements.nil : SameElements conv [] 0 := ⟨.nil, .nil, rfl, rfl, rfl, rfl⟩

theorem SameElements.cons (h : SameDocument conv cs) (h' : SameElements conv ds n) :
    SameElements conv (cs ++ ds) (n + 1) := by
  obtain ⟨v, j, htokens, hevents, htree⟩ := h
  obtain ⟨vs, js, htokens', hevents', htree', rfl⟩ := h'
  refine ⟨.cons v vs, .cons j js, ?_, jsonEvents_append hevents hevents', ?_, rfl⟩
  · rw [msgTokens_append, htokens, htokens']
    rfl
  · rw [Msgs.json, htree, htree']

theorem SameMembers.nil : SameMembers conv [] 0 := ⟨.nil, .nil, rfl, rfl, rfl, rfl⟩

/-- A key with a value, and the members behind it. -/
theorem SameMembers.cons (k : Bytes) (h : SameDocument conv cs) (h' : SameMembers conv ds n) :
    SameMembers conv (.key k :: (cs ++ ds)) (n + 1) := by
  obtain ⟨v, j, htokens, hevents, htree⟩ := h
  obtain ⟨ps, ms, htokens', hevents', htree', rfl⟩ := h'
  refine ⟨.cons (.str (cstr k)) v ps, .cons (cstr k) j ms, ?_,
    jsonEvents_cons (e := [.key (cstr k)]) rfl (jsonEvents_append hevents hevents'), ?_, rfl⟩
  · rw [msgTokens_cons, msgTokens_append, htokens, htokens']
    rfl
  · rw [MsgPairs.json, htree, htree']

/-- A key with an array, and the members behind it. -/
theorem SameMembers.codeArray (k : Bytes) (h' : SameMembers conv ds n)
    (h : SameElements conv cs m) : SameMembers conv (codeArray k m cs ++ ds) (n + 1) :=
  .cons k (.array h) h'

theorem SameMembers.one (k : Bytes) (h : SameDocument conv cs) :
    SameMembers conv (.key k :: cs) 1 := by
  have := SameMembers.cons k h .nil
  rwa [List.append_nil] at this

theorem SameDocument.string (s : Bytes) : SameDocument conv [.string s] :=
  .leaf (v := .str (cstr s)) (j := .string (cstr s)) rfl rfl rfl

theorem SameDocument.stdString {s : Bytes} (h : 0 ∉ s) : SameDocument conv [.stdString s] :=
  .leaf (v := .str s) (j := .string (cstr s)) rfl rfl (by rw [Msg.json, cstr_of_not_mem h])

theorem SameDocument.int (n : ℤ) : SameDocument conv [.int n] :=
  .leaf (v := .int n) (j := .int n) rfl rfl rfl

theorem SameDocument.uint (n : ℕ) : SameDocument conv [.uint n] :=
  .leaf (v := .int n) (j := .int n) rfl rfl rfl

theorem SameDocument.yes : SameDocument conv [.bool true] :=
  .leaf (v := .bool true) (j := .bool true) rfl rfl rfl

theorem SameDocument.double {v : BitVec 64} (h : finite64 v) : SameDocument conv [.double v] :=
  .leaf (v := .float64 v) (j := .double v) rfl
    (by rw [Call.events, writeDouble, if_pos h]; rfl) rfl

end

/-! ### Descriptions of classes -/

namespace ClassInfo

variable {info : ClassInfo}

/-- A class whose description ends: it is registered, and so are, in the end, the classes within
it. There are no arrays of a fixed size. -/
inductive Plain (info : ClassInfo) : Bytes → Prop
  | intro {c : Bytes} (hreg : info.registered c = true)
      (hfixed : ∀ s ∈ info.members c, s.arity ≠ .fixedIterable)
      (hnested : ∀ s ∈ info.members c, info.registered (info.memberClass s) = true →
        Plain info (info.memberClass s)) : Plain info c

/-- From some depth on, the calls are made, and both encoders write the same document. -/
def Composed (conv : FloatConversion) (code : ℕ → Option (List Call)) : Prop :=
  ∃ depth, ∀ d ≥ depth, ∃ cs, code d = some cs ∧ SameDocument conv cs

variable {conv : FloatConversion}

variable (info conv) in
theorem sameMembers_codeArity {s : MemberSpec} (hfixed : s.arity ≠ .fixedIterable) :
    SameMembers conv (info.codeArity s)
      ((if s.arity = .fixedIterable ∨ s.arity = .iterable then 1 else 0) +
        if s.arity = .mapped then 2 else 0) := by
  unfold codeArity
  cases harity : s.arity with
  | single => exact .nil
  | iterable => exact .one (text "array") .yes
  | mapped => exact .cons (text "map") .yes (.one (text "keytype") (.string _))
  | fixedIterable => exact absurd harity hfixed

/-- The description of a member. -/
theorem codeMember_same {typeInfo : Bytes → Option (List Call)} {s : MemberSpec}
    (hfixed : s.arity ≠ .fixedIterable)
    (hnested : info.registered (info.memberClass s) = true →
      ∃ cs, typeInfo (info.memberClass s) = some cs ∧ SameDocument conv cs) :
    ∃ cs, info.codeMember typeInfo s = some cs ∧ SameDocument conv cs := by
  have harity := sameMembers_codeArity info conv hfixed
  unfold codeMember numElements
  split
  · next hreg =>
    obtain ⟨cs, hcs, hsame⟩ := hnested hreg
    rw [hcs]
    refine ⟨_, rfl, ?_⟩
    have h := SameDocument.object (.cons (text "name") (.string s.name)
      (.cons (text "type") (.string (info.memberClass s)) (.cons (text "typeinfo") hsame harity)))
    simp only [List.cons_append, List.nil_append, List.append_assoc] at h ⊢
    convert h using 3
    omega
  · refine ⟨_, rfl, ?_⟩
    have h := SameDocument.object (.cons (text "name") (.string s.name)
      (.cons (text "type") (.string (info.memberClass s)) harity))
    simp only [List.cons_append, List.nil_append] at h ⊢
    convert h using 3
    omega

variable (conv) in
/-- The elements of an array are written, when each of them is. -/
theorem codeAll_same {α : Type} (code : ℕ → α → Option (List Call)) (xs : List α)
    (h : ∀ x ∈ xs, Composed conv fun d => code d x) :
    ∃ depth, ∀ d ≥ depth, ∃ cs, codeAll (code d) xs = some cs ∧
      SameElements conv cs xs.length := by
  induction xs with
  | nil => exact ⟨0, fun _ _ => ⟨[], rfl, .nil⟩⟩
  | cons x xs ih =>
    obtain ⟨depth, hx⟩ := h x List.mem_cons_self
    obtain ⟨depth', hxs⟩ := ih fun y hy => h y (List.mem_cons_of_mem _ hy)
    refine ⟨max depth depth', fun d hd => ?_⟩
    obtain ⟨cs, hcs, hsame⟩ := hx d (le_trans (le_max_left _ _) hd)
    obtain ⟨rest, hrest, hsameRest⟩ := hxs d (le_trans (le_max_right _ _) hd)
    refine ⟨cs ++ rest, ?_, SameElements.cons hsame hsameRest⟩
    dsimp only at hcs
    rw [codeAll, hcs, hrest]
    rfl

variable (conv) in
/-- The description of a class is a document. -/
theorem codeTypeInfo_same {c : Bytes} (h : Plain info c) :
    Composed conv fun d => info.codeTypeInfo d c := by
  induction h with
  | @intro c hreg hfixed hnested ih =>
    have hmembers : ∀ s ∈ info.members c,
        Composed conv fun d => info.codeMember (info.codeTypeInfo d) s := fun s hs => by
      by_cases hs' : info.registered (info.memberClass s) = true
      · obtain ⟨depth, hdepth⟩ := ih s hs hs'
        exact ⟨depth, fun d hd => codeMember_same (hfixed s hs) fun _ => hdepth d hd⟩
      · exact ⟨0, fun d _ => codeMember_same (hfixed s hs) fun h => absurd h hs'⟩
    obtain ⟨depth, hdepth⟩ :=
      codeAll_same conv (fun d => info.codeMember (info.codeTypeInfo d)) _ hmembers
    refine ⟨depth + 1, fun d hd => ?_⟩
    obtain ⟨d, rfl⟩ : ∃ e, d = e + 1 := ⟨d - 1, by omega⟩
    obtain ⟨cs, hcs, hsame⟩ := hdepth d (by omega)
    refine ⟨_, ?_, .array hsame⟩
    dsimp only
    rw [codeTypeInfo, hcs]
    rfl

end ClassInfo

/-! ### The messages -/

section

open ClassInfo

variable {conv : FloatConversion} {info : ClassInfo}

theorem codeNameEndpoints_same (names : List Bytes) :
    SameElements conv (names.flatMap codeNameEndpoint) names.length := by
  induction names with
  | nil => exact .nil
  | cons name names ih =>
    rw [List.flatMap_cons]
    exact .cons (.object (.one (text "endpoint") (.string name))) ih

theorem codeEntryEndpoint_same {e : EntryEndpoint} (h : Plain info e.datatype) :
    Composed conv fun d => codeEntryEndpoint info d e := by
  obtain ⟨depth, hdepth⟩ := codeTypeInfo_same conv h
  refine ⟨depth, fun d hd => ?_⟩
  obtain ⟨cs, hcs, hsame⟩ := hdepth d hd
  have hobject := SameDocument.object (.cons (text "endpoint") (.string e.name)
    (.cons (text "dataclass") (.string e.datatype) (.cons (text "typeinfo") hsame
      (.one (text "entry") (.int e.id)))))
  dsimp only at hcs ⊢
  rw [codeEntryEndpoint, hcs]
  refine ⟨_, rfl, ?_⟩
  simp only [List.cons_append, List.nil_append, List.append_assoc] at hobject ⊢
  exact hobject

theorem codeWriteEndpoint_same {e : ClassEndpoint}
    (h : 0 < e.datatype.length → Plain info e.datatype) :
    Composed conv fun d => codeWriteEndpoint info d e := by
  by_cases hclass : 0 < e.datatype.length
  · obtain ⟨depth, hdepth⟩ := codeTypeInfo_same conv (h hclass)
    refine ⟨depth, fun d hd => ?_⟩
    obtain ⟨cs, hcs, hsame⟩ := hdepth d hd
    have hobject := SameDocument.object (.cons (text "endpoint") (.string e.name)
      (.cons (text "dataclass") (.string e.datatype) (.one (text "typeinfo") hsame)))
    dsimp only at hcs ⊢
    rw [codeWriteEndpoint, if_pos hclass, if_pos hclass, hcs]
    refine ⟨_, rfl, ?_⟩
    simp only [List.cons_append, List.nil_append] at hobject ⊢
    exact hobject
  · refine ⟨0, fun d _ => ?_⟩
    dsimp only
    rw [codeWriteEndpoint, if_neg hclass, if_neg hclass]
    exact ⟨_, rfl, .object (.one (text "endpoint") (.string e.name))⟩

/-- The classes that a configuration names. -/
def Configuration.Classes (cfg : Configuration) (p : Bytes → Prop) : Prop :=
  (∀ e ∈ cfg.readsingles, p e.datatype) ∧ (∀ e ∈ cfg.followers, p e.datatype) ∧
    ∀ e ∈ cfg.writersetup, 0 < e.datatype.length → p e.datatype

/-- The configuration, without endpoints for writing that were set beforehand. -/
theorem codeConfiguration_same {cfg : Configuration} (hpreset : cfg.presetwriters = [])
    (h : cfg.Classes (Plain info)) : Composed conv fun d => codeConfiguration info d cfg := by
  obtain ⟨hcurrent, hread, hwrite⟩ := h
  obtain ⟨depth₁, h₁⟩ := codeAll_same conv (codeEntryEndpoint info) cfg.readsingles
    fun e he => codeEntryEndpoint_same (hcurrent e he)
  obtain ⟨depth₂, h₂⟩ := codeAll_same conv (codeEntryEndpoint info) cfg.followers
    fun e he => codeEntryEndpoint_same (hread e he)
  obtain ⟨depth₃, h₃⟩ := codeAll_same conv (codeWriteEndpoint info) cfg.writersetup
    fun e he => codeWriteEndpoint_same (hwrite e he)
  refine ⟨max depth₁ (max depth₂ depth₃), fun d hd => ?_⟩
  obtain ⟨cs₁, hcs₁, hsame₁⟩ := h₁ d (by omega)
  obtain ⟨cs₂, hcs₂, hsame₂⟩ := h₂ d (by omega)
  obtain ⟨cs₃, hcs₃, hsame₃⟩ := h₃ d (by omega)
  have hgranule : SameMembers conv [.key (text "granule"), .double cfg.granule] 1 :=
    .one (text "granule") (.double cfg.granule_finite)
  have hmembers := hgranule.codeArray (text "write-and-read")
    (codeNameEndpoints_same cfg.writereadsetup)
  have hmembers := hmembers.codeArray (text "write") hsame₃
  have hmembers := hmembers.codeArray (text "info") (codeNameEndpoints_same cfg.monitors)
  have hmembers := hmembers.codeArray (text "read") hsame₂
  have hobject := SameDocument.object (hmembers.codeArray (text "current") hsame₁)
  dsimp only
  rw [codeConfiguration, hcs₁, hcs₂, hcs₃, hpreset]
  refine ⟨_, rfl, ?_⟩
  simp only [List.cons_append, List.nil_append, List.append_nil, List.append_assoc] at hobject ⊢
  exact hobject

theorem ClassInfo.Plain.registered {c : Bytes} (h : Plain info c) : info.registered c = true := by
  cases h with
  | intro hreg _ _ => exact hreg

variable (conv) in
/-- The part for an entry that is added, with the members behind it. -/
theorem codeAdded_same (key : Bytes) {dataname : Bytes} (entryid : ℕ)
    (h : 0 < dataname.length → Plain info dataname) :
    ∃ depth, ∀ d ≥ depth, ∃ cs, codeAdded info d key dataname entryid = some cs ∧
      ∀ ds n, SameMembers conv ds n →
        SameMembers conv (cs ++ ds) (n + if 0 < dataname.length then 1 else 0) := by
  by_cases hname : 0 < dataname.length
  · obtain ⟨depth, hdepth⟩ := codeTypeInfo_same conv (h hname)
    refine ⟨depth, fun d hd => ?_⟩
    obtain ⟨cs, hcs, hsame⟩ := hdepth d hd
    have hobject := SameDocument.object
      (.cons (text "dataclass") (.stdString (info.class_terminated _ (h hname).registered))
        (.cons (text "entry") (.uint entryid) (.one (text "typeinfo") hsame)))
    dsimp only at hcs
    rw [codeAdded, if_pos hname, if_pos hname, hcs]
    refine ⟨_, rfl, fun ds n hds => ?_⟩
    have hmembers := SameMembers.cons key hobject hds
    simp only [List.cons_append, List.nil_append, List.append_assoc] at hmembers ⊢
    exact hmembers
  · refine ⟨0, fun d _ => ⟨[], ?_, fun ds n hds => ?_⟩⟩
    · rw [codeAdded, if_neg hname]
    · rw [if_neg hname]
      exact hds

/-- The part for an entry that is removed, with the members behind it. -/
theorem codeRemoved_same (key : Bytes) {dataname : Bytes} (hname : ¬ 0 < dataname.length)
    (entryid : ℕ) {ds : List Call} {n : ℕ} (hds : SameMembers conv ds n) :
    SameMembers conv (codeRemoved key dataname entryid ++ ds)
      (n + if entryid ≠ entryEnd then 1 else 0) := by
  obtain rfl : dataname = [] := List.length_eq_zero_iff.mp (Nat.eq_zero_of_not_pos hname)
  unfold codeRemoved
  split
  · have hname : SameDocument conv [.stdString []] := .stdString List.not_mem_nil
    exact .cons key (.object (.cons (text "dataclass") hname (.one (text "entry") (.uint entryid))))
      hds
  · exact hds

/-- The information on an entry that was added or removed. -/
theorem codeEntryInfo_same (wName : Bytes) (wEntry : ℕ) (rName : Bytes) (rEntry : ℕ)
    (hw : 0 < wName.length → Plain info wName) (hr : 0 < rName.length → Plain info rName) :
    Composed conv fun d => codeEntryInfo info d wName wEntry rName rEntry := by
  by_cases hadded : 0 < rName.length ∨ 0 < wName.length
  · obtain ⟨depth, hread⟩ := codeAdded_same conv (text "read") rEntry hr
    obtain ⟨depth', hwrite⟩ := codeAdded_same conv (text "write") wEntry hw
    refine ⟨max depth depth', fun d hd => ?_⟩
    obtain ⟨cs, hcs, hsame⟩ := hread d (by omega)
    obtain ⟨ds, hds, hsame'⟩ := hwrite d (by omega)
    have hobject := SameDocument.object (hsame _ _ (hsame' _ _ .nil))
    dsimp only
    rw [codeEntryInfo, if_pos hadded, hcs, hds]
    refine ⟨_, rfl, ?_⟩
    simp only [List.append_nil, Nat.zero_add, List.append_assoc] at hobject ⊢
    exact hobject
  · refine ⟨0, fun d _ => ?_⟩
    dsimp only
    rw [codeEntryInfo, if_neg hadded]
    have hobject := SameDocument.object
      (codeRemoved_same (text "read") (fun h => hadded (.inl h)) rEntry
        (codeRemoved_same (text "write") (fun h => hadded (.inr h)) wEntry
          (SameMembers.nil : SameMembers conv [] 0)))
    refine ⟨_, rfl, ?_⟩
    simp only [List.append_nil, Nat.zero_add, List.append_assoc] at hobject ⊢
    convert hobject using 3
    omega

theorem codeEmpty_same : SameDocument conv codeEmpty := .object .nil

/-- The values of which both encoders write the same. -/
def Any.InBoth : Any → Prop
  | .int .. | .bool _ | .string _ => True
  | .float v => finite32 v
  | .double v => finite64 v
  | .dstring mxsize _ => mxsize ∈ dstringSizes
  | .empty | .char _ | .smartstring _ | .activityContext _ | .enum .. | .xmlNode | .other .. =>
    False

theorem Any.InBoth.coded {a : Any} (h : a.InBoth) : a.Coded := by
  cases a with
  | dstring mxsize s => exact h
  | int signed w v | bool b | string s | float v | double v => trivial
  | empty | char c | smartstring s | activityContext printed | enum name v | xmlNode
  | other name data => exact h.elim

variable (conv) in
theorem Any.InBoth.same {a : Any} (h : a.InBoth) :
    ∃ j, writeAny conv false a = some j ∧ a.msg.json conv = some j := by
  cases a with
  | int signed w v => cases signed <;> exact ⟨_, rfl, rfl⟩
  | bool b | string s => exact ⟨_, rfl, rfl⟩
  | float v => exact ⟨_, if_pos (conv.finite_widen v h), rfl⟩
  | double v => exact ⟨_, if_pos h, rfl⟩
  | dstring mxsize s => exact ⟨_, if_pos (List.mem_cons_of_mem _ h), rfl⟩
  | empty | char c | smartstring s | activityContext printed | enum name v | xmlNode
  | other name data => exact h.elim

/-- The tree of the only element. -/
theorem json_headD : {vs : Msgs} → {js : Jsons} → vs.length = 1 → vs.json conv = some js →
    ∃ j, js = .cons j .nil ∧ vs.headD.json conv = some j
  | .nil, _, hlen, _ => nomatch hlen
  | .cons _ (.cons _ _), _, hlen, _ => nomatch Nat.succ.inj hlen
  | .cons v .nil, js, _, h => by
    rw [Msgs.json, Msgs.json] at h
    cases hv : v.json conv with
    | none =>
      rw [hv] at h
      cases h
    | some j =>
      rw [hv] at h
      exact ⟨j, (Option.some.inj h).symm, hv⟩

/-- No member is a map. -/
abbrev Obj.NoMaps (v : Obj) : Prop := v.Maps fun _ => False

abbrev Elems.NoMaps (es : Elems) : Prop := es.Maps fun _ => False

mutual

/-- Objects without maps have the same tree in both. -/
theorem dcoToJson_same {reg : Registry} : (v : Obj) → (ss : List MemberSpec) → v.Fits reg ss →
    v.All Any.InBoth Any.InBoth → v.NoMaps →
    ∃ ms, dcoToJson conv false v = some ms ∧ v.msgPairs.json conv = some ms
  | .nil, _, _, _, _ => ⟨.nil, rfl, rfl⟩
  | .member _ _ _, [], hfits, _, _ => by cases hfits
  | .member t es ms, s :: ss, hfits, hall, hmaps => by
    obtain ⟨rfl, hcounts, hes, hms⟩ := hfits
    obtain ⟨hmap, hmapsEs, hmapsMs⟩ := hmaps
    obtain ⟨js, hjs, hjsMsg⟩ := elemsToJson_same es t hes hall.1 hmap hmapsEs
    obtain ⟨rest, hrest, hrestMsg⟩ := dcoToJson_same ms ss hms hall.2 hmapsMs
    have hne : decide (t.arity = .mapped) = false := decide_eq_false hmap
    rw [dcoToJson, hne, hjs, hrest, Obj.msgPairs, MsgPairs.json, hrestMsg]
    dsimp only
    cases harity : t.arity with
    | mapped => exact absurd harity hmap
    | iterable | fixedIterable =>
      rw [if_neg (by decide), MemberArity.msg, Msg.json, hjsMsg]
      exact ⟨_, rfl, rfl⟩
    | single =>
      unfold MemberSpec.Counts at hcounts
      rw [harity] at hcounts
      rw [if_pos rfl, MemberArity.msg]
      obtain ⟨j, rfl, hj⟩ := json_headD (es.length_msgs.trans hcounts) hjsMsg
      rw [hj]
      exact ⟨_, rfl, rfl⟩

theorem elemsToJson_same {reg : Registry} : (es : Elems) → (s : MemberSpec) → es.Fits reg s →
    es.All Any.InBoth Any.InBoth s.arity → s.arity ≠ .mapped → es.NoMaps →
    ∃ js, elemsToJson conv false false es = some js ∧ es.msgs.json conv = some js
  | .nil, _, _, _, _, _ => ⟨.nil, rfl, rfl⟩
  | .value key val es, s, hfits, hall, hmap, hmaps => by
    obtain ⟨j, hj, hjMsg⟩ := hall.2.1.same conv
    obtain ⟨js, hjs, hjsMsg⟩ := elemsToJson_same es s hfits.2.2 hall.2.2 hmap hmaps
    rw [elemsToJson, hj, hjs, Elems.msgs, Msgs.json, hjMsg, hjsMsg]
    exact ⟨_, rfl, rfl⟩
  | .object key obj es, s, hfits, hall, hmap, hmaps => by
    obtain ⟨-, ⟨c, -, hobj⟩, hes⟩ := hfits
    obtain ⟨ms, hms, hmsMsg⟩ := dcoToJson_same obj _ hobj hall.2.1 hmaps.1
    obtain ⟨js, hjs, hjsMsg⟩ := elemsToJson_same es s hes hall.2.2 hmap hmaps.2
    rw [elemsToJson, hms, hjs, Elems.msgs, Msgs.json, Msg.json, hmsMsg, hjsMsg]
    exact ⟨_, rfl, rfl⟩

end

theorem text_tick : cstr (text "tick") = text "tick" := cstr_of_not_mem (by decide)

theorem text_data : cstr (text "data") = text "data" := cstr_of_not_mem (by decide)

/-- The document for data, in MessagePack. -/
def dataMsg (tick : ℕ) (v : Obj) : Msg :=
  .map (.cons (.str (text "tick")) (.int tick) (.cons (.str (text "data")) v.msg .nil))

/-- Data is a document when all values are in the table. -/
theorem codeData_tokens {reg : Registry} {c : Bytes} {v : Obj} (tick : ℕ)
    (hfits : v.Fits reg (reg.members c)) (hall : v.All Any.Coded Any.Coded) :
    msgTokens (codeData tick v) = (dataMsg tick v).tokens := by
  have hdata : msgTokens (codeData tick v) =
      .map 2 :: .str (cstr (text "tick")) :: .int tick :: .str (cstr (text "data")) ::
        (codeDco v ++ []) := rfl
  rw [hdata, text_tick, text_data, codeDco_eq hfits hall]
  rfl

theorem codeData_same {reg : Registry} {c : Bytes} {v : Obj} (tick : ℕ)
    (hfits : v.Fits reg (reg.members c)) (hall : v.All Any.InBoth Any.InBoth) (hmaps : v.NoMaps) :
    SameDocument conv (codeData tick v) := by
  have hcoded : v.All Any.Coded Any.Coded := Obj.All.mono (fun _ => Any.InBoth.coded) v hall
  obtain ⟨ms, hms, hmsMsg⟩ : ∃ ms, dcoToJson conv false v = some ms ∧ _ :=
    dcoToJson_same v _ hfits hall hmaps
  have hdco : SameDocument conv [.dco v] := by
    refine .leaf (v := v.msg) (j := .object ms) (codeDco_eq hfits hcoded) ?_ ?_
    · rw [Call.events, hms]
      rfl
    · rw [Obj.msg, Msg.json, hmsMsg]
      rfl
  exact .object (.cons (text "tick") (.uint tick) (.one (text "data") hdco))

end

/-- The two encoders write the same document for a configuration without endpoints for writing
that were set beforehand, for an entry that is added or removed, for data without maps and
characters, and for no data. With maps, data is a document in MessagePack as well. -/
theorem messages_same (conv : FloatConversion) (info : ClassInfo) :
    (∀ cfg : Configuration, cfg.presetwriters = [] → cfg.Classes info.Plain →
      ClassInfo.Composed conv fun d => codeConfiguration info d cfg) ∧
    (∀ (wName : Bytes) (wEntry : ℕ) (rName : Bytes) (rEntry : ℕ),
      (0 < wName.length → info.Plain wName) → (0 < rName.length → info.Plain rName) →
      ClassInfo.Composed conv fun d => codeEntryInfo info d wName wEntry rName rEntry) ∧
    (∀ (c : Bytes) (v : Obj) (tick : ℕ), v.Fits info.toRegistry (info.members c) →
      v.All Any.Coded Any.Coded → ∃ doc : Msg, msgTokens (codeData tick v) = doc.tokens) ∧
    (∀ (c : Bytes) (v : Obj) (tick : ℕ), v.Fits info.toRegistry (info.members c) →
      v.All Any.InBoth Any.InBoth → v.NoMaps → SameDocument conv (codeData tick v)) ∧
    SameDocument conv codeEmpty :=
  ⟨fun _ => codeConfiguration_same, codeEntryInfo_same,
    fun _ _ tick hfits hall => ⟨_, codeData_tokens tick hfits hall⟩,
    fun _ _ tick hfits hall hmaps => codeData_same tick hfits hall hmaps, codeEmpty_same⟩

/-! ### Samples -/

/-- Points, and paths of points. -/
def pathInfo : ClassInfo where
  members c :=
    if c = text "Path" then
      [{ name := text "points", arity := .iterable, content := .nested (text "Point") }]
    else if c = text "Point" then
      [{ name := text "x", arity := .single, content := .direct .double }]
    else []
  nodup c := by
    split
    · decide
    · split <;> decide
  terminated c := by
    split
    · decide
    · split <;> decide
  registered c := c = text "Path" ∨ c = text "Point"
  typeName _ := text "double"
  class_terminated c h := by
    obtain rfl | rfl := of_decide_eq_true h
    · decide
    · decide

theorem pathInfo_plain : pathInfo.Plain (text "Path") := by
  refine .intro (by decide) (by decide) fun s hs _ => ?_
  obtain rfl := List.mem_singleton.mp hs
  refine .intro (by decide) (by decide) fun s hs h => ?_
  obtain rfl := List.mem_singleton.mp hs
  cases h

def samplePath : Obj :=
  .member { name := text "points", arity := .iterable, content := .nested (text "Point") }
    (.object .empty
      (.member { name := text "x", arity := .single, content := .direct .double }
        (.value .empty (.double 0x3ff0000000000000) .nil) .nil) .nil) .nil

theorem messages_samplePath :
    ClassInfo.Composed normalFloats (fun d => codeEntryInfo pathInfo d (text "Path") 1 [] entryEnd) ∧
      SameDocument normalFloats (codeData 100 samplePath) := by
  obtain ⟨-, hentry, -, hdata, -⟩ := messages_same normalFloats pathInfo
  refine ⟨hentry _ _ _ _ (fun _ => pathInfo_plain) (nofun), hdata (text "Path") _ _ ?_ ?_ ?_⟩
  · exact ⟨rfl, trivial, ⟨rfl, ⟨text "Point", rfl, rfl, rfl, ⟨rfl, ⟨rfl, trivial⟩, trivial⟩,
      trivial⟩, trivial⟩, trivial⟩
  · exact ⟨⟨nofun, ⟨⟨nofun, show finite64 0x3ff0000000000000 by decide, trivial⟩, trivial⟩,
      trivial⟩, trivial⟩
  · exact ⟨nofun, ⟨⟨nofun, trivial, trivial⟩, trivial⟩, trivial⟩

/-- A map is an array of keys and values in JSON. -/
theorem not_messages_same :
    ¬ ∀ (reg : Registry) (c : Bytes) (v : Obj) (tick : ℕ), v.Fits reg (reg.members c) →
      v.All Any.Coded Any.Coded → SameDocument normalFloats (codeData tick v) := by
  intro h
  let spec : MemberSpec := ⟨text "valid", .mapped, 0, .string, .direct .bool⟩
  let reg : Registry := ⟨fun _ => [spec], fun _ => by decide, fun _ => by decide⟩
  let v : Obj := .member spec (.value (.string (text "a")) (.bool true) .nil) .nil
  have hfits : v.Fits reg (reg.members []) :=
    ⟨rfl, trivial, ⟨⟨rfl, trivial⟩, ⟨rfl, trivial⟩, trivial⟩, trivial⟩
  have hall : v.All Any.Coded Any.Coded := ⟨⟨fun _ => trivial, trivial, trivial⟩, trivial⟩
  have htree := (h reg [] v 0 hfits hall).tree
    (j := .object (.cons (text "tick") (.int 0) (.cons (text "data")
      (.object (.cons (text "valid")
        (.array (.cons (pairToJson (.string (text "a")) (.bool true)) .nil)) .nil)) .nil)))
    (codeData_tokens 0 hfits hall) rfl
  exact nomatch Option.some.inj htree

end Dueca.Coding
