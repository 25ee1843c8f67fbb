import Dueca.Connect.Model

/-!
# The replicator's welcome for a new peer

The master packs an `AddChannel` message for each channel it watches, and an `AddEntry`
message for each entry it reads or writes there. When one does not fit in what is left of
the configuration buffer, the buffer is sent and used anew. An entry is then packed again,
an `AddChannel` is not: it is lost, while the entries of its channel are still announced.

What is packed of a message that does not fit is taken off again. So the buffer is given
by the messages in it and its fill level.
-/

namespace Dueca.Inter.Welcome

open Dueca.Connect (TransportClass)

/-! ### Messages -/

/-- `ReplicatorConfig::MessageType` -/
inductive MessageType
  | configureSlave | hookUp | addChannel | addEntry | removeEntry | removeChannel
  | deleteSlave | initialConfComplete | undefined
  deriving DecidableEq, Repr

/-- How many entries a token accepts. -/
inductive EntryArity | onlyOneEntry | zeroOrOneEntries | zeroOrMoreEntries | oneOrMoreEntries
  deriving DecidableEq, Repr

inductive PackingMode | mixedPacking | onlyFullPacking
  deriving DecidableEq, Repr

structure ReplicatorConfig where
  mtype : MessageType := .undefined
  slaveId : UInt16 := 0
  channelId : UInt16 := 0
  entryId : UInt16 := 0
  tmpEntryId : UInt16 := 0
  name : String := ""
  timeAspect : EntryTimeAspect := .anyTimeAspect
  arity : EntryArity := .zeroOrMoreEntries
  packmode : PackingMode := .onlyFullPacking
  tclass : TransportClass := .regular
  dataclass : List String := []
  dataMagic : List UInt32 := []
  deriving DecidableEq, Repr

/-- What a reader or writer of an entry knows of it. -/
structure EntryHandler where
  label : String
  dataClass : String
  entryTimeAspect : EntryTimeAspect
  entryArity : EntryArity
  packingMode : PackingMode
  transportClass : TransportClass
  deriving DecidableEq, Repr

/-- A watched channel. The readers follow the entries made here, with the id they have for
the replicator; the writers those of other nodes, by that id and with the node. -/
structure WatchedChannel where
  channelname : String
  readers : List (UInt16 × EntryHandler)
  writers : List (UInt16 × UInt16 × EntryHandler)
  deriving DecidableEq, Repr

/-- `entry_end` -/
def entryEnd : UInt16 := 0xffff

/-- The registered classes, with their magic numbers. -/
structure Classes extends DataClassRegistry where
  getMagic : String → UInt32

/-- `addDataClass`: a class and its ancestors. -/
def ReplicatorConfig.addDataClass (reg : Classes) (cf : ReplicatorConfig) (cname : String) :
    ReplicatorConfig :=
  { cf with
    dataclass := cf.dataclass ++ reg.lineage cname
    dataMagic := cf.dataMagic ++ (reg.lineage cname).map reg.getMagic }

/-- The message for a channel. -/
def addChannel (c : UInt16 × WatchedChannel) : ReplicatorConfig :=
  { mtype := .addChannel, channelId := c.1, name := c.2.channelname }

/-- The message for an entry. -/
def addEntry (reg : Classes) (origin channel id : UInt16) (e : EntryHandler) : ReplicatorConfig :=
  ReplicatorConfig.addDataClass reg
    { mtype := .addEntry, slaveId := origin, channelId := channel, entryId := id
      tmpEntryId := entryEnd, name := e.label, timeAspect := e.entryTimeAspect
      arity := e.entryArity, packmode := e.packingMode, tclass := e.transportClass }
    e.dataClass

/-- The messages for the entries of a channel, in the order in which they are packed. -/
def addEntries (reg : Classes) (c : UInt16 × WatchedChannel) : List ReplicatorConfig :=
  c.2.readers.map (fun r => addEntry reg 0 c.1 r.1 r.2) ++
    c.2.writers.map fun w => addEntry reg w.2.1 c.1 w.1 w.2.2

/-- The bytes of a string, with its length in front. -/
def vstringSize (s : String) : ℕ := 4 + s.utf8ByteSize

/-- The bytes that `packData` writes for the mark in front of a message and the message. -/
def ReplicatorConfig.size (cf : ReplicatorConfig) : ℕ :=
  1 + 1 + 2 +
    match cf.mtype with
    | .addChannel => vstringSize cf.name + 2
    | .addEntry => 2 + 2 + 2 + vstringSize cf.name + 1 + 1 + 1 + 1 +
        (4 + (cf.dataclass.map vstringSize).sum) + (4 + 4 * cf.dataMagic.length)
    | .removeEntry => 2 + 2
    | .removeChannel => 2
    | _ => 0

/-! ### Packing -/

/-- The configuration buffer, with the messages packed since it was last sent, and those
sent. -/
structure ConfigStore where
  capacity : ℕ
  fill : ℕ
  packed : List ReplicatorConfig := []
  sent : List ReplicatorConfig := []
  deriving DecidableEq, Repr

/-- Pack a message, unless it does not fit. -/
def ConfigStore.pack (s : ConfigStore) (cf : ReplicatorConfig) :
    Option ConfigStore :=
  if s.fill + cf.size ≤ s.capacity then
    some { s with fill := s.fill + cf.size, packed := s.packed ++ [cf] }
  else none

/-- Send what is in the store, and empty it; the exception for an empty store is not
caught. -/
def ConfigStore.flushStore (s : ConfigStore) : Option ConfigStore :=
  if s.fill = 0 then none else some { s with fill := 0, packed := [], sent := s.sent ++ s.packed }

/-- The body of the loop over the channels up to its entries: a message that does not fit
is not packed again. -/
def packChannel (s : ConfigStore) (cf : ReplicatorConfig) :
    Option ConfigStore :=
  match s.pack cf with
  | some t => some t
  | none => s.flushStore

/-- The turns of the loop over the entries for one of them: it is packed again when the
store has been sent. The flush after a second failure finds an empty store. -/
def packEntry (s : ConfigStore) (cf : ReplicatorConfig) :
    Option ConfigStore :=
  match s.pack cf with
  | some t => some t
  | none =>
    match s.flushStore with
    | none => none
    | some t =>
      match t.pack cf with
      | some u => some u
      | none => t.flushStore

/-- A channel and its entries. -/
def welcomeChannel (reg : Classes) (s : ConfigStore)
    (c : UInt16 × WatchedChannel) : Option ConfigStore := do
  let s ← packChannel s (addChannel c)
  (addEntries reg c).foldlM packEntry s

/-- `ChannelReplicatorMaster::clientWelcomeConfig`, from a store in which the general
information for the peer has been packed. -/
def clientWelcomeConfig (reg : Classes)
    (watched : List (UInt16 × WatchedChannel)) (s : ConfigStore) : Option ConfigStore := do
  let s ← watched.foldlM (welcomeChannel reg) s
  s.flushStore

/-! ### The statement -/

/-- One `AddChannel` for each channel and one `AddEntry` for each entry, each behind the
`AddChannel` of its channel. -/
structure Complete (reg : Classes) (watched : List (UInt16 × WatchedChannel))
    (received : List ReplicatorConfig) : Prop where
  channels : (received.filter (·.mtype = .addChannel)).Perm (watched.map addChannel)
  entries : (received.filter (·.mtype = .addEntry)).Perm (watched.flatMap (addEntries reg))
  inOrder : ∀ before cf after, received = before ++ cf :: after → cf.mtype = .addEntry →
    ∃ c ∈ before, c.mtype = .addChannel ∧ c.channelId = cf.channelId

/-- The fill level after some entries, each in the next buffer if it does not fit. -/
def fillAfter (capacity : ℕ) : ℕ → List ReplicatorConfig → ℕ
  | n, [] => n
  | n, cf :: cfs =>
    fillAfter capacity (if n + cf.size ≤ capacity then n + cf.size else cf.size) cfs

/-- The `AddChannel` of each channel fits in the room that the entries before it leave. -/
def ChannelsFit (reg : Classes) (capacity : ℕ) :
    ℕ → List (UInt16 × WatchedChannel) → Prop
  | _, [] => True
  | n, c :: cs => n + (addChannel c).size ≤ capacity ∧
      ChannelsFit reg capacity
        (fillAfter capacity (n + (addChannel c).size) (addEntries reg c)) cs

/-- Every message fits in an empty store. -/
def Sized (reg : Classes) (capacity : ℕ) (watched : List (UInt16 × WatchedChannel)) : Prop :=
  ∀ c ∈ watched, ∀ cf ∈ addChannel c :: addEntries reg c, cf.size ≤ capacity

/-! ### What arrives -/

variable {reg : Classes} {c : UInt16 × WatchedChannel} {watched cs : List (UInt16 × WatchedChannel)}
variable {s t : ConfigStore} {cf : ReplicatorConfig} {cfs before after : List ReplicatorConfig}
variable {capacity n : ℕ}

theorem ReplicatorConfig.size_pos (cf : ReplicatorConfig) : 0 < cf.size := by
  unfold ReplicatorConfig.size
  omega

/-- The messages that have been packed. -/
def ConfigStore.all (s : ConfigStore) : List ReplicatorConfig := s.sent ++ s.packed

/-- What is packed for the channels: an `AddChannel` that does not fit is left out. -/
def arrives (reg : Classes) (capacity : ℕ) :
    ℕ → List (UInt16 × WatchedChannel) → List ReplicatorConfig
  | _, [] => []
  | n, c :: cs =>
    if n + (addChannel c).size ≤ capacity then
      addChannel c :: addEntries reg c ++ arrives reg capacity
        (fillAfter capacity (n + (addChannel c).size) (addEntries reg c)) cs
    else addEntries reg c ++ arrives reg capacity (fillAfter capacity 0 (addEntries reg c)) cs

theorem pack_of_fits (h : s.fill + cf.size ≤ s.capacity) :
    s.pack cf = some { s with fill := s.fill + cf.size, packed := s.packed ++ [cf] } := if_pos h

theorem pack_of_not_fits (h : ¬ s.fill + cf.size ≤ s.capacity) : s.pack cf = none := if_neg h

/-- A message that fits in an empty store is not refused by one. -/
theorem flushStore_of_not_fits (hcf : cf.size ≤ s.capacity) (h : ¬ s.fill + cf.size ≤ s.capacity) :
    s.flushStore = some { s with fill := 0, packed := [], sent := s.sent ++ s.packed } :=
  if_neg (by omega)

theorem packChannel_spec (hcf : cf.size ≤ s.capacity) :
    ∃ t, packChannel s cf = some t ∧ t.capacity = s.capacity ∧
      t.all = s.all ++ (if s.fill + cf.size ≤ s.capacity then [cf] else []) ∧
      t.fill = if s.fill + cf.size ≤ s.capacity then s.fill + cf.size else 0 := by
  by_cases h : s.fill + cf.size ≤ s.capacity
  · rw [packChannel, pack_of_fits h, if_pos h, if_pos h]
    exact ⟨_, rfl, rfl, (List.append_assoc _ _ _).symm, rfl⟩
  · rw [packChannel, pack_of_not_fits h, flushStore_of_not_fits hcf h, if_neg h, if_neg h]
    exact ⟨_, rfl, rfl, rfl, rfl⟩

theorem packEntry_spec (hcf : cf.size ≤ s.capacity) :
    ∃ t, packEntry s cf = some t ∧ t.capacity = s.capacity ∧ t.all = s.all ++ [cf] ∧
      t.fill = if s.fill + cf.size ≤ s.capacity then s.fill + cf.size else cf.size := by
  by_cases h : s.fill + cf.size ≤ s.capacity
  · rw [packEntry, pack_of_fits h, if_pos h]
    exact ⟨_, rfl, rfl, (List.append_assoc _ _ _).symm, rfl⟩
  · -- in the store that has been emptied there is room
    have hroom : 0 + cf.size ≤ s.capacity := by omega
    rw [packEntry, pack_of_not_fits h, flushStore_of_not_fits hcf h, if_neg h]
    refine ⟨{ s with fill := 0 + cf.size, packed := [cf], sent := s.sent ++ s.packed }, ?_, rfl,
      rfl, Nat.zero_add _⟩
    simp only [ConfigStore.pack, if_pos hroom, List.nil_append]

theorem packEntries_spec (hcfs : ∀ cf ∈ cfs, cf.size ≤ s.capacity) :
    ∃ t, cfs.foldlM packEntry s = some t ∧ t.capacity = s.capacity ∧ t.all = s.all ++ cfs ∧
      t.fill = fillAfter s.capacity s.fill cfs := by
  induction cfs generalizing s with
  | nil => exact ⟨s, rfl, rfl, (List.append_nil _).symm, rfl⟩
  | cons cf cfs ih =>
    obtain ⟨t, ht, hcap, hall, hfill⟩ := packEntry_spec (hcfs cf List.mem_cons_self)
    obtain ⟨u, hu, hcap', hall', hfill'⟩ :=
      ih (s := t) fun m hm => hcap ▸ hcfs m (List.mem_cons_of_mem cf hm)
    refine ⟨u, ?_, hcap'.trans hcap, ?_, ?_⟩
    · rw [List.foldlM_cons, ht]
      exact hu
    · rw [hall', hall, List.append_assoc, List.singleton_append]
    · rw [hfill', hcap, hfill]
      rfl

theorem fillAfter_pos (h : 0 < n) : 0 < fillAfter capacity n cfs := by
  induction cfs generalizing n with
  | nil => exact h
  | cons cf cfs ih =>
    have := cf.size_pos
    apply ih
    split <;> omega

theorem welcomeChannels_spec (hsized : Sized reg s.capacity watched) :
    ∃ t, watched.foldlM (welcomeChannel reg) s = some t ∧
      t.all = s.all ++ arrives reg s.capacity s.fill watched ∧
      (ChannelsFit reg s.capacity s.fill watched → 0 < s.fill → 0 < t.fill) := by
  induction watched generalizing s with
  | nil => exact ⟨s, rfl, (List.append_nil _).symm, fun _ h => h⟩
  | cons c cs ih =>
    have hc := hsized c List.mem_cons_self
    obtain ⟨t, ht, hcap, hall, hfill⟩ := packChannel_spec (hc _ List.mem_cons_self)
    obtain ⟨u, hu, hcap', hall', hfill'⟩ :=
      packEntries_spec (s := t) fun m hm => hcap ▸ hc m (List.mem_cons_of_mem _ hm)
    obtain ⟨v, hv, hall'', hpos⟩ := ih (s := u) fun d hd m hm =>
      (hcap'.trans hcap) ▸ hsized d (List.mem_cons_of_mem c hd) m hm
    refine ⟨v, ?_, ?_, ?_⟩
    · have hone : welcomeChannel reg s c = some u := by
        rw [welcomeChannel, ht]
        exact hu
      rw [List.foldlM_cons, hone]
      exact hv
    · rw [hall'', hall', hall, hfill', hfill, hcap', hcap, arrives]
      split <;> simp
    · rintro ⟨hfits, hrest⟩ -
      have hpos' : 0 < t.fill := by
        have := (addChannel c).size_pos
        rw [hfill, if_pos hfits]
        omega
      refine hpos ?_ (hfill' ▸ fillAfter_pos hpos')
      rwa [hfill', hfill, if_pos hfits, hcap', hcap]

/-! ### Completeness -/

theorem mtype_addEntries (h : cf ∈ addEntries reg c) : cf.mtype = .addEntry ∧ cf.channelId = c.1 := by
  obtain h | h := List.mem_append.mp h
  · obtain ⟨r, -, rfl⟩ := List.mem_map.mp h
    exact ⟨rfl, rfl⟩
  · obtain ⟨w, -, rfl⟩ := List.mem_map.mp h
    exact ⟨rfl, rfl⟩

/-- As many channels are announced as there are only when all messages for them fit. -/
theorem channelsFit_of_length :
    (arrives reg capacity n watched).countP (·.mtype = .addChannel) ≤ watched.length ∧
      ((arrives reg capacity n watched).countP (·.mtype = .addChannel) = watched.length →
        ChannelsFit reg capacity n watched) := by
  induction watched generalizing n with
  | nil => exact ⟨Nat.le_refl 0, fun _ => trivial⟩
  | cons c cs ih =>
    have hnone : (addEntries reg c).countP (·.mtype = .addChannel) = 0 := by
      rw [List.countP_eq_zero]
      intro cf hcf
      rw [(mtype_addEntries hcf).1]
      decide
    rw [arrives]
    split
    · rename_i hfits
      obtain ⟨hle, heq⟩ := ih (n := fillAfter capacity (n + (addChannel c).size) (addEntries reg c))
      have hone : (addChannel c :: addEntries reg c).countP (·.mtype = .addChannel) = 1 := by
        rw [List.countP_cons, hnone]
        rfl
      rw [List.countP_append, hone, List.length_cons]
      exact ⟨by omega, fun h => ⟨hfits, heq (by omega)⟩⟩
    · obtain ⟨hle, -⟩ := ih (n := fillAfter capacity 0 (addEntries reg c))
      rw [List.countP_append, hnone, List.length_cons]
      exact ⟨by omega, fun h => absurd h (by omega)⟩

theorem arrives_of_channelsFit (h : ChannelsFit reg capacity n watched) :
    arrives reg capacity n watched = watched.flatMap fun c => addChannel c :: addEntries reg c := by
  induction watched generalizing n with
  | nil => rfl
  | cons c cs ih => rw [arrives, if_pos h.1, ih h.2, List.flatMap_cons]

theorem inOrder_flatMap (h : (watched.flatMap fun c => addChannel c :: addEntries reg c) =
      before ++ cf :: after) (hcf : cf.mtype = .addEntry) :
    ∃ c ∈ before, c.mtype = .addChannel ∧ c.channelId = cf.channelId := by
  induction watched generalizing before with
  | nil => exact absurd h.symm (List.append_ne_nil_of_right_ne_nil _ (List.cons_ne_nil _ _))
  | cons c cs ih =>
    rw [List.flatMap_cons] at h
    obtain ⟨as, rfl, hrest⟩ | ⟨bs, hblock, hrest⟩ := List.append_eq_append_iff.mp h
    · obtain ⟨d, hd, hmatch⟩ := ih hrest
      exact ⟨d, List.mem_append_right _ hd, hmatch⟩
    · -- the block of a channel starts with its announcement
      cases bs with
      | nil =>
        obtain ⟨d, hd, -⟩ : ∃ c ∈ ([] : List ReplicatorConfig), _ := ih hrest.symm
        cases hd
      | cons b bs =>
        obtain ⟨rfl, -⟩ := List.cons.inj hrest
        cases before with
        | nil =>
          obtain ⟨rfl, -⟩ := List.cons.inj hblock
          cases hcf
        | cons a before =>
          obtain ⟨rfl, htail⟩ := List.cons.inj hblock
          have hmem : cf ∈ addEntries reg c := htail ▸ List.mem_append_right _ List.mem_cons_self
          exact ⟨addChannel c, List.mem_cons_self, rfl, (mtype_addEntries hmem).2.symm⟩

theorem complete_of_channelsFit (h : ChannelsFit reg capacity n watched) :
    Complete reg watched (arrives reg capacity n watched) := by
  have hchannels (c : UInt16 × WatchedChannel) :
      (addChannel c :: addEntries reg c).filter (·.mtype = .addChannel) = [addChannel c] := by
    rw [List.filter_cons_of_pos rfl, List.filter_eq_nil_iff.mpr]
    intro cf hcf
    rw [(mtype_addEntries hcf).1]
    decide
  have hentries (c : UInt16 × WatchedChannel) :
      (addChannel c :: addEntries reg c).filter (·.mtype = .addEntry) = addEntries reg c := by
    rw [List.filter_cons_of_neg (by simp [addChannel]), List.filter_eq_self]
    exact fun cf hcf => decide_eq_true (mtype_addEntries hcf).1
  rw [arrives_of_channelsFit h]
  refine ⟨?_, ?_, fun before cf after heq hcf => inOrder_flatMap heq hcf⟩
  · rw [List.filter_flatMap]
    simp only [hchannels]
    rw [List.map_eq_flatMap]
  · rw [List.filter_flatMap]
    simp only [hentries, List.Perm.refl]

/-- In a store that holds the general information for the peer, and takes any single
message: the peer gets a complete configuration if and only if each `AddChannel` meets
room enough. -/
theorem welcome_iff (reg : Classes) (watched : List (UInt16 × WatchedChannel)) (capacity n : ℕ)
    (hn : 0 < n) (hsized : Sized reg capacity watched) :
    (∃ t, clientWelcomeConfig reg watched { capacity, fill := n } = some t ∧
      Complete reg watched t.sent) ↔ ChannelsFit reg capacity n watched := by
  obtain ⟨t, ht, hall, hpos⟩ := welcomeChannels_spec (s := { capacity, fill := n }) hsized
  have hrun : clientWelcomeConfig reg watched { capacity, fill := n } = t.flushStore := by
    rw [clientWelcomeConfig, ht]
    rfl
  have hnone : ConfigStore.all { capacity, fill := n } = [] := rfl
  rw [hnone, List.nil_append] at hall
  have hsent {u : ConfigStore} (hu : t.flushStore = some u) :
      u.sent = arrives reg capacity n watched := by
    unfold ConfigStore.flushStore at hu
    split at hu
    · cases hu
    · cases hu
      exact hall
  rw [hrun]
  constructor
  · rintro ⟨u, hu, hcomplete⟩
    have hlength := hcomplete.channels.length_eq
    rw [hsent hu, ← List.countP_eq_length_filter, List.length_map] at hlength
    exact channelsFit_of_length.2 hlength
  · intro hfit
    have hsome : t.flushStore =
        some { t with fill := 0, packed := [], sent := t.sent ++ t.packed } :=
      if_neg (Nat.ne_of_gt (hpos hfit hn))
    exact ⟨_, hsome, hsent hsome ▸ complete_of_channelsFit hfit⟩

instance (reg : Classes) (capacity : ℕ) (watched : List (UInt16 × WatchedChannel)) :
    Decidable (Sized reg capacity watched) :=
  inferInstanceAs (Decidable (∀ c ∈ watched, ∀ cf ∈ _, _ ≤ _))

instance decidableChannelsFit (reg : Classes) (capacity : ℕ) :
    ∀ n watched, Decidable (ChannelsFit reg capacity n watched)
  | _, [] => isTrue trivial
  | n, c :: cs =>
    have := decidableChannelsFit reg capacity
      (fillAfter capacity (n + (addChannel c).size) (addEntries reg c)) cs
    inferInstanceAs (Decidable (_ ∧ _))

/-- Classes without parents. -/
def flatClasses : Classes := { flatRegistry with getMagic := fun _ => 0x1234 }

def someEntry (label : String) : EntryHandler where
  label := label
  dataClass := "Data"
  entryTimeAspect := .continuous
  entryArity := .zeroOrMoreEntries
  packingMode := .mixedPacking
  transportClass := .regular

/-- Two channels, the first with two entries and the second with one. -/
def twoChannels : List (UInt16 × WatchedChannel) :=
  [(1, ⟨"A://d", [(0, someEntry "a"), (1, someEntry "b")], []⟩),
    (2, ⟨"B://d", [], [(0, 3, someEntry "c")]⟩)]

/-- In a buffer of 128 bytes the second entry goes in the next buffer, and the second channel
and its entry come behind it. -/
theorem welcome_twoChannels :
    ∃ t, clientWelcomeConfig flatClasses twoChannels { capacity := 128, fill := 50 } = some t ∧
      Complete flatClasses twoChannels t.sent :=
  (welcome_iff flatClasses twoChannels 128 50 (by decide) (by decide +kernel)).mpr
    (by decide +kernel)

/-- When the first buffer is full before the second channel, that is not announced. -/
theorem not_welcome_full_buffer :
    ¬ ∀ (reg : Classes) (watched : List (UInt16 × WatchedChannel)) (capacity n : ℕ), 0 < n →
      Sized reg capacity watched →
      ∃ t, clientWelcomeConfig reg watched { capacity, fill := n } = some t ∧
        Complete reg watched t.sent := by
  intro hall
  obtain ⟨t, ht, hcomplete⟩ :=
    hall flatClasses twoChannels 144 50 (by decide) (by decide +kernel)
  have htest : (clientWelcomeConfig flatClasses twoChannels { capacity := 144, fill := 50 }).all
      (fun t => t.sent.countP (·.mtype = .addChannel) = 1) = true := by decide +kernel
  rw [ht] at htest
  have hone : t.sent.countP (·.mtype = .addChannel) = 1 := of_decide_eq_true htest
  have htwo := hcomplete.channels.length_eq
  rw [← List.countP_eq_length_filter, hone] at htwo
  cases htwo

end Dueca.Inter.Welcome
