import Dueca.Channel.Messages
import Dueca.Lib.Run

/-!
# A channel end

`UnifiedChannel` is one end of a channel: the entries it holds, its writing and
reading clients, the links between clients and entries, and the list of
configuration changes through which clients hear of new and deleted entries.
`updateConfiguration` processes the commands of the master.

Pointers are numbers: change records and entries live in heaps, are never given
an address twice, and a read client is named by its handle. Of an entry's data
only the access counts matter here, since cleaning asks for nothing else; reading
and writing may change them at any time (`Input.data`). An end stops with a
`Fault` where the source fails an assertion or follows a null pointer; `endless`
stands for a loop that does not end.
-/

namespace Dueca.End

open Dueca.Lib

/-- Where an end stops. -/
inductive Fault | assertion | nullPointer | endless
  deriving DecidableEq, Repr

/-! ### Configuration changes -/

/-- Configuration events for readers. -/
inductive ConfigEvent | newEntry | deletedEntry | sentinel
  deriving DecidableEq, Repr

/-- What a change record says: an event and the entry it is about. -/
structure Change where
  changetype : ConfigEvent := .sentinel
  entry : Option ℕ := none
  deriving DecidableEq, Repr

/-- A record in the list of configuration changes; `tocheck` is the number of
readers that have not handled it. -/
structure EntryConfigurationChange extends Change where
  tocheck : ℕ := 0
  next : Option ℕ := none
  deriving DecidableEq, Repr

/-- The change records of an end, with `entry_config_changes` and
`latest_entry_config_change`. -/
structure ChangeList where
  record : ℕ → EntryConfigurationChange := fun _ => {}
  allocated : ℕ := 1
  first : ℕ := 0
  latest : ℕ := 0

namespace ChangeList

/-- Write to a record. -/
def modify (cl : ChangeList) (p : ℕ) (f : EntryConfigurationChange → EntryConfigurationChange) :
    ChangeList :=
  { cl with record := Function.update cl.record p (f (cl.record p)) }

/-- Count one reader off; the counter is unsigned. -/
def countOff (r : EntryConfigurationChange) : EntryConfigurationChange :=
  { r with tocheck := if r.tocheck = 0 then 2 ^ 32 - 1 else r.tocheck - 1 }

/-- `EntryConfigurationChange::markHandled`: count one reader off, and give the
next record. -/
def markHandled (cl : ChangeList) (p : ℕ) : Except Fault (ChangeList × ℕ) :=
  match (cl.record p).next with
  | none => .error .nullPointer
  | some n => .ok (cl.modify p countOff, n)

/-- `EntryConfigurationChange::insert`: put a record behind another one. -/
def insert (cl : ChangeList) (p toinsert : ℕ) : ChangeList :=
  (cl.modify toinsert fun r => { r with next := (cl.record p).next }).modify p
    fun r => { r with next := some toinsert }

/-- Move the first record behind the latest, to be used again. -/
def recycle (cl : ChangeList) : Except Fault ChangeList :=
  match (cl.record cl.first).next with
  | none => .error .nullPointer
  | some nxt => .ok { cl.insert cl.latest cl.first with first := nxt }

/-- The loop of `recycleConfigChanges`. -/
def recycleLoop : ℕ → ChangeList → Except Fault ChangeList
  | 0, _ => .error .endless
  | n + 1, cl =>
    if cl.first ≠ cl.latest ∧ (cl.record cl.first).changetype ≠ .deletedEntry ∧
        (cl.record cl.first).tocheck = 0 then
      cl.recycle.bind (recycleLoop n)
    else .ok cl

/-- `recycleConfigChanges`: recycle handled changes up to the first deletion. -/
def recycleConfigChanges (cl : ChangeList) : Except Fault ChangeList :=
  recycleLoop (cl.allocated + 1) cl

/-- Make sure that there is a record behind the latest. -/
def reserve (cl : ChangeList) : ChangeList :=
  if (cl.record cl.latest).next = none then
    { cl with
      record := Function.update (Function.update cl.record cl.allocated {}) cl.latest
        { cl.record cl.latest with next := some cl.allocated }
      allocated := cl.allocated + 1 }
  else cl

/-- Write a change in the latest record, for `nreaders` clients, and step to the
record behind it. -/
def publish (cl : ChangeList) (change : Change) (nreaders : ℕ) : Except Fault ChangeList :=
  let cl' := cl.reserve
  match (cl'.record cl'.latest).next with
  | none => .error .nullPointer
  | some nxt => .ok { cl'.modify cl'.latest (fun r =>
      { r with toChange := change, tocheck := nreaders }) with latest := nxt }

end ChangeList

/-! ### Entries and read clients -/

/-- The part of an entry that the configuration of an end looks at. -/
structure UChannelEntry where
  entryId : ℕ := 0xffff
  creationId : ℕ
  dataclassname : String
  eventtype : Bool
  label : String
  /-- The entry has a writer at this end. -/
  isLocal : Bool
  /-- The data classes under which the entry is linked. -/
  dataclasslink : List String := []
  /-- The access counts of the data points, from `cleanup` on; empty when clean. -/
  data : List ℕ
  deriving DecidableEq, Repr

/-- The access counts of an entry at its construction: the `cleanup` point and a
sentinel, which a saveup latches. -/
def initialData (saveup : Bool) : List ℕ := [1, if saveup then 2 else 1]

/-- `UChannelEntry::cleanAllData`: delete the data points that nobody accesses, up
to the first one in use, and report whether all are gone. -/
def UChannelEntry.cleanAllData (e : UChannelEntry) : UChannelEntry × Bool :=
  let left := e.data.dropWhile (· == 1)
  ({ e with data := left }, left.isEmpty)

/-- A link from a read client to an entry. -/
structure UCEntryClientLink where
  entry : ℕ
  sequential : Bool
  deriving DecidableEq, Repr

/-- What a read token asks for. -/
structure ReadSpec where
  dataclassname : String
  entrylabel : String := ""
  requestedEntry : ℕ
  readingMode : ReadingMode := .readAllData
  timeAspect : EntryTimeAspect := .anyTimeAspect
  callback : Bool := false
  deriving DecidableEq, Repr

/-- The test of `addReadToken` on the entries it finds. -/
def ReadSpec.entrymatch (spec : ReadSpec) (e : UChannelEntry) : Bool :=
  (spec.requestedEntry == entryAny && (spec.entrylabel == "" || e.label == spec.entrylabel)) ||
    (spec.requestedEntry == entryBylabel && e.label == spec.entrylabel) ||
    spec.requestedEntry == e.entryId

/-- A read client. `classLead` is its list of links; `entry` is the selected one,
named by the entry it leads to. -/
structure UCClientHandle extends ReadSpec where
  handle : ℕ
  clientCreationId : ℕ
  configChange : ℕ
  classLead : List UCEntryClientLink := []
  entry : Option ℕ := none
  deriving DecidableEq, Repr

namespace UCClientHandle

/-- Whether the client is linked to the entry. -/
def isLinked (c : UCClientHandle) (e : ℕ) : Bool := c.classLead.any (·.entry == e)

/-- `linkReadClientToEntry`. -/
def linkReadClientToEntry (obj : ℕ → UChannelEntry) (c : UCClientHandle) (e : ℕ) :
    Except Fault UCClientHandle :=
  if c.isLinked e then .error .assertion
  else .ok { c with
    classLead := ⟨e, isSequentialRead c.readingMode (obj e).eventtype⟩ :: c.classLead
    entry := if c.entry = none then some e else c.entry }

/-- `detachReadClientFromEntry`. The search leaves a null pointer when there is no
such link, and that is followed. -/
def detachReadClientFromEntry (c : UCClientHandle) (e : ℕ) : Except Fault UCClientHandle :=
  if c.isLinked e then
    .ok { c with
      entry :=
        if c.entry = some e then
          (c.classLead.dropWhile (·.entry != e)).tail.head?.map (·.entry)
        else c.entry
      classLead := c.classLead.eraseP (·.entry == e) }
  else .error .nullPointer

/-- `ChannelReadToken::getTimeAspect`: the nature of the selected entry, if any. -/
def getTimeAspect (obj : ℕ → UChannelEntry) (c : UCClientHandle) : EntryTimeAspect :=
  match c.entry with
  | some e => if (obj e).eventtype then .events else .continuous
  | none => c.timeAspect

/-- The class and selection tests of `refreshClientHandleInner` on a new entry. -/
def refreshMatch (reg : DataClassRegistry) (c : UCClientHandle) (e : UChannelEntry) : Bool :=
  reg.isCompatible c.dataclassname e.dataclassname &&
    ((c.classLead.isEmpty && (c.requestedEntry == e.entryId ||
        (c.requestedEntry == entryBylabel && c.entrylabel == e.label))) ||
      c.requestedEntry == entryAny)

/-- Process one configuration change. -/
def processChange (reg : DataClassRegistry) (obj : ℕ → UChannelEntry) (c : UCClientHandle)
    (cc : Change) : Except Fault UCClientHandle :=
  match cc.changetype, cc.entry with
  | .newEntry, some e =>
    if c.refreshMatch reg (obj e) then
      if areClientAndEntryTimingCompatible (c.getTimeAspect obj) (obj e).eventtype then
        c.linkReadClientToEntry obj e
      else .ok c
    else .ok c
  | .newEntry, none => .error .nullPointer
  | .deletedEntry, some e =>
    if c.classLead.isEmpty then .ok c else c.detachReadClientFromEntry e
  | .deletedEntry, none =>
    if c.classLead.isEmpty then .ok c else .error .nullPointer
  | .sentinel, _ => .ok c

end UCClientHandle

/-- A client catching up: the change list, the client, and the changes it has handled. -/
structure Refresh where
  changes : ChangeList
  client : UCClientHandle
  handled : List Change := []

namespace Refresh

/-- The change at the client's pointer. -/
def current (r : Refresh) : EntryConfigurationChange :=
  r.changes.record r.client.configChange

/-- Step the client's pointer with `markHandled`. -/
def advance (r : Refresh) : Except Fault Refresh :=
  match r.changes.markHandled r.client.configChange with
  | .error f => .error f
  | .ok (cl, n) => .ok { changes := cl
                         client := { r.client with configChange := n }
                         handled := r.handled ++ [r.current.toChange] }

/-- The condition of the quick loop: a client for one entry that is linked, and a
change about some other entry. -/
def skips (r : Refresh) : Bool :=
  match r.client.classLead with
  | [] => false
  | lead :: _ =>
    r.client.configChange != r.changes.latest && decide (r.client.requestedEntry ≤ entryBylabel) &&
      r.current.entry != some lead.entry

/-- The quick loop: single-entry handles that still point to an entry skip the
changes of other entries. -/
def skipLoop : ℕ → Refresh → Except Fault Refresh
  | 0, _ => .error .endless
  | n + 1, r => if r.skips then r.advance.bind (skipLoop n) else .ok r

/-- The second loop: process all remaining changes. -/
def processLoop (reg : DataClassRegistry) (obj : ℕ → UChannelEntry) :
    ℕ → Refresh → Except Fault Refresh
  | 0, _ => .error .endless
  | n + 1, r =>
    if r.client.configChange = r.changes.latest then .ok r
    else
      match r.client.processChange reg obj r.current.toChange with
      | .error f => .error f
      | .ok c => ({ r with client := c } : Refresh).advance.bind (processLoop reg obj n)

/-- `refreshClientHandleInner`. -/
def refreshClientHandleInner (reg : DataClassRegistry) (obj : ℕ → UChannelEntry)
    (cl : ChangeList) (c : UCClientHandle) : Except Fault Refresh :=
  (skipLoop (cl.allocated + 1) { changes := cl, client := c }).bind
    (processLoop reg obj (cl.allocated + 1))

end Refresh

/-! ### The end -/

/-- The entries of a data class and the clients that read it, newest first. -/
structure UCDataclassLink where
  entries : List ℕ := []
  clients : List ℕ := []
  deriving DecidableEq, Repr

/-- What a write token asks for. -/
structure WriteSpec where
  dataclassname : String
  entrylabel : String := ""
  eventtype : Bool := false
  exclusive : Bool := false
  nreservations : ℕ := 0
  deriving DecidableEq, Repr

/-- One end of a channel. `obj` is the heap of its entries. -/
structure UnifiedChannel where
  id : GlobalId
  creationId : ℕ
  newclientId : ℕ
  obj : ℕ → UChannelEntry := fun _ => ⟨0xffff, 0, "", false, "", false, [], []⟩
  objects : ℕ := 0
  handles : ℕ := 0
  /-- The entries by their id. -/
  entries : List (Option ℕ) := []
  /-- The entries of the writing clients. -/
  writingClients : List ℕ := []
  readingClients : List UCClientHandle := []
  entrymap : String → UCDataclassLink := fun _ => {}
  changes : ChangeList := {}

/-- What an input makes an end do besides changing its state: write a request for
the master; and, reported for the sake of the proofs, publish a configuration
change, have a client handle one, or walk past a deletion when cleaning. -/
inductive Effect
  | send (msg : UChannelCommRequest)
  | made (change : Change)
  | handled (client : ℕ) (change : Change)
  | passed (change : Change)
  deriving DecidableEq, Repr

namespace UnifiedChannel

/-- A new end at a location. -/
def create (id : GlobalId) : UnifiedChannel where
  id := id
  creationId := id.location + 0x100
  newclientId := id.location + 0x100

/-- The entry held under an id. -/
def held (s : UnifiedChannel) (h : ℕ) : Option ℕ := s.entries[h]?.join

/-- Write to an entry. -/
def modifyEntry (s : UnifiedChannel) (e : ℕ) (f : UChannelEntry → UChannelEntry) :
    UnifiedChannel :=
  { s with obj := Function.update s.obj e (f (s.obj e)) }

/-- Write to the links of a data class. -/
def modifyLink (s : UnifiedChannel) (cls : String) (f : UCDataclassLink → UCDataclassLink) :
    UnifiedChannel :=
  { s with entrymap := Function.update s.entrymap cls (f (s.entrymap cls)) }

/-- Hold an entry under an id, extending the table when needed. -/
def store (s : UnifiedChannel) (h e : ℕ) : UnifiedChannel :=
  { s with entries :=
      (s.entries ++ List.replicate (h + 1 - s.entries.length) none).set h (some e) }

/-- The client with a handle. -/
def client? (s : UnifiedChannel) (k : ℕ) : Option UCClientHandle :=
  s.readingClients.find? (·.handle == k)

/-- Let the client with handle `k` catch up. -/
def refreshAt (reg : DataClassRegistry) (s : UnifiedChannel) (k : ℕ) :
    Except Fault (UnifiedChannel × List Effect) :=
  match s.client? k with
  | none => .error .nullPointer
  | some c =>
    match Refresh.refreshClientHandleInner reg s.obj s.changes c with
    | .error f => .error f
    | .ok r => .ok ({ s with
        changes := r.changes
        readingClients := s.readingClients.map fun d => if d.handle = k then r.client else d },
      r.handled.map (.handled k))

/-- Recycle handled changes and publish a new one for all readers. -/
def announce (s : UnifiedChannel) (change : Change) :
    Except Fault (UnifiedChannel × List Effect) :=
  match s.changes.recycleConfigChanges with
  | .error f => .error f
  | .ok cl =>
    match cl.publish change s.readingClients.length with
    | .error f => .error f
    | .ok cl' => .ok ({ s with changes := cl' }, [.made change])

/-- The test of `updateConfiguration` on the clients of a class of a new entry. -/
def concerns (msg : UChannelCommRequest) (c : UCClientHandle) : Bool :=
  (c.requestedEntry == entryAny && (c.entrylabel == "" || c.entrylabel == msg.entrylabel)) ||
    c.requestedEntry == msg.data0 ||
    (c.requestedEntry == entryBylabel && c.entrylabel == msg.entrylabel)

/-- The loop over the clients of one data class: those with a callback catch up. -/
def callClients (reg : DataClassRegistry) (msg : UChannelCommRequest) :
    List ℕ → UnifiedChannel → Except Fault (UnifiedChannel × List Effect)
  | [], s => .ok (s, [])
  | k :: ks, s =>
    match s.client? k with
    | none => .error .nullPointer
    | some c =>
      if concerns msg c && c.callback then andThen (s.refreshAt reg k) (callClients reg msg ks)
      else callClients reg msg ks s

/-- The loop over the class of a new entry and its parent classes. -/
def linkClasses (reg : DataClassRegistry) (msg : UChannelCommRequest) (e : ℕ) :
    List String → UnifiedChannel → Except Fault (UnifiedChannel × List Effect)
  | [], s => .ok (s, [])
  | cls :: rest, s =>
    let s₁ := (s.modifyLink cls fun l => { l with entries := e :: l.entries }).modifyEntry e
      fun o => { o with dataclasslink := o.dataclasslink ++ [cls] }
    andThen (callClients reg msg (s.entrymap cls).clients s₁) (linkClasses reg msg e rest)

/-- The entry for a `NewEntryConf`: that of a writing client here, or a new one for
a remote writer. -/
def entryFor (s : UnifiedChannel) (msg : UChannelCommRequest) :
    Except Fault (ℕ × UnifiedChannel) :=
  if msg.data1 % 0x100 = s.id.location then
    match s.writingClients.find? (fun e => (s.obj e).creationId == msg.data1) with
    | none => .error .assertion
    | some e => .ok (e, s)
  else
    .ok (s.objects, { s with
      objects := s.objects + 1
      obj := Function.update s.obj s.objects
        { entryId := msg.data0, creationId := msg.data1, dataclassname := msg.dataclassname
          eventtype := msg.extra.testBit 0, label := msg.entrylabel, isLocal := false
          data := initialData (msg.extra.testBit 2) } })

/-- Process a `NewEntryConf`. -/
def newEntryConf (reg : DataClassRegistry) (s : UnifiedChannel) (msg : UChannelCommRequest) :
    Except Fault (UnifiedChannel × List Effect) :=
  if msg.origin = {} then .error .assertion
  else if (s.held msg.data0).isSome then .ok (s, [])
  else if msg.data0 = 0xffff then .error .assertion
  else
    match s.entryFor msg with
    | .error f => .error f
    | .ok (e, s₁) =>
      andThen ((s₁.store msg.data0 e).announce ⟨.newEntry, some e⟩) fun s₂ =>
        (s₂.modifyEntry e fun o => { o with entryId := msg.data0 }).linkClasses reg msg e
          (reg.lineage msg.dataclassname)

/-- `UChannelEntry::unlinkFromDataClass`: take the entry out of the lists of its
classes, the last one first. -/
def unlinkFromDataClass (e : ℕ) :
    List String → (String → UCDataclassLink) → Except Fault (String → UCDataclassLink)
  | [], em => .ok em
  | cls :: rest, em =>
    if (em cls).entries.contains e then
      unlinkFromDataClass e rest
        (Function.update em cls { em cls with entries := (em cls).entries.erase e })
    else .error .assertion

/-- Process an `InvalidateEntryCmd`. -/
def invalidateEntryCmd (s : UnifiedChannel) (msg : UChannelCommRequest) :
    Except Fault (UnifiedChannel × List Effect) :=
  match s.held msg.data0 with
  | none => .error .assertion
  | some e =>
    andThen (s.announce ⟨.deletedEntry, some e⟩) fun s₁ =>
      if (s₁.obj e).isLocal && !s₁.writingClients.contains e then .error .assertion
      else
        match unlinkFromDataClass e (s₁.obj e).dataclasslink.reverse s₁.entrymap with
        | .error f => .error f
        | .ok em => .ok (({ s₁ with
            writingClients :=
              if (s₁.obj e).isLocal then s₁.writingClients.erase e else s₁.writingClients
            entrymap := em } : UnifiedChannel).modifyEntry e
              fun o => { o with dataclasslink := [] }, [])

/-- The loop of a `CleanEntryCmd` for the entry at address `e`: walk over the
handled changes, recycling each. A deletion of this entry whose data can be
cleaned is confirmed. -/
def cleanLoop (e : ℕ) (msg : UChannelCommRequest) :
    ℕ → UnifiedChannel → Except Fault (UnifiedChannel × List Effect)
  | 0, _ => .error .endless
  | n + 1, s =>
    let cc := s.changes.record s.changes.first
    if s.changes.first ≠ s.changes.latest ∧ cc.tocheck = 0 then
      let hit := cc.changetype = .deletedEntry ∧ cc.entry = some e
      let s₁ := if hit then s.modifyEntry e fun o => o.cleanAllData.1 else s
      let confirmed := if hit ∧ (s.obj e).cleanAllData.2 = true
        then [Effect.send { type := .cleanEntryConf, data0 := msg.data0, data1 := msg.data1 }]
        else []
      let passed := if cc.changetype = .deletedEntry then [Effect.passed cc.toChange] else []
      match s₁.changes.recycle with
      | .error f => .error f
      | .ok cl => andThen (.ok ({ s₁ with changes := cl }, passed ++ confirmed)) (cleanLoop e msg n)
    else .ok (s, [])

/-- Process a `CleanEntryCmd`. -/
def cleanEntryCmd (s : UnifiedChannel) (msg : UChannelCommRequest) :
    Except Fault (UnifiedChannel × List Effect) :=
  match s.held msg.data0 with
  | none => .error .assertion
  | some e => cleanLoop e msg (s.changes.allocated + 1) s

/-- Process a `DeleteEntryCmd`. -/
def deleteEntryCmd (s : UnifiedChannel) (msg : UChannelCommRequest) :
    Except Fault (UnifiedChannel × List Effect) :=
  match s.held msg.data0 with
  | none => .error .assertion
  | some _ => .ok ({ s with entries := s.entries.set msg.data0 none }, [])

/-- Process a command from the master. Taking away the saveup changes access counts
only, which is left to `Input.data`. -/
def updateConfiguration (reg : DataClassRegistry) (s : UnifiedChannel)
    (msg : UChannelCommRequest) : Except Fault (UnifiedChannel × List Effect) :=
  match msg.type with
  | .removeSaveupCmd => if (s.held msg.data0).isSome then .ok (s, []) else .error .nullPointer
  | .newEntryConf => s.newEntryConf reg msg
  | .invalidateEntryCmd => s.invalidateEntryCmd msg
  | .cleanEntryCmd => s.cleanEntryCmd msg
  | .deleteEntryCmd => s.deleteEntryCmd msg
  | .newEndWelcome => .ok (s, [])
  | _ => .error .assertion

/-! ### Tokens -/

/-- The loop of `addReadToken` over the entries of the data class. -/
def linkMatching (obj : ℕ → UChannelEntry) :
    List ℕ → UCClientHandle → Except Fault UCClientHandle
  | [], c => .ok c
  | e :: rest, c =>
    if c.entrymatch (obj e) then (c.linkReadClientToEntry obj e).bind (linkMatching obj rest)
    else linkMatching obj rest c

/-- `addReadToken`. The refresh at its end has nothing to do, since the new client
starts at the latest change. -/
def addReadToken (s : UnifiedChannel) (spec : ReadSpec) :
    Except Fault (UnifiedChannel × List Effect) :=
  let c : UCClientHandle := { spec with
    handle := s.handles, clientCreationId := s.newclientId, configChange := s.changes.latest }
  match linkMatching s.obj (s.entrymap spec.dataclassname).entries c with
  | .error f => .error f
  | .ok c' => .ok (({ s with
      handles := s.handles + 1
      newclientId := (s.newclientId + 0x100) % 2 ^ 32
      readingClients := s.readingClients ++ [c'] } : UnifiedChannel).modifyLink spec.dataclassname
        fun l => { l with clients := c.handle :: l.clients },
    [.send { type := .newClientNotif, dataclassname := spec.dataclassname
             entrylabel := spec.entrylabel, data0 := spec.requestedEntry
             data1 := c.clientCreationId
             extra := if isReadingModeReservation spec.readingMode then 1 else 0 }])

/-- `removeReadToken`: a last refresh, and the client is gone with its links. -/
def removeReadToken (reg : DataClassRegistry) (s : UnifiedChannel) (k : ℕ) :
    Except Fault (UnifiedChannel × List Effect) :=
  andThen (s.refreshAt reg k) fun s₁ =>
    match s₁.client? k with
    | none => .error .assertion
    | some c =>
      if (s₁.entrymap c.dataclassname).clients.contains k then
        .ok (({ s₁ with readingClients := s₁.readingClients.eraseP (·.handle == k) } :
            UnifiedChannel).modifyLink c.dataclassname
              fun l => { l with clients := l.clients.erase k },
          [.send { type := .leaveClientNotif, data1 := c.clientCreationId }])
      else .error .assertion

/-- Change the selected entry of a client. -/
def select (s : UnifiedChannel) (k : ℕ) (f : UCClientHandle → Option ℕ) : UnifiedChannel :=
  { s with readingClients := s.readingClients.map fun c =>
      if c.handle = k then { c with entry := f c } else c }

/-- `selectFirstEntry`. -/
def selectFirstEntry (reg : DataClassRegistry) (s : UnifiedChannel) (k : ℕ) :
    Except Fault (UnifiedChannel × List Effect) :=
  andThen (s.refreshAt reg k) fun s₁ =>
    .ok (s₁.select k fun c => c.classLead.head?.map (·.entry), [])

/-- `getNextEntry`. -/
def getNextEntry (reg : DataClassRegistry) (s : UnifiedChannel) (k : ℕ) :
    Except Fault (UnifiedChannel × List Effect) :=
  andThen (s.refreshAt reg k) fun s₁ =>
    .ok (s₁.select k fun c => c.entry.bind fun e =>
      (c.classLead.dropWhile (·.entry != e)).tail.head?.map (·.entry), [])

/-- `addWriteToken`, with the request to the master. -/
def addWriteToken (s : UnifiedChannel) (spec : WriteSpec) : UnifiedChannel × List Effect :=
  ({ s with
      objects := s.objects + 1
      creationId := (s.creationId + 0x100) % 2 ^ 32
      obj := Function.update s.obj s.objects
        { creationId := s.creationId, dataclassname := spec.dataclassname
          eventtype := spec.eventtype, label := spec.entrylabel, isLocal := true
          data := initialData (spec.nreservations ≠ 0) }
      writingClients := s.writingClients ++ [s.objects] },
    [.send { type := .newEntryReq, dataclassname := spec.dataclassname
             entrylabel := spec.entrylabel
             extra := (if spec.eventtype then 1 else 0) ||| (if spec.exclusive then 2 else 0) |||
               (if spec.nreservations ≠ 0 then 4 else 0)
             data0 := spec.nreservations, data1 := s.creationId, origin := s.id }])

/-- `removeWriteToken`: ask the master to delete the entry. -/
def removeWriteToken (s : UnifiedChannel) (e : ℕ) : UnifiedChannel × List Effect :=
  (s, [.send { type := .deleteEntryReq, data1 := (s.obj e).creationId }])

end UnifiedChannel

/-- One input of an end: a call on a token, a command from the master, or reading
and writing that changes the access counts of an entry's data. -/
inductive Input
  | addReadToken (spec : ReadSpec)
  | removeReadToken (client : ℕ)
  | refreshClientHandle (client : ℕ)
  | selectFirstEntry (client : ℕ)
  | getNextEntry (client : ℕ)
  | addWriteToken (spec : WriteSpec)
  | removeWriteToken (entry : ℕ)
  | updateConfiguration (msg : UChannelCommRequest)
  | data (entry : ℕ) (counts : List ℕ)

open UnifiedChannel in
/-- Serve one input. -/
def respond (reg : DataClassRegistry) (s : UnifiedChannel) :
    Input → Except Fault (UnifiedChannel × List Effect)
  | .addReadToken spec => s.addReadToken spec
  | .removeReadToken k => s.removeReadToken reg k
  | .refreshClientHandle k => s.refreshAt reg k
  | .selectFirstEntry k => s.selectFirstEntry reg k
  | .getNextEntry k => s.getNextEntry reg k
  | .addWriteToken spec => .ok (s.addWriteToken spec)
  | .removeWriteToken e => .ok (s.removeWriteToken e)
  | .updateConfiguration msg => s.updateConfiguration reg msg
  | .data e counts => .ok (s.modifyEntry e fun o => { o with data := counts }, [])

end Dueca.End
