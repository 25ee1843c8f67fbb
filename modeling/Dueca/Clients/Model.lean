import Dueca.Entry.Readers

/-!
# Reading clients and the entries of a channel

A reading client of a channel has a list of links, one for each entry it reads from, and selects
one of these. The channel keeps a list of configuration changes, new entries and deleted ones, and
each client works through these before it reads: it links to new entries that match, and detaches
from those that are deleted.

An entry keeps the record of each client that was linked to it, see `Entry.link`. Triggers, and
reports about links, are left out, and so is the count of clients that still have to handle a
change.
-/

namespace Dueca.Clients

open Dueca.Lib Dueca.Entry

/-- Requested entries: any, or one with a label. Other values ask for the entry with that id. -/
def entryAny : ℕ := 0xffff

def entryBylabel : ℕ := 0xfffe

inductive EntryTimeAspect | anyTimeAspect | events | continuous
  deriving DecidableEq, Repr

inductive ReadingMode | readAllData | readReservation | jumpToMatchTime | adaptEventStream
  deriving DecidableEq, Repr

/-- Whether a client reads an entry point by point. -/
def isSequentialRead (m : ReadingMode) (eventtype : Bool) : Bool :=
  if m = .adaptEventStream then eventtype else m = .readAllData || m = .readReservation

/-- Whether the client's reading mode goes with the nature of the entry. -/
def areClientAndEntryTimingCompatible (m : EntryTimeAspect) (entryisevent : Bool) : Bool :=
  m = .anyTimeAspect || m = .events && entryisevent || m = .continuous && !entryisevent

/-- A link of a client: the address of the entry, and the place of its record there. -/
structure Link where
  entry : ℕ
  client : ℕ
  deriving DecidableEq, Repr

inductive ConfigEvent | newEntry | deletedEntry
  deriving DecidableEq, Repr

/-- A change, with the address of the entry. -/
structure EntryConfigurationChange where
  changetype : ConfigEvent
  entry : ℕ
  deriving DecidableEq, Repr

variable {D : Type}

/-- An entry as clients find it. -/
structure ChannelEntry (D : Type) where
  body : UChannelEntry D
  label : String
  /-- The data class, and then its ancestors. -/
  classes : List String

/-- The entries of a channel, by address. -/
structure Channel (D : Type) where
  entries : ℕ → Option (ChannelEntry D)
  configVersion : ℕ := 0

/-- A client, with the configuration changes it did not handle yet. -/
structure ClientHandle where
  dataclassname : String
  requestedEntry : ℕ
  entrylabel : String
  timeAspect : EntryTimeAspect
  readingMode : ReadingMode
  requestedSpan : ℕ
  requestedDepth : ℕ
  /-- The links, in the order from `class_lead`. -/
  classLead : List Link := []
  entry : Option Link := none
  pending : List EntryConfigurationChange := []
  deriving DecidableEq, Repr

namespace Channel

def find (ch : Channel D) (a : ℕ) : Except Fault (ChannelEntry D) :=
  match ch.entries a with
  | some e => .ok e
  | none => .error .freedPointer

def set (ch : Channel D) (a : ℕ) (e : ChannelEntry D) : Channel D :=
  { ch with entries := Function.update ch.entries a (some e) }

end Channel

/-- The time aspect of a client with a selected entry is that of the entry. -/
def getTimeAspect (ch : Channel D) (c : ClientHandle) : Except Fault EntryTimeAspect :=
  match c.entry with
  | some l => do
    let e ← ch.find l.entry
    pure (if e.body.eventtype then .events else .continuous)
  | none => pure c.timeAspect

/-- Link a client to an entry; it is asserted that there is no link yet. -/
def linkReadClientToEntry (ch : Channel D) (c : ClientHandle) (a : ℕ) :
    Except Fault (Channel D × ClientHandle) := do
  require (c.classLead.all fun l => l.entry ≠ a)
  let e ← ch.find a
  let sequential := isSequentialRead c.readingMode e.body.eventtype
  let body ← link e.body sequential c.requestedSpan c.requestedDepth
  let l : Link := ⟨a, e.body.clients.length⟩
  pure (ch.set a { e with body },
    { c with classLead := l :: c.classLead, entry := c.entry.or (some l) })

/-- Remove the link of a client to an entry, and give the read access of the link back. -/
def detachReadClientFromEntry (ch : Channel D) (c : ClientHandle) (a : ℕ) :
    Except Fault (Channel D × ClientHandle × Bool) :=
  match c.classLead.dropWhile (·.entry ≠ a) with
  -- the search ends with a null pointer, and the test that follows uses it
  | [] => throw .nullPointer
  | el :: next => do
    let e ← ch.find a
    let body ← withClient e.body el.client (detach e.body)
    let c' := { c with
      classLead := c.classLead.takeWhile (·.entry ≠ a) ++ next
      entry := if c.entry = some el then next.head? else c.entry }
    pure (ch.set a { e with body }, c', true)

/-- The entry is one that the client asks for: the one it wants, when it has none yet, or any. -/
def ClientHandle.asksFor (c : ClientHandle) (e : ChannelEntry D) : Bool :=
  c.dataclassname ∈ e.classes &&
    (c.classLead = [] && (c.requestedEntry = e.body.entryId ||
        c.requestedEntry = entryBylabel && c.entrylabel = e.label) ||
      c.requestedEntry = entryAny)

/-- Handle one change; tells whether the links have changed. -/
def processChange (ch : Channel D) (c : ClientHandle) (cc : EntryConfigurationChange) :
    Except Fault (Channel D × ClientHandle × Bool) :=
  match cc.changetype with
  | .newEntry => do
    let e ← ch.find cc.entry
    if c.asksFor e then
      if areClientAndEntryTimingCompatible (← getTimeAspect ch c) e.body.eventtype then
        let (ch, c) ← linkReadClientToEntry ch c cc.entry
        pure (ch, c, true)
      else pure (ch, c, false)
    else pure (ch, c, false)
  | .deletedEntry =>
    if c.classLead ≠ [] then detachReadClientFromEntry ch c cc.entry else pure (ch, c, false)

/-- All remaining changes, one by one. -/
def processChanges : List EntryConfigurationChange → Channel D → ClientHandle → Bool →
    Except Fault (Channel D × ClientHandle × Bool)
  | [], ch, c, changes => pure (ch, c, changes)
  | cc :: ccs, ch, c, changes => do
    let (ch, c, changed) ← processChange ch c cc
    processChanges ccs ch c (changed || changes)

/-- A client for one entry, that has it, passes over the changes of other entries. -/
def ClientHandle.skips (c : ClientHandle) (cc : EntryConfigurationChange) : Bool :=
  match c.classLead with
  | el :: _ => c.requestedEntry ≤ entryBylabel && cc.entry ≠ el.entry
  | [] => false

/-- Handle all pending changes: first a quick skip, and then the rest. Tells whether an entry can
be read. -/
def refreshClientHandleInner (ch : Channel D) (c : ClientHandle) :
    Except Fault (Channel D × ClientHandle × Bool) := do
  let (ch, c', changes) ← processChanges (c.pending.dropWhile c.skips) ch c false
  let ch := if changes then { ch with configVersion := ch.configVersion + 1 } else ch
  pure (ch, { c' with pending := [] }, c'.entry.isSome)

end Dueca.Clients
