import Dueca.Clients.Model
import Dueca.Entry.Sequential

/-!
# Reading from several entries

A read token on all entries of a channel selects one of its links. Iteration, flushing and reading
move this selection, and so does the removal of an entry. The `VirtualJoin` selector of a reader
tries the entries one by one, until one has data.

A reader exists for the time of one operation here: it accesses data, if there is any, and
releases it. The history of a run keeps, for each entry, the points that came since the client
linked to it, and those that went, by a read or by a flush; and what the last iteration visited.
-/

namespace Dueca.Clients

open Dueca.Lib Dueca.Entry

variable {D : Type}

/-- A channel and a reading client of it. -/
structure Station (D : Type) where
  channel : Channel D
  client : ClientHandle

/-- The link behind a link. -/
def nextLink (links : List Link) (l : Link) : Option Link := (links.dropWhile (· ≠ l)).tail.head?

namespace Station

def links (s : Station D) : List Link := s.client.classLead

def select (s : Station D) (l : Option Link) : Station D :=
  { s with client := { s.client with entry := l } }

/-! ### Selecting entries -/

/-- Handle changes, if there are any. Tells whether an entry can be read. -/
def refreshClientHandle (s : Station D) : Except Fault (Station D × Bool) :=
  if s.client.pending ≠ [] then do
    let (channel, client, canRead) ← refreshClientHandleInner s.channel s.client
    pure (⟨channel, client⟩, canRead)
  else pure (s, s.client.entry.isSome)

def selectFirstEntry (s : Station D) : Except Fault (Station D) := do
  let (s, _) ← s.refreshClientHandle
  pure (s.select s.links.head?)

def getNextEntry (s : Station D) : Except Fault (Station D) := do
  let (s, canRead) ← s.refreshClientHandle
  if canRead then pure (s.select (s.client.entry.bind (nextLink s.links)))
  else pure s

/-- The token is valid when an entry can be read, or none is needed. -/
def isValid (s : Station D) (zeroEntriesAcceptable : Bool) : Except Fault (Station D × Bool) := do
  let (s, canRead) ← s.refreshClientHandle
  pure (s, canRead || zeroEntriesAcceptable)

/-! ### One link -/

/-- An operation on the entry of a link, and the record of the client there. -/
def withLink {A : Type} (s : Station D) (l : Link)
    (f : UChannelEntry D → Client → Except Fault (Heap D × Client × A)) :
    Except Fault (Station D × A) := do
  let e ← s.channel.find l.entry
  match e.body.clients[l.client]? with
  | none => throw .noClient
  | some c => do
    let (heap, c', a) ← f e.body c
    pure ({ s with channel := s.channel.set l.entry { e with
      body := e.body.reread l.client heap c' } }, a)

/-- A look at the entry of a link, with the point from which the client reads. -/
def atLink {A : Type} (s : Station D) (l : Link)
    (f : UChannelEntry D → ℕ → Except Fault A) : Except Fault A := do
  let e ← s.channel.find l.entry
  match e.body.clients[l.client]? with
  | none => throw .noClient
  | some c => f e.body (← if c.sequentialRead then follow c.readIndex else pure e.body.oldest)

/-- Access to the data of the selected entry. -/
def getReadAccess (s : Station D) (tRequest : ℕ) :
    Except Fault (Station D × Option (Reading D)) := do
  let (s, canRead) ← s.refreshClientHandle
  if canRead then s.withLink (← followLink s.client.entry) fun e c => accessData e c tRequest
  else pure (s, none)
where
  followLink (l : Option Link) : Except Fault Link :=
    match l with
    | some l => .ok l
    | none => .error .nullPointer

/-- The data goes back; changes are not handled here. -/
def releaseReadAccess (s : Station D) : Except Fault (Station D) :=
  match s.client.entry with
  | none => throw .nullPointer
  | some l => do
    let (s, _) ← s.withLink l fun e c => do
      let (heap, c) ← releaseData e c
      pure (heap, c, ())
    pure s

/-! ### Several entries -/

/-- From the selected entry on, do something with each, until `done`. -/
def scan {A : Type} (visit : Station D → A → Except Fault (Station D × A)) (done : A → Bool) :
    ℕ → Station D → A → Except Fault (Station D × A)
  | 0, _, _ => throw .endlessLoop
  | fuel + 1, s, a =>
    match s.client.entry with
    | none => pure (s, a)
    | some _ => do
      let (s, a) ← visit s a
      if done a then pure (s, a)
      else scan visit done fuel (← s.getNextEntry) a

/-- The `VirtualJoin` selector: data of the first entry that has some. -/
def virtualJoin (s : Station D) (tRequest : ℕ) :
    Except Fault (Station D × Option (Reading D)) := do
  let s ← s.selectFirstEntry
  scan (fun s _ => s.getReadAccess tRequest) Option.isSome (s.links.length + 1) s none

/-- A reader with this selector. It releases the data in the end, if there were any. -/
def read (s : Station D) (tRequest : ℕ) : Except Fault (Station D × Option (Reading D)) := do
  let (s, data) ← s.virtualJoin tRequest
  if data.isSome then pure (← s.releaseReadAccess, data)
  else pure (s, data)

/-- Flush the selected entry, and count. -/
def flushEntry (flush : UChannelEntry D → Client → Except Fault (Heap D × Client × ℕ))
    (s : Station D) (n : ℕ) : Except Fault (Station D × ℕ) :=
  match s.client.entry with
  | none => throw .nullPointer
  | some l => do
    let (s, k) ← s.withLink l fun e c =>
      if c.sequentialRead then flush e c else pure (e.heap, c, 0)
    pure (s, (n + k) % 4294967296)

/-- Flush all entries. -/
def flushEntries (flush : UChannelEntry D → Client → Except Fault (Heap D × Client × ℕ))
    (s : Station D) : Except Fault (Station D × ℕ) := do
  let s ← s.selectFirstEntry
  let (s, n) ← scan (flushEntry flush) (fun _ => false) (s.links.length + 1) s 0
  pure (← s.selectFirstEntry, n)

def flushTotalAvailableSets (s : Station D) : Except Fault (Station D × ℕ) :=
  s.flushEntries flushAll

def flushOlderSets (s : Station D) : Except Fault (Station D × ℕ) := s.flushEntries spinToLast

def flushOlderSetsBefore (s : Station D) (ts : ℕ) : Except Fault (Station D × ℕ) :=
  s.flushEntries fun e c => spinToLastBefore e c ts

/-- Flush one point. The selection stays where it was found. -/
def flushOne (s : Station D) : Except Fault (Station D × ℕ) := do
  let s ← s.selectFirstEntry
  let (s, n) ← scan (flushEntry Entry.flushOne) (· ≠ 0) (s.links.length + 1) s 0
  if n ≠ 0 then pure (s, 1) else pure (← s.selectFirstEntry, 0)

/-- Some link has a visible point. -/
def anyVisible (s : Station D) (ts : ℕ) : List Link → Except Fault Bool
  | [] => pure false
  | l :: ls => do
    if ← s.atLink l fun e r => Entry.haveVisibleSets e ts r then pure true
    else s.anyVisible ts ls

/-- The visible points of all links. -/
def sumVisible (s : Station D) (ts : ℕ) : List Link → Except Fault ℕ
  | [] => pure 0
  | l :: ls => do
    let k ← s.atLink l fun e r => Entry.getNumVisibleSets e ts r
    pure ((k + (← s.sumVisible ts ls)) % 4294967296)

/-- A token for all entries looks at all its links, another one at the selected entry. -/
def visibleLinks (s : Station D) (canRead : Bool) : List Link :=
  if s.client.requestedEntry = entryAny then s.links
  else if canRead then s.client.entry.toList else []

def haveVisibleSets (s : Station D) (ts : ℕ) : Except Fault (Station D × Bool) := do
  let (s, canRead) ← s.refreshClientHandle
  pure (s, ← s.anyVisible ts (s.visibleLinks canRead))

def getNumVisibleSets (s : Station D) (ts : ℕ) : Except Fault (Station D × ℕ) := do
  let (s, canRead) ← s.refreshClientHandle
  pure (s, ← s.sumVisible ts (s.visibleLinks canRead))

end Station

/-! ### Runs -/

/-- What the client still has to read from the entry of a link. -/
def unread (ch : Channel D) (l : Link) : List (Point D) :=
  match ch.entries l.entry with
  | none => []
  | some e =>
    match e.body.clients[l.client]? with
    | none => []
    | some c => (c.readIndex.map (pointsFrom e.body)).getD []

/-- The last iteration: the links at its start, and those that it selected so far. -/
structure Visit where
  started : List Link
  visited : List Link
  finished : Bool
  deriving DecidableEq, Repr

/-- What an operation answered. -/
inductive Answer (D : Type)
  | nothing
  | data (r : Option (Reading D))
  | flag (b : Bool)
  | number (n : ℕ)
  deriving DecidableEq, Repr

/-- How a point went. -/
inductive Fate | returned | flushed
  deriving DecidableEq, Repr

/-- A channel, a client and their history. -/
structure Joining (D : Type) where
  station : Station D
  /-- The address of the next entry. -/
  fresh : ℕ := 0
  zeroEntriesAcceptable : Bool := false
  answer : Answer D := .nothing
  arrived : ℕ → List (Point D) := fun _ => []
  gone : ℕ → List (Fate × Point D) := fun _ => []
  visit : Option Visit := none

/-- What may happen: entries come and go, there are writes, and the client uses its token. -/
inductive JoinOp (D : Type)
  | addEntry (label : String) (classes : List String) (entryId : ℕ)
      (writer eventtype fullpackmode : Bool) (nreservations : ℕ)
  | removeEntry (a : ℕ)
  | write (a : ℕ) (data : D) (t : DataTimeSpec) (current : Bool)
  | read (t : ℕ)
  | selectFirstEntry
  | selectNextEntry
  | isValid
  | haveVisibleSets (t : ℕ)
  | getNumVisibleSets (t : ℕ)
  | flushTotalAvailableSets
  | flushOlderSets
  | flushOlderSetsBefore (t : ℕ)
  | flushOne

namespace Joining

def links (s : Joining D) : List Link := s.station.links

/-- The history starts for entries that got linked. -/
def linkedTo (s : Joining D) (st : Station D) : Joining D :=
  let started (a : ℕ) : Option Link :=
    if s.links.any (·.entry = a) then none else st.links.find? (·.entry = a)
  { s with
    station := st
    answer := .nothing
    arrived a := match started a with
      | some l => unread st.channel l
      | none => s.arrived a
    gone a := if (started a).isSome then [] else s.gone a }

/-- Points that are no longer there after a flush. -/
def flushedTo (s : Joining D) (st : Station D) (n : ℕ) : Joining D :=
  { s with
    station := st
    answer := .number n
    gone a := match s.links.find? (·.entry = a) with
      | some l =>
        let before := unread s.station.channel l
        s.gone a ++ (before.take (before.length - (unread st.channel l).length)).map (.flushed, ·)
      | none => s.gone a }

/-- The point that was read from the selected entry. -/
def readTo (s : Joining D) (st : Station D) (r : Option (Reading D)) : Joining D :=
  { s with
    station := st
    answer := .data r
    gone := match r, st.client.entry with
      | some (ts, d), some l =>
        Function.update s.gone l.entry (s.gone l.entry ++ [(.returned, (ts, some d))])
      | _, _ => s.gone }

def firstTo (s : Joining D) (st : Station D) : Joining D :=
  { s with
    station := st
    visit := some ⟨st.links, st.client.entry.toList, st.client.entry.isNone⟩ }

def nextTo (s : Joining D) (st : Station D) : Joining D :=
  { s with
    station := st
    visit := match s.visit with
      | none => none
      | some v =>
        if v.finished then none
        else some { v with
          visited := v.visited ++ st.client.entry.toList
          finished := st.client.entry.isNone } }

/-- An operation of the client, after it handled the changes. -/
def clientStep (s : Joining D) : JoinOp D → Except Fault (Joining D)
  | .read t => do
    let (st, r) ← s.station.read t
    pure (s.readTo st r)
  | .selectFirstEntry => do pure (s.firstTo (← s.station.selectFirstEntry))
  | .selectNextEntry => do pure (s.nextTo (← s.station.getNextEntry))
  | .isValid => do
    let (st, b) ← s.station.isValid s.zeroEntriesAcceptable
    pure { s with station := st, answer := .flag b }
  | .haveVisibleSets t => do
    let (st, b) ← s.station.haveVisibleSets t
    pure { s with station := st, answer := .flag b }
  | .getNumVisibleSets t => do
    let (st, n) ← s.station.getNumVisibleSets t
    pure { s with station := st, answer := .number n }
  | .flushTotalAvailableSets => do
    let (st, n) ← s.station.flushTotalAvailableSets
    pure (s.flushedTo st n)
  | .flushOlderSets => do
    let (st, n) ← s.station.flushOlderSets
    pure (s.flushedTo st n)
  | .flushOlderSetsBefore t => do
    let (st, n) ← s.station.flushOlderSetsBefore t
    pure (s.flushedTo st n)
  | .flushOne => do
    let (st, n) ← s.station.flushOne
    pure (s.flushedTo st n)
  | _ => pure s

end Joining

/-- A new entry, at a fresh address, and the news of it for the client. -/
def Joining.addEntry (s : Joining D) (e : ChannelEntry D) : Joining D :=
  { s with
    station :=
      { channel := { s.station.channel with
          entries := Function.update s.station.channel.entries s.fresh (some e)
          configVersion := s.station.channel.configVersion + 1 }
        client := { s.station.client with
          pending := s.station.client.pending ++ [⟨.newEntry, s.fresh⟩] } }
    fresh := s.fresh + 1
    answer := .nothing }

/-- One step. Each operation of the client handles the changes first; here this is also done
before it, to start the history of the entries that get linked. -/
def joinStep (s : Joining D) : JoinOp D → Except Fault (Joining D)
  | .addEntry label classes entryId writer eventtype fullpackmode nreservations => do
    require (entryId ≠ entryEnd)
    let body : UChannelEntry D := .create writer eventtype fullpackmode nreservations
    pure (s.addEntry { body := { body with entryId, valid := true }, label, classes })
  | .removeEntry a => do
    let e ← s.station.channel.find a
    require e.body.valid
    pure { s with
      station :=
        { channel :=
            let ch := s.station.channel.set a { e with body := { e.body with valid := false } }
            { ch with configVersion := ch.configVersion + 1 }
          client := { s.station.client with
            pending := s.station.client.pending ++ [⟨.deletedEntry, a⟩] } }
      answer := .nothing }
  | .write a data t current => do
    let e ← s.station.channel.find a
    let (body, _) ← newData e.body data t current
    let arrived :=
      if s.links.any (·.entry = a) then
        Function.update s.arrived a (s.arrived a ++ accepted e.body (.newData data t current))
      else s.arrived
    pure { s with
      station := { s.station with channel := s.station.channel.set a { e with body } }
      answer := .nothing
      arrived }
  | op => do
    let (st, _) ← s.station.refreshClientHandle
    (s.linkedTo st).clientStep op

end Dueca.Clients
