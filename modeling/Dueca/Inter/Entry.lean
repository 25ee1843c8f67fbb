import Dueca.Lib.Run

/-!
# Replicating the data of an entry

An `EntryReader` packs the data points of one entry in the messages that a node sends
to the others, in a record for each point: a point of a stream that starts where the
one before it ended is sent without its start. At the other nodes an `EntryWriter`
restores the span of a point and writes it, after a translation to the local time that
may be refused. A record is skipped where the channel or the writer is not there.

The messages of a node also hold records of other entries; they only take room. `read`
and `prev` of a record and `written` of a node keep a record that no code reads.
-/

namespace Dueca.Inter

open Dueca.Lib

/-- A span of ticks. -/
structure DataTimeSpec where
  validityStart : ℕ
  validityEnd : ℕ
  deriving DecidableEq, Repr

/-- A data point in the entry, and the number of bytes of its packed data. -/
structure Point where
  ts : DataTimeSpec
  size : ℕ
  deriving DecidableEq, Repr

/-- What is sent of a point: whether the channel id says that a full span follows, the
ticks that are sent, and the number of bytes of the data. `read` is the span of the
point, and `prev` the end of the one sent before it. -/
structure Record where
  spanskip : Bool
  ticks : List ℕ
  size : ℕ
  read : DataTimeSpec
  prev : ℕ
  deriving DecidableEq, Repr

/-- The number of bytes that the size mark of a record stands for. -/
def Record.bytes (r : Record) : ℕ := 4 * r.ticks.length + r.size

/-- The bytes of channel id, entry id and size mark. -/
def headerBytes : ℕ := 6

/-! ### The sending side -/

/-- The reader; `points` are those of the entry, oldest first. -/
structure EntryReader where
  eventType : Bool
  lasttick : ℕ := 0
  tokenvalid : Bool := false
  firstread : Bool := true
  points : List Point := []
  readIndex : ℕ := 0
  deriving DecidableEq, Repr

namespace EntryReader

/-- Go to the last point of the entry, also when that has been read. -/
def flushOlderSets (r : EntryReader) : EntryReader :=
  if r.points = [] then r else { r with readIndex := r.points.length - 1 }

def flushEntry (r : EntryReader) : EntryReader :=
  if r.tokenvalid then r.flushOlderSets else r

/-- The span with which a point is read. -/
def spanOf (r : EntryReader) (p : Point) : DataTimeSpec :=
  if r.eventType then ⟨p.ts.validityStart, p.ts.validityStart⟩ else p.ts

/-- The record for the next point, as `readAndStoreData` codes it. -/
def nextRecord (r : EntryReader) : Option Record :=
  match r.points[r.readIndex]? with
  | none => none
  | some p =>
    let ts := r.spanOf p
    if r.lasttick ≠ ts.validityStart ∧ ¬ r.eventType then
      some ⟨true, [ts.validityStart, ts.validityEnd], p.size, ts, r.lasttick⟩
    else some ⟨false, [ts.validityEnd], p.size, ts, r.lasttick⟩

/-- `EntryReader::readChannel`, with room for a number of bytes. A record that does not fit
is packed again later. -/
def readChannel (r : EntryReader) (room : ℕ) : EntryReader × Option Record :=
  if r.tokenvalid then
    let r := if r.firstread then { r.flushOlderSets with firstread := false } else r
    match r.nextRecord with
    | none => (r, none)
    | some rec =>
      if headerBytes + rec.bytes ≤ room then
        ({ r with readIndex := r.readIndex + 1, lasttick := rec.read.validityEnd }, some rec)
      else (r, none)
  else (r, none)

/-- Pack records until there are no more points, or no more room. The first argument
bounds the number of rounds. -/
def packRecords : ℕ → EntryReader → ℕ → EntryReader × List Record
  | 0, r, _ => (r, [])
  | n + 1, r, room =>
    match r.readChannel room with
    | (r', none) => (r', [])
    | (r', some rec) =>
      let (r'', recs) := packRecords n r' (room - (headerBytes + rec.bytes))
      (r'', rec :: recs)

/-- The part of `_clientPackPayload` for this entry. -/
def packPayload (r : EntryReader) (room : ℕ) : EntryReader × List Record :=
  packRecords (r.points.length + 1) r room

end EntryReader

/-! ### The receiving side -/

/-- The writer. -/
structure EntryWriter where
  eventType : Bool
  lasttick : ℕ := 0
  deriving DecidableEq, Repr

/-- The span that `EntryWriter::writeChannel` restores for a record. -/
def EntryWriter.writeChannel (w : EntryWriter) (rec : Record) : EntryWriter × DataTimeSpec :=
  if w.eventType then (w, ⟨rec.ticks.getD 0 0, rec.ticks.getD 0 0⟩)
  else
    let ts : DataTimeSpec :=
      if rec.spanskip then ⟨rec.ticks.getD 0 0, rec.ticks.getD 1 0⟩
      else ⟨w.lasttick, rec.ticks.getD 0 0⟩
    ({ w with lasttick := ts.validityEnd }, ts)

/-- A node that follows the entry: whether it takes part, the messages on their way to it,
whether the channel is known and a writer for the entry is there. `written` are the spans
of the points it wrote, each with that of the point that was read. -/
structure Node where
  joined : Bool := false
  inbox : List (List Record) := []
  configured : Bool := false
  writer : Option EntryWriter := none
  written : List (DataTimeSpec × DataTimeSpec) := []
  deriving DecidableEq, Repr

/-- What ends a run: the reading position is lost. -/
inductive Fault | astray
  deriving DecidableEq, Repr

/-- Skip a record by its size mark, which has two bytes. -/
def Node.gobble (n : Node) (rec : Record) : Except Fault Node :=
  if rec.bytes < 65536 then .ok n else .error .astray

/-- The writer for the record, if the channel is known and has one. -/
def Node.target (n : Node) : Option EntryWriter := if n.configured then n.writer else none

/-- Unpack one record; `translates` tells which spans can be translated to local time. -/
def unpackRecord (translates : DataTimeSpec → Bool) (n : Node) (rec : Record) :
    Except Fault Node :=
  match n.target with
  | none => n.gobble rec
  | some w =>
    let (w', ts) := w.writeChannel rec
    let n' := { n with writer := some w' }
    if translates ts then .ok { n' with written := n'.written ++ [(rec.read, ts)] }
    else n'.gobble rec

/-- `_clientUnpackPayload`: the next message. -/
def unpackPayload (translates : DataTimeSpec → Bool) (n : Node) : Except Fault Node :=
  match n.inbox with
  | [] => .ok n
  | m :: ms => exec (unpackRecord translates) { n with inbox := ms } m

/-! ### The entry and the nodes that follow it -/

/-- An entry, its reader, and the other nodes. -/
structure Replication where
  reader : EntryReader
  nodes : ℕ → Node := fun _ => {}

/-- What can happen: a point is written on the entry, the reader's token becomes valid, its
data are flushed, or a message with some room is sent; a node joins or leaves, gets to
know the channel or forgets it, gets a writer or loses it, or unpacks its next message. -/
inductive ReplicationEvent
  | written (p : Point)
  | tokenIsValid
  | flushEntry
  | packPayload (room : ℕ)
  | join (k : ℕ)
  | leave (k : ℕ)
  | setChannel (k : ℕ) (configured : Bool)
  | addWriter (k : ℕ)
  | removeWriter (k : ℕ)
  | unpackPayload (k : ℕ) (translates : DataTimeSpec → Bool)

namespace Replication

def setReader (s : Replication) (r : EntryReader) : Replication := { s with reader := r }

def setNode (s : Replication) (k : ℕ) (n : Node) : Replication :=
  { s with nodes := Function.update s.nodes k n }

/-- A message goes to all nodes that take part. -/
def send (s : Replication) (m : List Record) : Replication :=
  { s with nodes := fun k =>
      if (s.nodes k).joined then { s.nodes k with inbox := (s.nodes k).inbox ++ [m] }
      else s.nodes k }

end Replication

/-- One step. -/
def replicationStep (s : Replication) : ReplicationEvent → Except Fault Replication
  | .written p => .ok (s.setReader { s.reader with points := s.reader.points ++ [p] })
  | .tokenIsValid => .ok (s.setReader { s.reader with tokenvalid := true })
  | .flushEntry => .ok (s.setReader s.reader.flushEntry)
  | .packPayload room =>
    let (r, m) := s.reader.packPayload room
    .ok ((s.setReader r).send m)
  | .join k => .ok (s.setNode k { s.nodes k with joined := true })
  | .leave k => .ok (s.setNode k { written := (s.nodes k).written })
  | .setChannel k configured => .ok (s.setNode k { s.nodes k with configured })
  | .addWriter k =>
    .ok (s.setNode k { s.nodes k with writer := some { eventType := s.reader.eventType } })
  | .removeWriter k => .ok (s.setNode k { s.nodes k with writer := none })
  | .unpackPayload k translates =>
    match unpackPayload translates (s.nodes k) with
    | .error e => .error e
    | .ok n => .ok (s.setNode k n)

end Dueca.Inter
