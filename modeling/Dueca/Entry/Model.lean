import Dueca.Entry.Data

/-!
# A channel entry

`UChannelEntry` keeps the data written by one writer as a chain of points from
`cleanup` to `latest`. Points before `oldest` are retired; `latest` is a sentinel
without data. Readers link to an entry, and each transporter of the channel has
a packer client that reads the entry point by point.

`newData` frees and retires old points, and then writes. The model leaves out
triggering and log messages.
-/

namespace Dueca.Entry

open Dueca.Lib UChannelEntryData

variable {D : Type}

/-! ### State -/

/-- `entry_end`, the id of an entry that was not yet given one. -/
def entryEnd : ℕ := 0xffff

/-- Whether data is saved up for expected readers. -/
inductive SaveUpMode | noSaveUp | saveUpTryRemove | saveUp
  deriving DecidableEq, Repr

/-- What a packer client keeps besides its handle. `previousData` is a pointer
to data, given here as the address of the point that owns the data. -/
structure PackerClientData where
  validityEnd : ℕ := maxTimetick
  previousData : Option ℕ := none
  sendFull : Bool := true
  seqId : ℕ := 0
  deriving DecidableEq, Repr

/-- The client of an entry that packs for one transporter. -/
structure PackerClient extends PackerClientData where
  handle : Client
  deriving DecidableEq, Repr

/-- An entry. `transporters` and `channelVersion` belong to its channel. -/
structure UChannelEntry (D : Type) where
  heap : Heap D
  /-- The next address of the heap. -/
  fresh : ℕ
  cleanup : ℕ
  oldest : ℕ
  latest : ℕ
  monitored : Option ℕ := none
  writer : Bool
  entryId : ℕ := entryEnd
  valid : Bool := false
  eventtype : Bool
  fullpackmode : Bool
  saveup : SaveUpMode
  span : ℕ := 20
  depth : ℕ := 1
  configVersion : ℕ := 0
  jumptime : ℕ := maxTimetick
  clients : List Client := []
  pclients : List PackerClient := []
  transporters : ℕ := 0
  channelVersion : ℕ := 0

/-- A new entry: a point without data to clean up, and the sentinel, which
carries the latch of a saveup. -/
def UChannelEntry.create (writer eventtype fullpackmode : Bool) (nreservations : ℕ) :
    UChannelEntry D where
  heap a :=
    if a = 0 then some { withData 0 none none 0 with newer := some 1 }
    else if a = 1 then
      let n := sentinel 0 0 (withData 0 none none 0)
      some (if 0 < nreservations then n.increment else n)
    else none
  fresh := 2
  cleanup := 0
  oldest := 1
  latest := 1
  writer := writer
  eventtype := eventtype
  fullpackmode := fullpackmode
  saveup := if 0 < nreservations then .saveUp else .noSaveUp

/-- The work of a packer: an item of the entry for the transporter `idx`. -/
structure PackUnit where
  idx : ℕ
  tick : ℕ
  deriving DecidableEq, Repr

/-! ### Writing -/

/-- Free the points before `oldest` that nobody uses, except the last one. -/
def recycle : ℕ → UChannelEntry D → Except Fault (UChannelEntry D)
  | 0, _ => .error .endlessLoop
  | fuel + 1, e => do
    let n ← deref e.heap e.cleanup
    if n.newer ≠ some e.oldest && tryRecycle n then
      -- the source asserts that there is a next point
      let next ← follow n.newer
      recycle fuel { e with heap := Function.update e.heap e.cleanup none, cleanup := next }
    else pure e

/-- Make points that are too old unavailable for new reads. -/
def retire : ℕ → ℕ → UChannelEntry D → Except Fault (UChannelEntry D)
  | 0, _, _ => .error .endlessLoop
  | fuel + 1, now, e => do
    let n ← deref e.heap e.oldest
    let l ← deref e.heap e.latest
    let old ← obsolete e.heap n now e.span
    -- a gap counts as id 0
    if old && e.depth < idDifference l.seqId n.seqId then
      let next ← follow n.newer
      retire fuel now { e with oldest := next }
    else pure e

/-- A new sentinel behind the point `a`. -/
def appendSentinel (e : UChannelEntry D) (ts : ℕ) (a : ℕ) :
    Except Fault (UChannelEntry D) := do
  let n ← deref e.heap a
  let heap := store e.heap a { n with newer := some e.fresh }
  pure { e with
    heap := store heap e.fresh (sentinel ts a n)
    fresh := e.fresh + 1
    latest := e.fresh }

/-- Lock the oldest point, and hold it for a sequential reader. The lock itself
is released at once; only a point that is being freed cannot be locked. -/
def latchSequentialRead (e : UChannelEntry D) : Except Fault (UChannelEntry D) := do
  let n ← deref e.heap e.oldest
  if n.readAccesses = 0 then throw .endlessLoop
  pure { e with heap := store e.heap e.oldest n.increment }

/-- The sequence ids of the points from `s` until `stop`, without the gaps. -/
def pendingSeqIds (h : Heap D) (stop : ℕ) : ℕ → Option ℕ → Except Fault (List ℕ)
  | 0, _ => .error .endlessLoop
  | _ + 1, none => pure []
  | fuel + 1, some s =>
    if s = stop then pure []
    else do
      let n ← deref h s
      let ids ← pendingSeqIds h stop fuel n.newer
      pure (if n.seqId = 0 then ids else n.seqId :: ids)

/-- A packer client for the next transporter, and its work so far. -/
def addPacker (e : UChannelEntry D) : Except Fault (UChannelEntry D × List PackUnit) := do
  let idx := e.pclients.length
  let e' ← latchSequentialRead e
  let handle : Client := { sequentialRead := true, readIndex := some e.oldest }
  let ids ← if e.latest ≠ e.oldest then
      pendingSeqIds e'.heap e.latest (e.fresh + 1) (some e.oldest)
    else pure []
  let pclient : PackerClient := { handle := handle, seqId := ids.getLast?.getD 0 }
  pure ({ e' with pclients := e'.pclients ++ [pclient] }, ids.map (PackUnit.mk idx))

/-- Packer clients for the next `n` transporters. -/
def addPackers : ℕ → UChannelEntry D → Except Fault (UChannelEntry D × List PackUnit)
  | 0, e => pure (e, [])
  | n + 1, e => do
    let (e, work) ← addPacker e
    let (e, more) ← addPackers n e
    pure (e, work ++ more)

/-- Packer clients for all transporters of the channel. Their number only grows. -/
def refreshTransporters (e : UChannelEntry D) :
    Except Fault (UChannelEntry D × List PackUnit) :=
  if e.writer then
    if e.pclients.length = e.transporters then pure (e, [])
    else do
      require (e.pclients.length < e.transporters)
      addPackers (e.transporters - e.pclients.length) e
  else do
    require (e.pclients.length = 0)
    pure (e, [])

/-- The configuration is refreshed when that of the channel has changed. -/
def refreshEntryConfig (e : UChannelEntry D) :
    Except Fault (UChannelEntry D × List PackUnit) :=
  if e.channelVersion ≠ e.configVersion then do
    let (e, work) ← refreshTransporters e
    pure ({ e with configVersion := e.channelVersion }, work)
  else pure (e, [])

/-- Each transporter is told about the new point. -/
def thereIsNewTransportWork (e : UChannelEntry D) (seqId : ℕ) : List PackUnit :=
  (List.range e.transporters).map fun idx => ⟨idx, seqId⟩

/-- The saveup latch goes when all clients are up to date, which the channel
tells in `current`. -/
def saveupRemoveInner (e : UChannelEntry D) (current : Bool) : Except Fault (UChannelEntry D) :=
  if current then do
    let heap ← releaseReadAccess e.heap e.oldest
    pure { e with heap := heap, saveup := .noSaveUp }
  else pure e

/-- The clean-up at the start of a write. -/
def cleanUp (e : UChannelEntry D) (now : ℕ) : Except Fault (UChannelEntry D) := do
  let e ← recycle (e.fresh + 1) e
  retire (e.fresh + 1) now e

/-- Write into the sentinel: set its time, when given, and its data; refresh the
configuration, and append a new sentinel. -/
def fillSentinel (e : UChannelEntry D) (start : Option ℕ) (data : D) (ts : ℕ) :
    Except Fault (UChannelEntry D × List PackUnit) := do
  let n ← deref e.heap e.latest
  let filled := { n with timeOrTimeEnd := start.getD n.timeOrTimeEnd, data := some data }
  let e := { e with heap := store e.heap e.latest filled }
  let (e, work) ← refreshEntryConfig e
  let e ← appendSentinel e ts e.latest
  pure (e, work)

/-- Write behind a gap: the sentinel loses its id and marks the gap, and the
data gets a point of its own. -/
def fillBehindGap (e : UChannelEntry D) (start : ℕ) (data : D) (ts : ℕ) :
    Except Fault (UChannelEntry D × List PackUnit) := do
  let n ← deref e.heap e.latest
  let gap := { n with seqId := 0, newer := some e.fresh }
  let ewithdata := e.fresh
  let e := { e with
    heap := store (store e.heap e.latest gap) e.fresh
      (withData start (some data) (some e.latest) n.seqId)
    fresh := e.fresh + 1 }
  let (e, work) ← refreshEntryConfig e
  let e ← appendSentinel e ts ewithdata
  pure (e, work)

/-- What follows an accepted write: the saveup latch, and the transport. -/
def afterWrite (e : UChannelEntry D) (seqId : ℕ) (current : Bool) (work : List PackUnit) :
    Except Fault (UChannelEntry D × List PackUnit) := do
  let e ← if e.saveup = .saveUpTryRemove then saveupRemoveInner e current else pure e
  pure (e, work ++ if e.writer && e.pclients.length ≠ 0 then thereIsNewTransportWork e seqId else [])

/-- Write a data point in the chain with sentinel `l`. -/
def writeData (e : UChannelEntry D) (l : UChannelEntryData D) (data : D) (t : DataTimeSpec)
    (current : Bool) : Except Fault (UChannelEntry D × List PackUnit) :=
  if e.eventtype then do
    let (e, work) ← fillSentinel e (some t.validityStart) data 0
    afterWrite e l.seqId current work
  else if l.seqId = 1 then do
    -- the first point of a stream
    let (e, work) ← fillSentinel e (some t.validityStart) data t.validityEnd
    afterWrite e l.seqId current work
  else if l.timeOrTimeEnd < t.validityStart then do
    let (e, work) ← fillBehindGap e t.validityStart data t.validityEnd
    afterWrite e l.seqId current work
  else if l.timeOrTimeEnd < t.validityEnd then do
    let (e, work) ← fillSentinel e none data t.validityEnd
    afterWrite e l.seqId current work
  else
    -- writing not sequential: neither triggering nor transport
    pure (e, [])

/-- Write a data point, after a clean-up. -/
def newData (e : UChannelEntry D) (data : D) (t : DataTimeSpec) (current : Bool) :
    Except Fault (UChannelEntry D × List PackUnit) := do
  let e ← cleanUp e t.validityStart
  let l ← deref e.heap e.latest
  writeData e l data t current

end Dueca.Entry
