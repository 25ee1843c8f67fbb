import Dueca.Entry.Model

/-!
# Reading a channel entry

Sequential readers hold the point they read next, their `readIndex`, from the
moment they link. Other readers hold a point only while they access it. A
transporter reads sequentially through its packer client, and writes each point
to a store as a list of `Item`s; the bytes of an object are those of the entry's
converter, a parameter here.
-/

namespace Dueca.Entry

open Dueca.Lib UChannelEntryData

variable {D B : Type}

/-! ### Readers -/

/-- What a reader is told: the time of a point, and its data. -/
abbrev Reading (D : Type) := (ℕ × ℕ) × D

/-- Move the access at `a` over a gap, if there is one. -/
def skipGap (h : Heap D) (a : ℕ) : Except Fault (Heap D × ℕ) := do
  let n ← deref h a
  if n.seqId = 0 then
    let b ← follow n.newer
    let h ← incrementReadAccess h b
    let m ← deref h b
    let h ← releaseReadAccess h (← follow m.older)
    pure (h, b)
  else pure (h, a)

/-- Move the hold of a reader from the point `a` to the point `b`. -/
def switchAccess (h : Heap D) (c : Client) (a b : ℕ) : Except Fault (Heap D × Client) := do
  let h ← incrementReadAccess h b
  let h ← releaseReadAccess h a
  pure (h, { c with readIndex := some b })

/-- The next point of a sequential reader, if it is there and not too late. -/
def accessSequential (e : UChannelEntry D) (c : Client) (tLatest : ℕ) :
    Except Fault (Heap D × Client × Option (Reading D)) := do
  let (h, a) ← skipGap e.heap (← follow c.readIndex)
  let c := { c with readIndex := some a }
  let n ← deref h a
  -- the data is written before the sentinel, so test the sentinel
  if n.newer.isSome && n.beforeTick tLatest then
    let (c, res) ← getSequentialData h a { c with seqId := n.seqId } e.eventtype
    pure (h, c, res)
  else pure (h, c, none)

/-- From `a` back to the point that holds at the tick. No result means that the
data are lost or that the tick is in a gap. -/
def findBefore (h : Heap D) (oldest : ℕ) (tLatest : ℕ) :
    ℕ → ℕ → Except Fault (Option ℕ)
  | 0, _ => .error .endlessLoop
  | fuel + 1, a => do
    let n ← deref h a
    if n.afterTick tLatest then
      if a = oldest then pure none
      else
        let b ← follow n.older
        let m ← deref h b
        if m.seqId = 0 then
          if m.beforeTick tLatest then pure none
          else
            -- the point before the gap; only here is it compared with the oldest
            let b ← follow m.older
            let m ← deref h b
            if b = oldest && m.afterTick tLatest then pure none
            else findBefore h oldest tLatest fuel b
        else findBefore h oldest tLatest fuel b
    else pure (some a)

/-- A point for a reader that asks by time. -/
def accessTimed (e : UChannelEntry D) (c : Client) (tLatest : ℕ) :
    Except Fault (Heap D × Client × Option (Reading D)) := do
  let o ← deref e.heap e.oldest
  -- the oldest point is locked for the time of the search
  if o.readAccesses = 0 then throw .endlessLoop
  let l ← deref e.heap e.latest
  let a ← follow l.older
  let n ← deref e.heap a
  if n.data.isNone then pure (e.heap, c, none)
  else
    match ← findBefore e.heap e.oldest tLatest (e.fresh + 1) a with
    | none => pure (e.heap, c, none)
    | some b => do
      let m ← deref e.heap b
      let (h, c, res) ← getData e.heap b c e.eventtype
      pure (h, if res.isSome then { c with seqId := m.seqId } else c, res)

/-- Access to the data of an entry. -/
def accessData (e : UChannelEntry D) (c : Client) (tLatest : ℕ) :
    Except Fault (Heap D × Client × Option (Reading D)) :=
  if !e.valid then pure (e.heap, c, none)
  else if c.sequentialRead then accessSequential e c tLatest
  else accessTimed e c tLatest

/-- The reader is ready with its point; a sequential reader goes on to the next. -/
def releaseData (e : UChannelEntry D) (c : Client) : Except Fault (Heap D × Client) :=
  if c.sequentialRead then do
    let n ← deref e.heap (← follow c.readIndex)
    let b ← follow n.newer
    let h ← incrementReadAccess e.heap b
    returnData h { c with readIndex := some b }
  else returnData e.heap c

/-- The reader gives its point back, and will read it again. -/
def releaseDataNoStep (e : UChannelEntry D) (c : Client) : Except Fault (Heap D × Client) :=
  if c.sequentialRead then do
    let h ← incrementReadAccess e.heap (← follow c.accessed)
    returnData h c
  else returnData e.heap c

/-- The reader keeps the data and goes on. -/
def releaseOnlyAccess (e : UChannelEntry D) (c : Client) : Except Fault (Heap D × Client) :=
  if c.sequentialRead then do
    let n ← deref e.heap (← follow c.accessed)
    let b ← follow n.newer
    let h ← incrementReadAccess e.heap b
    assumeData h { c with readIndex := some b }
  else assumeData e.heap c

/-- Skip to the latest point with data. -/
def spinToLast (e : UChannelEntry D) (c : Client) : Except Fault (Heap D × Client × ℕ) := do
  require c.sequentialRead
  let ed ← follow c.readIndex
  let l ← deref e.heap e.latest
  match l.older with
  | none => pure (e.heap, c, 0)
  | some spinto =>
    if ed = spinto then pure (e.heap, c, 0)
    else do
      let (h, ed) ← skipGap e.heap ed
      let n ← deref h ed
      let m ← deref h spinto
      let (h, c) ← switchAccess h c ed spinto
      pure (h, c, idDifference m.seqId n.seqId)

/-- From `a` back to a point that passes the test, or to `stop`. -/
def spinBack (h : Heap D) (late : UChannelEntryData D → Bool) (stop : ℕ) :
    ℕ → ℕ → Except Fault ℕ
  | 0, _ => .error .endlessLoop
  | fuel + 1, a => do
    let n ← deref h a
    if late n && a ≠ stop then
      spinBack h late stop fuel (← follow n.older)
    else pure a

/-- The point `a`, or the next one when `a` is a gap. -/
def afterGap (h : Heap D) (a : ℕ) : Except Fault ℕ := do
  let n ← deref h a
  if n.seqId = 0 then follow n.newer else pure a

/-- Skip to the last point of before a tick. -/
def spinToLastBefore (e : UChannelEntry D) (c : Client) (tLatest : ℕ) :
    Except Fault (Heap D × Client × ℕ) := do
  require c.sequentialRead
  let myoldest ← follow c.readIndex
  let l ← deref e.heap e.latest
  let a ← follow l.older
  let n ← deref e.heap a
  if n.data.isNone then pure (e.heap, c, 0)
  else
    let late (n : UChannelEntryData D) :=
      if e.eventtype then n.onOrAfterTick tLatest else n.afterTick tLatest
    let a ← spinBack e.heap late myoldest (e.fresh + 1) a
    let spinto ← afterGap e.heap a
    if spinto = myoldest then pure (e.heap, c, 0)
    else
      let m ← deref e.heap spinto
      let o ← deref e.heap myoldest
      let (h, c) ← switchAccess e.heap c myoldest spinto
      pure (h, c, idDifference m.seqId o.seqId)

/-- Skip all data. -/
def flushAll (e : UChannelEntry D) (c : Client) : Except Fault (Heap D × Client × ℕ) := do
  require c.sequentialRead
  let ed ← follow c.readIndex
  if ed = e.latest then pure (e.heap, c, 0)
  else
    let (h, ed) ← skipGap e.heap ed
    let n ← deref h ed
    let l ← deref h e.latest
    let p ← deref h (← follow l.older)
    let (h, c) ← switchAccess h c ed e.latest
    pure (h, c, (idDifference p.seqId n.seqId + 1) % 4294967296)

/-- Skip one point. -/
def flushOne (e : UChannelEntry D) (c : Client) : Except Fault (Heap D × Client × ℕ) := do
  require c.sequentialRead
  let ed ← follow c.readIndex
  if ed = e.latest then pure (e.heap, c, 0)
  else
    let (h, ed) ← skipGap e.heap ed
    let n ← deref h ed
    let (h, c) ← switchAccess h c ed (← follow n.newer)
    pure (h, c, 1)

/-- A new reader. A sequential one holds the oldest point; another one has the
entry keep its data for some time. -/
def link (e : UChannelEntry D) (sequentialRead : Bool) (span : ℕ) (depth : ℕ) :
    Except Fault (UChannelEntry D) :=
  if sequentialRead then do
    let e' ← latchSequentialRead e
    let c : Client := { sequentialRead := true, readIndex := some e.oldest }
    pure { e' with clients := e.clients ++ [c] }
  else
    let c : Client := { sequentialRead := false, readIndex := none }
    pure { e with
      span := max span e.span
      depth := max depth e.depth
      clients := e.clients ++ [c] }

/-- The link of a reader is removed; its handle stays. -/
def detach (e : UChannelEntry D) (c : Client) : Except Fault (Heap D × Client) :=
  match c.sequentialRead, c.readIndex with
  | true, some a => do
    let h ← releaseReadAccess e.heap a
    pure (h, { c with linked := false })
  | _, _ => pure (e.heap, { c with linked := false })

/-! ### The monitor -/

/-- Access to the latest data without a client. -/
def monitorLatestData (e : UChannelEntry D) :
    Except Fault (UChannelEntry D × Option (Reading D)) := do
  require e.monitored.isNone
  let o ← deref e.heap e.oldest
  if o.readAccesses = 0 then throw .endlessLoop
  let l ← deref e.heap e.latest
  let a ← follow l.older
  let n ← deref e.heap a
  match n.data with
  | none => pure (e, none)
  | some d =>
    if n.newer.isNone || n.readAccesses = 0 then pure ({ e with monitored := some a }, none)
    else do
      let ts ← actualTime e.heap n e.eventtype
      pure ({ e with heap := store e.heap a n.increment, monitored := some a }, some (ts, d))

def monitorReleaseData (e : UChannelEntry D) : Except Fault (UChannelEntry D) := do
  require e.monitored.isSome
  let heap ← releaseReadAccess e.heap (← follow e.monitored)
  pure { e with heap := heap, monitored := none }

/-! ### Transport -/

/-- The converter of a data class, with objects `D` coded as `B`. -/
structure DataSetConverter (D B : Type) where
  packData : D → B
  packDataDiff : D → D → B
  create : B → D
  createDiff : B → D → D

/-- A converter that codes each object as itself. -/
def DataSetConverter.verbatim (D : Type) : DataSetConverter D D where
  packData d := d
  packDataDiff d _ := d
  create b := b
  createDiff b _ := b

/-- The message types that open a packed point. -/
inductive Request | timeJump | fullData | diffData
  deriving DecidableEq, Repr

/-- What is written to a store in one piece. -/
inductive Item (B : Type)
  | request (r : Request)
  | entryId (id : ℕ)
  | tick (t : ℕ)
  | object (b : B)
  deriving DecidableEq, Repr

/-- The outcome of packing: the items are in the store, the store threw
`AmorphStoreBoundary`, or the entry threw `entryinvalid`. -/
inductive PackResult (B : Type)
  | packed (items : List (Item B))
  | boundary
  | invalid
  deriving DecidableEq, Repr

/-- Data for packing. A gap is stepped over in the handle, and asks for a full
pack in the copy of the packer's data. -/
def accessPackData (e : UChannelEntry D) (p : PackerClient) :
    Except Fault (Heap D × PackerClient × Reading D) := do
  let ed ← follow p.handle.readIndex
  let g ← deref e.heap ed
  let (h, a) ← skipGap e.heap ed
  let sendFull := p.sendFull || g.seqId = 0
  let n ← deref h a
  let (handle, res) ← getSequentialData h a { p.handle with readIndex := some a } e.eventtype
  match res with
  | none => throw .assertion
  | some reading => pure (h, { p with sendFull, seqId := n.seqId, handle }, reading)

/-- The items of a point, and the packer's data after it. -/
def packItems (conv : DataSetConverter D B) (e : UChannelEntry D) (h : Heap D)
    (p : PackerClientData) (reading : Reading D) :
    Except Fault (List (Item B) × PackerClientData) := do
  let ((start, end_), data) := reading
  let jump : List (Item B) :=
    if !e.eventtype && p.validityEnd ≠ start then
      [.request .timeJump, .entryId e.entryId, .tick start]
    else []
  let validityEnd := if e.eventtype then p.validityEnd else end_
  if p.sendFull then
    pure (jump ++ [.request .fullData, .entryId e.entryId, .tick end_, .object (conv.packData data)],
      { p with validityEnd, sendFull := e.fullpackmode })
  else do
    let n ← deref h (← follow p.previousData)
    -- the data is gone when a reader took it
    match n.data with
    | none => throw .freedPointer
    | some previous =>
      pure (jump ++ [.request .diffData, .entryId e.entryId, .tick end_,
        .object (conv.packDataDiff data previous)], { p with validityEnd })

/-- Pack one point for a transporter; `room` tells whether the store has room for
the items. The packer's data change only when everything was packed. -/
def packData (conv : DataSetConverter D B) (e : UChannelEntry D) (idx seqid : ℕ)
    (room : List (Item B) → Bool) : Except Fault (UChannelEntry D × PackResult B) :=
  if !e.valid then pure (e, .invalid)
  else
    match e.pclients[idx]? with
    | none => throw .noClient
    | some p => do
      let (h, p', reading) ← accessPackData e p
      -- what `accessPackData` does to the handle is not undone
      let accessed := { p with handle := p'.handle }
      let failed := { e with heap := h, pclients := e.pclients.set idx accessed }
      if e.entryId = entryEnd then
        let items : List (Item B) := [.object (conv.packData reading.2)]
        if room items then pure ({ failed with pclients := e.pclients.set idx p' }, .packed items)
        else pure (failed, .boundary)
      else
        require (seqid = p'.seqId)
        let (items, data) ← packItems conv e h p'.toPackerClientData reading
        let packed := { data with
          previousData := p'.handle.accessed, handle := p'.handle : PackerClient }
        if room items then
          pure ({ failed with pclients := e.pclients.set idx packed }, .packed items)
        else pure (failed, .boundary)

/-- Packing succeeded; the packer goes on to the next point. -/
def packComplete (e : UChannelEntry D) (idx : ℕ) : Except Fault (UChannelEntry D) :=
  match e.pclients[idx]? with
  | none => throw .noClient
  | some p => do
    let n ← deref e.heap (← follow p.handle.readIndex)
    let m ← deref e.heap (← follow p.handle.accessed)
    let h ← incrementReadAccess e.heap (← follow m.newer)
    let (h, handle) ← returnData h { p.handle with readIndex := n.newer }
    pure { e with heap := h, pclients := e.pclients.set idx { p with handle } }

/-- Packing failed; the point will be packed again. -/
def packFailed (e : UChannelEntry D) (idx : ℕ) : Except Fault (UChannelEntry D) :=
  match e.pclients[idx]? with
  | none => throw .noClient
  | some p =>
    pure { e with
      pclients := e.pclients.set idx { p with handle := { p.handle with accessed := none } } }

/-! ### Runs -/

/-- The operations on an entry, and those on its channel that concern it. -/
inductive Op (D : Type)
  | newData (data : D) (t : DataTimeSpec) (current : Bool)
  | link (sequentialRead : Bool) (span : ℕ) (depth : ℕ)
  | detach (i : ℕ)
  | accessData (i : ℕ) (tLatest : ℕ)
  | releaseData (i : ℕ)
  | releaseDataNoStep (i : ℕ)
  | releaseOnlyAccess (i : ℕ)
  | flushOne (i : ℕ)
  | flushAll (i : ℕ)
  | spinToLast (i : ℕ)
  | spinToLastBefore (i : ℕ) (tLatest : ℕ)
  | monitorLatestData
  | monitorReleaseData
  | addRemoteDestination
  | incrementVersion
  | refreshTransporters
  | packData (idx seqid : ℕ) (fits : Bool)
  | packComplete (idx : ℕ)
  | packFailed (idx : ℕ)
  | removeSaveUp
  | setValid (id : ℕ)
  | setConfValid

/-- An operation of the linked client `i`. -/
def withClient (e : UChannelEntry D) (i : ℕ) (f : Client → Except Fault (Heap D × Client)) :
    Except Fault (UChannelEntry D) :=
  match e.clients[i]? with
  | none => .error .noClient
  | some c =>
    if c.linked then do
      let (heap, c') ← f c
      pure { e with heap := heap, clients := e.clients.set i c' }
    else .error .noClient

/-- An operation of which the result does not matter here. -/
def dropResult {R : Type} (res : Except Fault (Heap D × Client × R)) :
    Except Fault (Heap D × Client) := do
  let (h, c, _) ← res
  pure (h, c)

/-- One operation, with the transport work it announces. Sizes do not matter to
the entry, so a store either has room or has not. -/
def step (conv : DataSetConverter D B) (e : UChannelEntry D) :
    Op D → Except Fault (UChannelEntry D × List PackUnit)
  | .newData data t current => newData e data t current
  | .link sequentialRead span depth => do pure (← link e sequentialRead span depth, [])
  | .detach i => do pure (← withClient e i (detach e), [])
  | .accessData i t => do pure (← withClient e i fun c => dropResult (accessData e c t), [])
  | .releaseData i => do pure (← withClient e i (releaseData e), [])
  | .releaseDataNoStep i => do pure (← withClient e i (releaseDataNoStep e), [])
  | .releaseOnlyAccess i => do pure (← withClient e i (releaseOnlyAccess e), [])
  | .flushOne i => do pure (← withClient e i fun c => dropResult (flushOne e c), [])
  | .flushAll i => do pure (← withClient e i fun c => dropResult (flushAll e c), [])
  | .spinToLast i => do pure (← withClient e i fun c => dropResult (spinToLast e c), [])
  | .spinToLastBefore i t => do
    pure (← withClient e i fun c => dropResult (spinToLastBefore e c t), [])
  | .monitorLatestData => do pure ((← monitorLatestData e).1, [])
  | .monitorReleaseData => do pure (← monitorReleaseData e, [])
  | .addRemoteDestination =>
    pure ({ e with
      channelVersion := e.channelVersion + 1
      transporters := e.transporters + 1 }, [])
  | .incrementVersion => pure ({ e with channelVersion := e.channelVersion + 1 }, [])
  | .refreshTransporters => refreshTransporters e
  | .packData idx seqid fits => do
    pure ((← packData conv e idx seqid fun _ => fits).1, [])
  | .packComplete idx => do pure (← packComplete e idx, [])
  | .packFailed idx => do pure (← packFailed e idx, [])
  | .removeSaveUp => do
    require (e.saveup = .saveUp)
    pure ({ e with saveup := .saveUpTryRemove }, [])
  | .setValid id => do
    require (id ≠ entryEnd)
    pure ({ e with entryId := id, valid := true }, [])
  | .setConfValid => pure ({ e with valid := true }, [])

/-- One operation, without the work it announces. -/
def advance (conv : DataSetConverter D B) (e : UChannelEntry D) (op : Op D) :
    Except Fault (UChannelEntry D) := do
  pure (← step conv e op).1

end Dueca.Entry
