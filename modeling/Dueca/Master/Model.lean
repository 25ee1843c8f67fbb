import Dueca.Channel.Messages
import Dueca.Lib.Run

/-!
# The channel master

`UnifiedChannelMaster` issues entry ids, counts reservations and cleans up after
deleted entries. Requests arrive in a queue; `process` serves them in order and
writes commands for the ends, and `sweep` starts a cleaning round for the entry
at the head of the cleaning list.

A request is served by `processOne`. It stops with a `Fault` where the source
fails an assertion or takes the front of an empty list. Besides the commands it
sends, `processOne` reports each reservation it takes off an entry, as an
`Effect.count`; the source has no such report, and nothing in the model reads it.
-/

namespace Dueca.Master

open Dueca.Lib

/-- Where the master stops: a failed assertion, or `front()` of an empty list. -/
inductive Fault | assertion | emptyFront
  deriving DecidableEq, Repr

/-- What the master records of an entry. -/
structure EntryData where
  active : Bool := true
  dataclassname : String
  entrylabel : String
  origin : ℕ
  writerid : GlobalId
  iseventtype : Bool
  reservations : ℕ
  takesReservations : Bool
  deriving DecidableEq, Repr

/-- An entry waiting to be confirmed clean by all ends. -/
structure CleaningData where
  entry : ℕ
  stilldirty : ℕ
  round : ℕ := 0
  deriving DecidableEq, Repr

/-- What the master records of a reading client. -/
structure ClientData where
  dataclassname : String
  entrylabel : String
  origin : ℕ
  requestEntry : ℕ
  reservation : Bool
  reservationUsed : Bool := false
  deriving DecidableEq, Repr

/-- Whether the channel admits one entry or more. -/
inductive EntryArity | unspecified | singleEntry | multiEntry
  deriving DecidableEq, Repr

/-- The master of a channel. -/
structure UnifiedChannelMaster where
  numEnds : ℕ := 0
  entries : List EntryData := []
  toBeCleaned : List CleaningData := []
  reusable : List ℕ := []
  arity : EntryArity := .unspecified
  clients : List ClientData := []
  deriving DecidableEq, Repr

/-- A message written to the command queue, or a reservation taken off an entry. -/
inductive Effect
  | send (msg : UChannelCommRequest)
  | count (client : ℕ) (entry : ℕ)
  deriving DecidableEq, Repr

section Matching

variable (reg : DataClassRegistry)

/-- The class and selection tests of `ClientData::matches`. -/
def ClientData.selects (c : ClientData) (o : EntryData) (handle : ℕ) : Bool :=
  (reg.lineage o.dataclassname).contains c.dataclassname &&
    (c.requestEntry == entryAny ||
      (c.requestEntry == entryBylabel && c.entrylabel == o.entrylabel) ||
      c.requestEntry == handle)

/-- `ClientData::matches`: whether the client's reservation applies to the entry.
A client for one specific entry has its reservation marked used. -/
def ClientData.matches (c : ClientData) (o : EntryData) (handle : ℕ) :
    Bool × ClientData :=
  if !c.reservation || c.reservationUsed || !o.takesReservations then (false, c)
  else if !c.selects reg o handle then (false, c)
  else if c.requestEntry == entryAny then (true, c)
  else (true, { c with reservationUsed := true })

end Matching

namespace UnifiedChannelMaster

/-- `sendNewEntryConf`: announce entry `id`, if it is active. -/
def sendNewEntryConf (m : UnifiedChannelMaster) (id : ℕ) : List Effect :=
  match m.entries[id]? with
  | none => []
  | some e =>
    if e.active then
      [.send { type := .newEntryConf
               extra := (if e.iseventtype then 1 else 0) |||
                 (if m.arity = .singleEntry then 2 else 0) |||
                 (if e.reservations ≠ 0 then 4 else 0)
               data0 := id, data1 := e.origin, origin := e.writerid
               dataclassname := e.dataclassname, entrylabel := e.entrylabel }]
    else []

/-- The record made for a `NewEntryReq`. -/
def newRecord (r : UChannelCommRequest) : EntryData where
  dataclassname := r.dataclassname
  entrylabel := r.entrylabel
  origin := r.data1
  writerid := r.origin
  iseventtype := r.extra.testBit 0
  reservations := r.data0
  takesReservations := r.data0 ≠ 0

/-- The arity check of a `NewEntryReq`: the new arity, or `none` when the request
is refused with a warning. -/
def checkArity (m : UnifiedChannelMaster) (r : UChannelCommRequest) : Option EntryArity :=
  if r.extra.testBit 1 then
    if m.arity = .unspecified ∧ m.entries.length = 0 then some .singleEntry else none
  else if m.arity = .singleEntry then none
  else some m.arity

/-- Store a new record under a reusable id, or under the next free one. `none`
when all ids have been issued. -/
def issueId (m : UnifiedChannelMaster) (record : EntryData) :
    Except Fault (Option (ℕ × UnifiedChannelMaster)) :=
  match m.reusable with
  | newid :: rest =>
    match m.entries[newid]? with
    | none => .error .assertion
    | some old =>
      if old.active then .error .assertion
      else .ok (some (newid, { m with entries := m.entries.set newid record, reusable := rest }))
  | [] =>
    if m.entries.length < entryBylabel - 1 then
      .ok (some (m.entries.length, { m with entries := m.entries ++ [record] }))
    else .ok none

/-- The loop of a `NewEntryReq` over the waiting clients. `left` is the number of
reservations that entry `o` still has; the result holds the clients as left
behind, the remaining reservations and the clients that were counted. -/
def takeReservations (reg : DataClassRegistry) (o : EntryData) (newid : ℕ) :
    List ClientData → ℕ → List ClientData × ℕ × List ℕ
  | [], left => ([], left, [])
  | cc :: rest, left =>
    let hit := cc.matches reg o newid
    if hit.1 && hit.2.reservation && left ≠ 0 then
      let next := takeReservations reg o newid rest (left - 1)
      (hit.2 :: next.1, next.2.1, cc.origin :: next.2.2)
    else
      let next := takeReservations reg o newid rest left
      (hit.2 :: next.1, next.2.1, next.2.2)

/-- A command for one entry id. -/
def entryCommand (type : UChannelMessageType) (id : ℕ) : Effect :=
  .send { type := type, data0 := id }

/-- Serve a `NewEntryReq`. -/
def newEntryReq (reg : DataClassRegistry) (m : UnifiedChannelMaster) (r : UChannelCommRequest) :
    Except Fault (UnifiedChannelMaster × List Effect) :=
  if r.origin = {} then .error .assertion
  else match m.checkArity r with
  | none => .ok (m, [])
  | some arity =>
    match issueId { m with arity := arity } (newRecord r) with
    | .error f => .error f
    | .ok none => .ok ({ m with arity := arity }, [])
    | .ok (some (newid, m')) =>
      if r.data0 = 0 then .ok (m', m'.sendNewEntryConf newid)
      else
        let used := takeReservations reg (newRecord r) newid m'.clients r.data0
        .ok ({ m' with
                clients := used.1
                entries := m'.entries.set newid { newRecord r with reservations := used.2.1 } },
          m'.sendNewEntryConf newid ++ used.2.2.map (.count · newid) ++
            if used.2.1 = 0 then [entryCommand .removeSaveupCmd newid] else [])

/-- The highest handle below `n` whose entry has the given provisional id. -/
def findOrigin (entries : List EntryData) (provisionalId : ℕ) : ℕ → Option ℕ
  | 0 => none
  | handle + 1 =>
    if (entries[handle]?).any (·.origin == provisionalId) then some handle
    else findOrigin entries provisionalId handle

/-- Serve a `DeleteEntryReq`. -/
def deleteEntryReq (m : UnifiedChannelMaster) (r : UChannelCommRequest) :
    Except Fault (UnifiedChannelMaster × List Effect) :=
  match findOrigin m.entries r.data1 m.entries.length with
  | none => .ok (m, [])
  | some handle =>
    match m.entries[handle]? with
    | none => .error .assertion
    | some e =>
      if !e.active then .error .assertion
      else .ok ({ m with
          toBeCleaned := m.toBeCleaned ++ [{ entry := handle, stilldirty := m.numEnds }]
          entries := m.entries.set handle { e with origin := 0, active := false } },
        [entryCommand .invalidateEntryCmd handle])

/-- Serve a `CleanEntryConf`. The head of the cleaning list is read for any such
message; `stilldirty` counts down modulo `2 ^ 32`. -/
def cleanEntryConf (m : UnifiedChannelMaster) (r : UChannelCommRequest) :
    Except Fault (UnifiedChannelMaster × List Effect) :=
  match m.toBeCleaned with
  | [] => .error .emptyFront
  | front :: rest =>
    if front.round = r.data1 ∧ front.entry = r.data0 then
      let stilldirty := (front.stilldirty + (2 ^ 32 - 1)) % 2 ^ 32
      if stilldirty = 0 then
        .ok ({ m with reusable := m.reusable ++ [r.data0], toBeCleaned := rest },
          [entryCommand .deleteEntryCmd r.data0])
      else .ok ({ m with toBeCleaned := { front with stilldirty := stilldirty } :: rest }, [])
    else .ok (m, [])

/-- Serve a `NewEndJoins`: welcome the end, and announce all active entries again. -/
def newEndJoins (m : UnifiedChannelMaster) (r : UChannelCommRequest) :
    UnifiedChannelMaster × List Effect :=
  let m' := { m with numEnds := (m.numEnds + 1) % 2 ^ 32 }
  (m', .send { type := .newEndWelcome, data0 := r.data0, data1 := m'.numEnds } ::
    (List.range m.entries.length).reverse.flatMap m'.sendNewEntryConf)

/-- The loop of a `NewClientNotif` over the entries, from handle `n - 1` down.
`record` is the local record that `matches` marks; the copy already stored in the
client list stays as it is. -/
def serveClient (reg : DataClassRegistry) :
    ℕ → ClientData → List EntryData → List EntryData × List Effect
  | 0, _, es => (es, [])
  | handle + 1, record, es =>
    match es[handle]? with
    | none => serveClient reg handle record es
    | some e =>
      let hit := record.matches reg e handle
      if hit.1 && e.reservations ≠ 0 then
        let next := serveClient reg handle hit.2
          (es.set handle { e with reservations := e.reservations - 1 })
        (next.1, .count record.origin handle ::
          (if e.reservations - 1 = 0 then [entryCommand .removeSaveupCmd handle] else []) ++ next.2)
      else serveClient reg handle hit.2 es

/-- The record made for a `NewClientNotif`. -/
def newClient (r : UChannelCommRequest) : ClientData where
  dataclassname := r.dataclassname
  entrylabel := r.entrylabel
  requestEntry := r.data0
  origin := r.data1
  reservation := r.extra.testBit 0

/-- Serve a `NewClientNotif`. -/
def newClientNotif (reg : DataClassRegistry) (m : UnifiedChannelMaster)
    (r : UChannelCommRequest) : UnifiedChannelMaster × List Effect :=
  let m' := { m with clients := m.clients ++ [newClient r] }
  if (newClient r).reservation then
    let served := serveClient reg m.entries.length (newClient r) m.entries
    ({ m' with entries := served.1 }, served.2)
  else (m', [])

/-- Serve a `LeaveClientNotif`. -/
def leaveClientNotif (m : UnifiedChannelMaster) (r : UChannelCommRequest) :
    Except Fault (UnifiedChannelMaster × List Effect) :=
  if m.clients.any (·.origin == r.data1) then
    .ok ({ m with clients := m.clients.eraseP (·.origin == r.data1) }, [])
  else .error .assertion

/-- Serve the request at the front of the queue. -/
def processOne (reg : DataClassRegistry) (m : UnifiedChannelMaster) (r : UChannelCommRequest) :
    Except Fault (UnifiedChannelMaster × List Effect) :=
  match r.type with
  | .newEntryReq => m.newEntryReq reg r
  | .deleteEntryReq => m.deleteEntryReq r
  | .cleanEntryConf => m.cleanEntryConf r
  | .newEndJoins => .ok (m.newEndJoins r)
  | .newClientNotif => .ok (m.newClientNotif reg r)
  | .leaveClientNotif => m.leaveClientNotif r
  | _ => .ok (m, [])

/-- Serve all requests in the queue. -/
def process (reg : DataClassRegistry) :
    UnifiedChannelMaster → List UChannelCommRequest →
      Except Fault (UnifiedChannelMaster × List Effect)
  | m, [] => .ok (m, [])
  | m, r :: rest =>
    match m.processOne reg r with
    | .error f => .error f
    | .ok (m', out) =>
      match process reg m' rest with
      | .error f => .error f
      | .ok (m'', out') => .ok (m'', out ++ out')

/-- Start a new cleaning round for the entry at the head of the cleaning list. -/
def sweep (m : UnifiedChannelMaster) : UnifiedChannelMaster × List Effect :=
  match m.toBeCleaned with
  | [] => (m, [])
  | front :: rest =>
    let front' := { front with round := (front.round + 1) % 2 ^ 32, stilldirty := m.numEnds }
    ({ m with toBeCleaned := front' :: rest },
      [.send { type := .cleanEntryCmd, data0 := front'.entry, data1 := front'.round }])

end UnifiedChannelMaster

/-- One input of the master: a request to serve, or a sweep. -/
inductive Input
  | request (r : UChannelCommRequest)
  | sweep
  deriving DecidableEq, Repr

/-- Serve one input, with the effects. -/
def respond (reg : DataClassRegistry) (m : UnifiedChannelMaster) :
    Input → Except Fault (UnifiedChannelMaster × List Effect)
  | .request r => m.processOne reg r
  | .sweep => .ok m.sweep

/-- Serve one input, keeping the new state only. -/
def step (reg : DataClassRegistry) (m : UnifiedChannelMaster) (i : Input) :
    Except Fault UnifiedChannelMaster :=
  (respond reg m i).map Prod.fst

theorem step_eq_ok {reg : DataClassRegistry} {m m' : UnifiedChannelMaster} {i : Input} :
    step reg m i = .ok m' ↔ ∃ out, respond reg m i = .ok (m', out) := by
  unfold step
  cases respond reg m i with
  | error f => simp [Except.map]
  | ok p => obtain ⟨n, out⟩ := p; simp [Except.map]

/-- `process` is the run of its requests, so a sequence of `process` and `sweep`
calls is a run of inputs. -/
theorem exec_requests (reg : DataClassRegistry) (m : UnifiedChannelMaster)
    (rs : List UChannelCommRequest) :
    exec (step reg) m (rs.map .request) = (m.process reg rs).map Prod.fst := by
  induction rs generalizing m with
  | nil => rfl
  | cons r rs ih =>
    simp only [List.map_cons, exec, UnifiedChannelMaster.process, step, respond]
    cases m.processOne reg r with
    | error f => rfl
    | ok p =>
      simp only [Except.map]
      rw [ih]
      cases UnifiedChannelMaster.process reg p.1 rs <;> rfl

end Dueca.Master
