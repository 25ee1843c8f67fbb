import Dueca.Entry.Points
import Dueca.Lib.Framing

/-!
# A packer and its store

A `Packer` serves a queue of work items. For each item it packs the id of the channel, room for
the size, and then the point; when the store is full, it gives the store its old size, and leaves
the item for a later try.

A failed try packs nothing, but it may have taken the transporter over a gap. What is behind a
gap has to be sent in full, and the next try does not know of the gap any more.
-/

namespace Dueca.Entry

open Dueca.Lib UChannelEntryData

variable {D : Type}

/-! ### The store -/

/-- The value of a message type. -/
def Request.code : Request → UInt8
  | .diffData => 0
  | .fullData => 1
  | .timeJump => 4

/-- The bytes of one piece. Objects come coded from their converter. -/
def Item.code : Item (List UInt8) → List UInt8
  | .request r => [r.code]
  | .entryId id => bigEndian 2 id
  | .tick t => bigEndian 4 t
  | .object b => b

/-- A store, with the bytes that are in it. -/
structure AmorphStore where
  stor : List UInt8
  capacity : ℕ
  deriving DecidableEq, Repr

namespace AmorphStore

def checkForRoom (s : AmorphStore) (size : ℕ) : Bool := s.stor.length + size ≤ s.capacity

def setSize (s : AmorphStore) (size : ℕ) : AmorphStore := { s with stor := s.stor.take size }

def append (s : AmorphStore) (bs : List UInt8) : AmorphStore := { s with stor := s.stor ++ bs }

/-- All pieces fit, one after another. -/
def fits (s : AmorphStore) : List (Item (List UInt8)) → Bool
  | [] => true
  | i :: is => s.checkForRoom i.code.length && (s.append i.code).fits is

end AmorphStore

/-! ### Packing -/

/-- The outcome of packing one set. -/
inductive SetResult | packed | boundary | markRange | invalid
  deriving DecidableEq, Repr

/-- Pack one item: the id of the channel, a mark for the size, and the point. When the store is
full, what did fit is left out here, since its size is reset. -/
def packOneSet (conv : DataSetConverter D (List UInt8)) (channelId : List UInt8)
    (e : UChannelEntry D) (u : PackUnit) (s : AmorphStore) :
    Except Fault (UChannelEntry D × AmorphStore × SetResult) :=
  let head := s.append channelId
  if !s.checkForRoom channelId.length || !head.checkForRoom 2 then pure (e, s, .boundary)
  else do
    let (e, res) ← packData conv e u.idx u.tick (head.append [0, 0]).fits
    match res with
    | .invalid => pure (e, head, .invalid)
    | .boundary => pure (e, head, .boundary)
    | .packed items =>
      let code := items.flatMap Item.code
      -- the mark holds the size in two bytes
      if 65535 < code.length then pure (e, head, .markRange)
      else pure (e, head.append (bigEndian 2 code.length ++ code), .packed)

/-- Serve the queue. When the store is full, the size is reset and the item stays in the queue;
an item of an entry that is not valid any more is dropped. -/
def packWork (conv : DataSetConverter D (List UInt8)) (channelId : List UInt8) :
    List PackUnit → UChannelEntry D → AmorphStore →
      Except Fault (UChannelEntry D × AmorphStore × List PackUnit)
  | [], e, s => pure (e, s, [])
  | u :: queue, e, s => do
    let (e', s', res) ← packOneSet conv channelId e u s
    match res with
    | .packed => packWork conv channelId queue (← packComplete e' u.idx) s'
    | .boundary => pure (← packFailed e' u.idx, s'.setSize s.stor.length, u :: queue)
    | .invalid => pure (e', s'.setSize s.stor.length, queue)
    -- nobody catches this exception
    | .markRange => throw .assertion

/-- Behind a gap, the transporter sends in full anyhow. -/
def SendsFull (e : UChannelEntry D) (idx : ℕ) : Prop :=
  ∀ p a n, e.pclients[idx]? = some p → p.handle.readIndex = some a → e.heap a = some n →
    n.seqId = 0 → e.entryId = entryEnd ∨ p.sendFull = true

variable {conv : DataSetConverter D (List UInt8)} {channelId : List UInt8}
variable {e e₁ e₂ : UChannelEntry D} {u : PackUnit} {idx seqid : ℕ}

/-! ### A failed try -/

/-- After a try, the access for packing gives the same point, without a gap. -/
theorem accessPackData_retry {p p' : PackerClient} {h : Heap D} {reading : Reading D}
    (hL : Linked e) (hO : Ordered e) (hacc : accessPackData e p = .ok (h, p', reading))
    (ps : List PackerClient) :
    accessPackData { e with heap := h, pclients := ps }
        { p with handle := { p'.handle with accessed := none } } =
      .ok (h, { p' with sendFull := p.sendFull }, reading) := by
  obtain ⟨r, n₀, r', n, ts, d, hr, hn₀, hn, hmoves, hcase, haccessed, -, -, hd, rfl, rfl⟩ :=
    accessPackData_cases hL hacc
  -- behind a gap there is no gap
  have hz : n.seqId ≠ 0 := by
    rcases hcase with ⟨hz, rfl, rfl⟩ | ⟨hz, rfl, -⟩
    · rw [hn₀] at hn
      exact Option.some.inj hn ▸ hz
    · obtain ⟨m, hm, -, -, -, hseq, -⟩ := hmoves.exists_of_some hn
      intro hnz
      exact (hO.gap r n₀ m hn₀ hm (hseq ▸ hnz)).1 hz
  simp only [accessPackData, bind_eq_ok, follow_eq_ok, deref_eq_ok] at hacc
  obtain ⟨_, hr', m₀, hm₀, ⟨h₁, a⟩, hskip, m, hm, ⟨handle, res⟩, hget, hres⟩ := hacc
  obtain rfl := Option.some.inj (hr.symm.trans hr')
  have hsame : handle = { p.handle with readIndex := some r', accessed := some r' } ∧
      h₁ = h ∧ a = r' ∧ res = some (ts, d) := by
    obtain ⟨k, ts', -, -, -, -, -, hhandle, hval⟩ := getSequentialData_eq_ok hget
    cases res with
    | none => simp [throw_ne_ok] at hres
    | some reading =>
      simp only [pure_eq_ok, Prod.mk.injEq, PackerClient.mk.injEq] at hres
      obtain ⟨rfl, ⟨-, hh⟩, rfl⟩ := hres
      subst hhandle
      simp only [Client.mk.injEq, Option.some.injEq] at hh
      obtain ⟨-, -, rfl, -, -⟩ := hh
      exact ⟨rfl, rfl, rfl, rfl⟩
  obtain ⟨rfl, rfl, rfl, rfl⟩ := hsame
  obtain rfl := Option.some.inj (hm.symm.trans hn)
  have hclient : ({ p.handle with readIndex := some a } : Client) =
      { p.handle with readIndex := some a, accessed := none } := by rw [← haccessed]
  rw [hclient] at hget
  have hskip' : skipGap h₁ a = .ok (h₁, a) := by
    simp only [skipGap, bind_eq_ok, deref_eq_ok]
    exact ⟨m, hm, by rw [if_neg hz]; rfl⟩
  simp only [accessPackData, bind_eq_ok, follow_eq_ok, deref_eq_ok]
  refine ⟨a, rfl, m, hm, (h₁, a), hskip', m, hm, _, hget, ?_⟩
  simp [hz, pure_eq_ok]

/-- The items before the point itself: a time jump, or none. -/
def jumpItems (e : UChannelEntry D) (validityEnd start : ℕ) : List (Item (List UInt8)) :=
  if !e.eventtype && validityEnd ≠ start then
    [.request .timeJump, .entryId e.entryId, .tick start]
  else []

/-- After the jump comes the type of the message. -/
theorem packItems_shape {h : Heap D} {p data : PackerClientData} {reading : Reading D}
    {items : List (Item (List UInt8))} (hitems : packItems conv e h p reading = .ok (items, data)) :
    ∃ rest, items = jumpItems e p.validityEnd reading.1.1 ++
      .request (if p.sendFull then .fullData else .diffData) :: rest := by
  unfold packItems at hitems
  dsimp only at hitems
  split at hitems
  · rename_i hfull
    simp only [pure_eq_ok, Prod.mk.injEq] at hitems
    rw [if_pos hfull]
    exact ⟨_, hitems.1.symm⟩
  · rename_i hfull
    rw [if_neg hfull]
    simp only [bind_eq_ok, deref_eq_ok, follow_eq_ok] at hitems
    obtain ⟨_, -, n, -, hitems⟩ := hitems
    split at hitems
    · exact absurd hitems throw_ne_ok
    · simp only [pure_eq_ok, Prod.mk.injEq] at hitems
      exact ⟨_, hitems.1.symm⟩

/-- A packer client with which the next try finds the entry. -/
theorem packFailed_eq {p q : PackerClient} (hp : e.pclients[idx]? = some p)
    (h : packFailed { e with pclients := e.pclients.set idx q } idx = .ok e₂) :
    e₂ = { e with
      pclients := e.pclients.set idx { q with handle := { q.handle with accessed := none } } } := by
  obtain ⟨hlt, -⟩ := List.getElem?_eq_some_iff.mp hp
  simp only [packFailed, List.getElem?_set_self hlt, pure_eq_ok, List.set_set] at h
  exact h.symm

/-- The items for a point that was accessed. -/
def PointItems (conv : DataSetConverter D (List UInt8)) (e : UChannelEntry D) (seqid : ℕ)
    (h : Heap D) (p' : PackerClient) (reading : Reading D)
    (items : List (Item (List UInt8))) : Prop :=
  e.entryId = entryEnd ∧ items = [.object (conv.packData reading.2)] ∨
    e.entryId ≠ entryEnd ∧ seqid = p'.seqId ∧
      ∃ data, packItems conv e h p'.toPackerClientData reading = .ok (items, data)

/-- Packing puts the items of the point in the store, if there is room. -/
theorem packData_of_pointItems {p p' : PackerClient} {h : Heap D} {reading : Reading D}
    {room : List (Item (List UInt8)) → Bool} {items : List (Item (List UInt8))}
    (hv : e.valid = true) (hp : e.pclients[idx]? = some p)
    (hacc : accessPackData e p = .ok (h, p', reading))
    (hitems : PointItems conv e seqid h p' reading items) (hroom : room items = true) :
    ∃ e', packData conv e idx seqid room = .ok (e', .packed items) := by
  rcases hitems with ⟨hend, rfl⟩ | ⟨hend, rfl, data, hpack⟩
  · refine ⟨{ e with heap := h, pclients := e.pclients.set idx p' }, ?_⟩
    simp only [packData, hv, hp, Bool.not_true, Bool.false_eq_true, if_false, bind_eq_ok]
    exact ⟨_, hacc, by simp only [if_pos hend, hroom, if_true]; rfl⟩
  · let packed : PackerClient :=
      { data with previousData := p'.handle.accessed, handle := p'.handle }
    refine ⟨{ e with heap := h, pclients := e.pclients.set idx packed }, ?_⟩
    simp only [packData, hv, hp, Bool.not_true, Bool.false_eq_true, if_false, bind_eq_ok]
    refine ⟨_, hacc, ?_⟩
    simp only [if_neg hend, bind_eq_ok, require_eq_ok, decide_true, exists_const, true_and]
    exact ⟨_, hpack, by simp only [hroom, if_true]; rfl⟩

/-- What was packed are the items of the point. -/
theorem pointItems_of_packData {room : List (Item (List UInt8)) → Bool}
    {items : List (Item (List UInt8))} {p p' : PackerClient} {h : Heap D} {reading : Reading D}
    (hp : e.pclients[idx]? = some p) (hacc : accessPackData e p = .ok (h, p', reading))
    (hpack : packData conv e idx seqid room = .ok (e₁, .packed items)) :
    PointItems conv e seqid h p' reading items ∧ room items = true := by
  unfold packData at hpack
  split at hpack
  · cases hpack
  simp only [hp, bind_eq_ok] at hpack
  obtain ⟨_, hacc', hpack⟩ := hpack
  obtain rfl := Except.ok.inj (hacc.symm.trans hacc')
  dsimp only at hpack
  split at hpack
  · rename_i hend
    split at hpack
    · rename_i hroom
      simp only [pure_eq_ok, Prod.mk.injEq, PackResult.packed.injEq] at hpack
      obtain ⟨-, rfl⟩ := hpack
      exact ⟨.inl ⟨hend, rfl⟩, hroom⟩
    · cases hpack
  · rename_i hend
    simp only [bind_eq_ok, require_eq_ok, decide_eq_true_eq] at hpack
    obtain ⟨_, hseq, ⟨items', data⟩, hitems, hpack⟩ := hpack
    dsimp only at hpack
    split at hpack
    · rename_i hroom
      simp only [pure_eq_ok, Prod.mk.injEq, PackResult.packed.injEq] at hpack
      obtain ⟨-, rfl⟩ := hpack
      exact ⟨.inr ⟨hend, hseq, data, hitems⟩, hroom⟩
    · cases hpack

/-- A set that was packed: its items, behind the id of the channel and their size. -/
theorem packOneSet_packed {s t : AmorphStore} (h : packOneSet conv channelId e u s =
    .ok (e₁, t, .packed)) :
    ∃ items, packData conv e u.idx u.tick ((s.append channelId).append [0, 0]).fits =
        .ok (e₁, .packed items) ∧
      (items.flatMap Item.code).length ≤ 65535 ∧
      t = (s.append channelId).append
        (bigEndian 2 (items.flatMap Item.code).length ++ items.flatMap Item.code) := by
  unfold packOneSet at h
  dsimp only at h
  split at h
  · cases h
  obtain ⟨⟨e', res⟩, hpack, h⟩ := bind_eq_ok.mp h
  dsimp only at h
  split at h
  · cases h
  · cases h
  rename_i items
  split at h
  · cases h
  rename_i hlen
  simp only [pure_eq_ok, Prod.mk.injEq] at h
  obtain ⟨rfl, rfl, -⟩ := h
  exact ⟨items, hpack, not_lt.mp hlen, rfl⟩

/-- The queue does not get longer. -/
theorem packWork_length_le {queue rest : List PackUnit} {s t : AmorphStore}
    (h : packWork conv channelId queue e s = .ok (e₂, t, rest)) : rest.length ≤ queue.length := by
  induction queue generalizing e s with
  | nil =>
    cases h
    exact le_rfl
  | cons u queue ih =>
    rw [packWork] at h
    obtain ⟨⟨e', s', res⟩, -, h⟩ := bind_eq_ok.mp h
    cases res with
    | packed =>
      obtain ⟨e'', -, h⟩ := bind_eq_ok.mp h
      exact (ih h).trans (Nat.le_succ _)
    | boundary =>
      obtain ⟨e'', -, h⟩ := bind_eq_ok.mp h
      cases h
      exact le_rfl
    | invalid =>
      cases h
      exact Nat.le_succ _
    | markRange => cases h

/-- When the first item stays in the queue, the store was full. -/
theorem packWork_failed {s s' : AmorphStore} {queue : List PackUnit}
    (h : packWork conv channelId (u :: queue) e s = .ok (e₂, s', u :: queue)) :
    ∃ e₁ t, packOneSet conv channelId e u s = .ok (e₁, t, .boundary) ∧
      packFailed e₁ u.idx = .ok e₂ := by
  rw [packWork] at h
  obtain ⟨⟨e', t, res⟩, hset, h⟩ := bind_eq_ok.mp h
  cases res with
  | packed =>
    obtain ⟨e'', -, h⟩ := bind_eq_ok.mp h
    exact absurd (packWork_length_le h) (Nat.not_succ_le_self _)
  | boundary =>
    obtain ⟨e'', hfailed, h⟩ := bind_eq_ok.mp h
    cases h
    exact ⟨e', t, hset, hfailed⟩
  | invalid =>
    simp only [pure_eq_ok, Prod.mk.injEq] at h
    exact absurd (congrArg List.length h.2.2) (Nat.ne_of_lt (Nat.lt_succ_self _))
  | markRange => cases h

/-- A try that failed in packing the point, with the state for the next try. -/
structure FailedTry (conv : DataSetConverter D (List UInt8)) (e : UChannelEntry D) (idx : ℕ)
    (e₂ : UChannelEntry D) (p p' : PackerClient) (h : Heap D) (reading : Reading D) : Prop where
  valid : e.valid = true
  client : e.pclients[idx]? = some p
  access : accessPackData e p = .ok (h, p', reading)
  next : e₂ = { e with
    heap := h
    pclients := e.pclients.set idx { p with handle := { p'.handle with accessed := none } } }

theorem failedTry_of_packWork {s s' : AmorphStore} {queue : List PackUnit}
    (hhead : s.stor.length + channelId.length + 2 ≤ s.capacity)
    (h : packWork conv channelId (u :: queue) e s = .ok (e₂, s', u :: queue)) :
    ∃ p p' heap reading, FailedTry conv e u.idx e₂ p p' heap reading := by
  obtain ⟨e₁, t, hset, hfailed⟩ := packWork_failed h
  unfold packOneSet at hset
  dsimp only at hset
  rw [if_neg (by simp [AmorphStore.checkForRoom, AmorphStore.append]; omega)] at hset
  obtain ⟨⟨e', res⟩, hpack, hset⟩ := bind_eq_ok.mp hset
  dsimp only at hset
  split at hset
  · cases hset
  · cases hset
    rcases packData_cases hpack with ⟨-, -, hres⟩ | ⟨p, heap, p', reading, q, hv, hp, hacc, he₁, hq⟩
    · cases hres
    have hq : q = { p with handle := p'.handle } := by
      rcases hq with ⟨-, ⟨-, hres⟩ | ⟨rfl, -⟩⟩ | ⟨-, -, items, data, -, ⟨-, hres, -⟩ | ⟨-, -, rfl⟩⟩
      · exact absurd rfl hres
      · rfl
      · cases hres
      · rfl
    subst hq he₁
    refine ⟨p, p', heap, reading, hv, hp, hacc, ?_⟩
    have hp' : ({ e with heap } : UChannelEntry D).pclients[u.idx]? = some p := hp
    exact packFailed_eq hp' hfailed
  · split at hset <;> cases hset

namespace FailedTry

variable {p p' : PackerClient} {h : Heap D} {reading : Reading D}
variable {items : List (Item (List UInt8))}

theorem client_next (hf : FailedTry conv e idx e₂ p p' h reading) :
    e₂.pclients[idx]? = some { p with handle := { p'.handle with accessed := none } } := by
  obtain ⟨hlt, -⟩ := List.getElem?_eq_some_iff.mp hf.client
  rw [hf.next]
  exact List.getElem?_set_self hlt

/-- The next try accesses the same point. -/
theorem access_next (hf : FailedTry conv e idx e₂ p p' h reading) (hL : Linked e)
    (hO : Ordered e) : accessPackData e₂
        { p with handle := { p'.handle with accessed := none } } =
      .ok (h, { p' with sendFull := p.sendFull }, reading) := by
  rw [hf.next]
  exact accessPackData_retry hL hO hf.access _

/-- The copy of the packer's data asks for a full pack behind a gap. -/
theorem sendFull_eq (hf : FailedTry conv e idx e₂ p p' h reading) (hL : Linked e) :
    ∃ a n, p.handle.readIndex = some a ∧ e.heap a = some n ∧
      p'.sendFull = (p.sendFull || n.seqId = 0) := by
  obtain ⟨a, n, _, _, _, _, ha, hn, -, -, -, -, -, -, -, -, rfl⟩ :=
    accessPackData_cases hL hf.access
  exact ⟨a, n, ha, hn, rfl⟩

/-- If the transporter sends in full anyhow, the items are the same for the next try. -/
theorem pointItems_next (hf : FailedTry conv e idx e₂ p p' h reading) (hL : Linked e)
    (hfull : SendsFull e idx) (hitems : PointItems conv e seqid h p' reading items) :
    PointItems conv e₂ seqid h { p' with sendFull := p.sendFull } reading items := by
  have hend : e₂.entryId = e.entryId := by rw [hf.next]
  rcases hitems with ⟨hid, rfl⟩ | ⟨hid, hseq, data, hpack⟩
  · exact .inl ⟨hend.trans hid, rfl⟩
  · obtain ⟨a, n, ha, hn, hsend⟩ := hf.sendFull_eq hL
    have hsame : p'.sendFull = p.sendFull := by
      rw [hsend]
      by_cases hz : n.seqId = 0
      · rw [(hfull p a n hf.client ha hn hz).resolve_left hid, Bool.true_or]
      · simp [hz]
    refine .inr ⟨hend ▸ hid, hseq, data, ?_⟩
    rw [hf.next, ← hsame]
    exact hpack

/-- If it does not, the next try sends differences where a full point is needed. -/
theorem not_pointItems_next (hf : FailedTry conv e idx e₂ p p' h reading) (hL : Linked e)
    (hfull : ¬ SendsFull e idx) (hitems : PointItems conv e seqid h p' reading items)
    {items' : List (Item (List UInt8))}
    (hitems' : PointItems conv e₂ seqid h { p' with sendFull := p.sendFull } reading items') :
    items'.flatMap Item.code ≠ items.flatMap Item.code := by
  simp only [SendsFull, not_forall, not_or, Bool.not_eq_true] at hfull
  obtain ⟨q, a, n, hq, ha, hn, hz, hid, hsend⟩ := hfull
  obtain rfl := Option.some.inj (hf.client.symm.trans hq)
  obtain ⟨a', n', ha', hn', hsend'⟩ := hf.sendFull_eq hL
  obtain rfl := Option.some.inj (ha.symm.trans ha')
  obtain rfl := Option.some.inj (hn.symm.trans hn')
  have hid' : e₂.entryId ≠ entryEnd := by rwa [hf.next]
  obtain ⟨-, -, data, hpack⟩ := hitems.resolve_left fun hc => hid hc.1
  obtain ⟨-, -, data', hpack'⟩ := hitems'.resolve_left fun hc => hid' hc.1
  obtain ⟨rest, rfl⟩ := packItems_shape hpack
  obtain ⟨rest', rfl⟩ := packItems_shape hpack'
  have hjump : jumpItems e₂ p'.validityEnd reading.1.1 =
      jumpItems e p'.validityEnd reading.1.1 := by rw [hf.next]; rfl
  intro heq
  rw [hjump, List.flatMap_append, List.flatMap_append, List.append_cancel_left_eq,
    List.flatMap_cons, List.flatMap_cons] at heq
  simp only [hsend', hsend, hz, decide_true, Bool.or_true, if_true, Bool.false_eq_true, if_false,
    Item.code, Request.code, List.singleton_append, List.cons.injEq] at heq
  exact absurd heq.1 (by decide)

end FailedTry

/-- The bytes of a set determine the bytes of its items. -/
theorem append_mark_inj {s : AmorphStore} {as bs : List UInt8}
    (h : s.append (bigEndian 2 as.length ++ as) = s.append (bigEndian 2 bs.length ++ bs)) :
    as = bs := by
  have h := congrArg AmorphStore.stor h
  simp only [AmorphStore.append, List.append_cancel_left_eq] at h
  exact (List.append_inj h (by rw [length_bigEndian, length_bigEndian])).2

/-- After any run of fewer than `2 ^ 32 - 1` writes: when the store gets full in packing a point,
a next try with a store that has room packs the bytes that would have been packed without the
failed try, exactly if the transporter sends in full behind a gap. -/
theorem retry_iff {writer eventtype fullpackmode : Bool} {nreservations : ℕ} {ops : List (Op D)}
    (hw : writes ops < 4294967295)
    (hrun : exec (advance conv)
      (UChannelEntry.create writer eventtype fullpackmode nreservations) ops = .ok e)
    {s s₂ : AmorphStore} {queue : List PackUnit}
    (hhead : s.stor.length + channelId.length + 2 ≤ s.capacity)
    (hfail : packWork conv channelId (u :: queue) e s = .ok (e₂, s₂, u :: queue))
    {s' t : AmorphStore} {e' : UChannelEntry D}
    (hfresh : packOneSet conv channelId e u s' = .ok (e', t, .packed)) :
    (∃ e'', packOneSet conv channelId e₂ u s' = .ok (e'', t, .packed)) ↔ SendsFull e u.idx := by
  have hid := lastId_create (D := D) writer eventtype fullpackmode nreservations
  obtain ⟨⟨hL, -, hO⟩, -⟩ := sound_of_run (sound_create writer eventtype fullpackmode nreservations)
    (by omega) hrun
  obtain ⟨p, p', h, reading, hf⟩ := failedTry_of_packWork hhead hfail
  obtain ⟨items, hpack, hlen, rfl⟩ := packOneSet_packed hfresh
  obtain ⟨hitems, hroom⟩ := pointItems_of_packData hf.client hf.access hpack
  constructor
  · rintro ⟨e'', hretry⟩
    obtain ⟨items', hpack', -, ht⟩ := packOneSet_packed hretry
    obtain ⟨hitems', -⟩ := pointItems_of_packData hf.client_next (hf.access_next hL hO) hpack'
    by_contra hfull
    exact hf.not_pointItems_next hL hfull hitems hitems' (append_mark_inj ht).symm
  · intro hfull
    have hv : e₂.valid = true := by rw [hf.next]; exact hf.valid
    obtain ⟨e'', hpack'⟩ := packData_of_pointItems hv hf.client_next (hf.access_next hL hO)
      (hf.pointItems_next hL hfull hitems) hroom
    refine ⟨e'', ?_⟩
    unfold packOneSet at hfresh ⊢
    dsimp only at hfresh ⊢
    split at hfresh
    · simp only [pure_eq_ok, Prod.mk.injEq, reduceCtorEq, and_false] at hfresh
    rename_i hhead'
    rw [if_neg hhead', hpack']
    exact if_neg (not_lt.mpr hlen)

/-! ### Two tries at a gap -/

/-- Numbers in one byte, or as a difference in two. -/
def byteConverter : DataSetConverter ℕ (List UInt8) where
  packData d := [UInt8.ofNat d]
  packDataDiff d r := [UInt8.ofNat d, UInt8.ofNat r]
  create b := (b.headD 0).toNat
  createDiff b _ := (b.headD 0).toNat

/-- A stream with one transporter, that has sent the first point, and then one more point. -/
def sampleStream (times : DataTimeSpec) : List (Op ℕ) :=
  [.setValid 1, .addRemoteDestination, .newData 5 (.of 0 10 zero_ten) true,
    .packData 0 1 true, .packComplete 0, .newData 6 times true]

def smallStore : AmorphStore := { stor := [], capacity := 8 }

def largeStore : AmorphStore := { stor := [], capacity := 100 }

/-- Two tries to pack the point with id 2, and the try that would have been made otherwise. -/
def twoTries (e : UChannelEntry ℕ) :
    Except Fault (List PackUnit × (AmorphStore × SetResult) × AmorphStore × SetResult) := do
  let (e₂, _, rest) ← packWork byteConverter [0, 0, 7] [⟨0, 2⟩] e smallStore
  let (_, t) ← packOneSet byteConverter [0, 0, 7] e ⟨0, 2⟩ largeStore
  let (_, t₂) ← packOneSet byteConverter [0, 0, 7] e₂ ⟨0, 2⟩ largeStore
  pure (rest, t, t₂)

theorem exists_of_twoTries {e : UChannelEntry ℕ} {rest : List PackUnit}
    {t t₂ : AmorphStore × SetResult} (h : twoTries e = .ok (rest, t, t₂)) :
    ∃ e₂ s₂ e' e'', packWork byteConverter [0, 0, 7] [⟨0, 2⟩] e smallStore = .ok (e₂, s₂, rest) ∧
      packOneSet byteConverter [0, 0, 7] e ⟨0, 2⟩ largeStore = .ok (e', t) ∧
      packOneSet byteConverter [0, 0, 7] e₂ ⟨0, 2⟩ largeStore = .ok (e'', t₂) := by
  simp only [twoTries, bind_eq_ok, pure_eq_ok, Prod.mk.injEq] at h
  obtain ⟨⟨e₂, s₂, _⟩, hwork, ⟨e', _⟩, hfresh, ⟨e'', _⟩, hretry, rfl, rfl, rfl⟩ := h
  exact ⟨e₂, s₂, e', e'', hwork, hfresh, hretry⟩

/-- Behind a gap a failed try changes the bytes: a full point becomes a difference. -/
theorem not_retry_same :
    ∃ (e e₂ e' : UChannelEntry ℕ) (s₂ t : AmorphStore),
      exec (advance byteConverter) (UChannelEntry.create true false false 0)
        (sampleStream (.of 20 30)) = .ok e ∧
      packWork byteConverter [0, 0, 7] [⟨0, 2⟩] e smallStore = .ok (e₂, s₂, [⟨0, 2⟩]) ∧
      packOneSet byteConverter [0, 0, 7] e ⟨0, 2⟩ largeStore = .ok (e', t, .packed) ∧
      ¬ ∃ e'', packOneSet byteConverter [0, 0, 7] e₂ ⟨0, 2⟩ largeStore = .ok (e'', t, .packed) := by
  obtain ⟨e, he, htest⟩ := exists_of_endsIn (advance byteConverter)
    (UChannelEntry.create true false false 0) (sampleStream (.of 20 30))
    (fun e => match twoTries e with
      | .ok (rest, t, t₂) => rest = [⟨0, 2⟩] && t.2 = .packed && t₂ ≠ t
      | .error _ => false) (by decide +kernel)
  split at htest
  · rename_i rest t t₂ htries
    simp only [Bool.and_eq_true, decide_eq_true_eq] at htest
    obtain ⟨⟨rfl, ht⟩, hne⟩ := htest
    obtain ⟨e₂, s₂, e', e'', hwork, hfresh, hretry⟩ := exists_of_twoTries htries
    obtain ⟨t, res⟩ := t
    obtain rfl : res = .packed := ht
    refine ⟨e, e₂, e', s₂, t, he, hwork, hfresh, ?_⟩
    rintro ⟨e₃, h₃⟩
    rw [hretry] at h₃
    exact hne (Prod.mk.inj (Except.ok.inj h₃)).2
  · cases htest

theorem retry_iff_sampleStream :
    ∃ (e e₂ e' : UChannelEntry ℕ) (s₂ t : AmorphStore),
      packWork byteConverter [0, 0, 7] [⟨0, 2⟩] e smallStore = .ok (e₂, s₂, [⟨0, 2⟩]) ∧
      packOneSet byteConverter [0, 0, 7] e ⟨0, 2⟩ largeStore = .ok (e', t, .packed) ∧
      ((∃ e'', packOneSet byteConverter [0, 0, 7] e₂ ⟨0, 2⟩ largeStore = .ok (e'', t, .packed)) ↔
        SendsFull e 0) := by
  obtain ⟨e, he, htest⟩ := exists_of_endsIn (advance byteConverter)
    (UChannelEntry.create true false false 0) (sampleStream (.of 10 30))
    (fun e => match twoTries e with
      | .ok (rest, t, t₂) => rest = [⟨0, 2⟩] && t.2 = .packed && t₂ = t
      | .error _ => false) (by decide +kernel)
  split at htest
  · rename_i rest t t₂ htries
    simp only [Bool.and_eq_true, decide_eq_true_eq] at htest
    obtain ⟨⟨rfl, ht⟩, -⟩ := htest
    obtain ⟨e₂, s₂, e', e'', hwork, hfresh, -⟩ := exists_of_twoTries htries
    obtain ⟨t, res⟩ := t
    obtain rfl : res = .packed := ht
    exact ⟨e, e₂, e', s₂, t, hwork, hfresh,
      retry_iff (by decide) he (by decide) hwork hfresh⟩
  · cases htest

end Dueca.Entry
