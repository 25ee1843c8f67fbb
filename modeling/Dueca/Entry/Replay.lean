import Dueca.Entry.Points
import Dueca.Entry.Cache
import Dueca.Lib.Requeue

/-!
# Replaying early data

When an entry is configured, the messages that came in for it before are taken from its cache
and unpacked. Differential data for an entry that has no data yet goes back to the same cache,
until full data arrives. Full data may be further on in the cache, or not in it at all; then two
differential messages keep the loop busy for ever, and a single one is lost in the cache.

A message is taken when the entry carries it out, and refused when the entry does not write its
data, since it does not follow what the entry has.
-/

namespace Dueca.Entry

open Dueca.Lib UChannelEntryData

variable {D B : Type}

/-! ### Messages -/

/-- A message for an entry. Behind a time jump the source asserts full data; there is none when
another message follows. -/
inductive EntryMessage (B : Type)
  | diffData (endtime : UInt32) (body : B)
  | fullData (endtime : UInt32) (body : B)
  | fullDataReq
  | timeJump (jumptime : UInt32) (full : Option (UInt32 × B))
  | removeSaveupCmd
  deriving DecidableEq

/-- Differential data. -/
def EntryMessage.isDiff : EntryMessage B → Bool
  | .diffData .. => true
  | _ => false

/-- A message with full data. -/
def EntryMessage.isFull : EntryMessage B → Bool
  | .fullData .. | .timeJump .. => true
  | _ => false

namespace UChannelEntry

def currentTimeTick (e : UChannelEntry D) : Except Fault ℕ := do
  pure (← deref e.heap e.latest).timeOrTimeEnd

/-- The start of the next span; a jump is used once. -/
def unpackTimeTick (e : UChannelEntry D) : Except Fault (ℕ × UChannelEntry D) :=
  if e.jumptime ≠ maxTimetick then pure (e.jumptime, { e with jumptime := maxTimetick })
  else do pure (← e.currentTimeTick, e)

/-- Write with a time specification, which asserts that its ends are ordered. -/
def insert (current : UChannelEntry D → Bool) (e : UChannelEntry D) (data : D) (start : ℕ)
    (endtime : UInt32) : Except Fault (UChannelEntry D × Handling) :=
  if h : start ≤ endtime.toNat then do
    let t : DataTimeSpec := ⟨start, endtime.toNat, h, Nat.le_of_lt_succ endtime.toNat_lt⟩
    let l ← deref e.heap e.latest
    let (e', _) ← newData e data t (current e)
    pure (e', if accepts e l t then .taken else .refused)
  else .error .assertion

/-- An event is valid at its time, and a stream from the time reached. -/
def insertUntil (current : UChannelEntry D → Bool) (e : UChannelEntry D) (data : D)
    (endtime : UInt32) : Except Fault (UChannelEntry D × Handling) :=
  if e.eventtype then e.insert current data endtime.toNat endtime
  else do
    let (start, e) ← e.unpackTimeTick
    e.insert current data start endtime

/-- Unpack full data. A stream that is already past the end time is a failed assertion. -/
def unPackData (conv : DataSetConverter D B) (current : UChannelEntry D → Bool)
    (e : UChannelEntry D) (endtime : UInt32) (body : B) :
    Except Fault (UChannelEntry D × Handling) := do
  let data := conv.create body
  if !e.eventtype then
    require ((← e.currentTimeTick) < endtime.toNat)
  e.insertUntil current data endtime

/-- Unpack differential data, with respect to the latest data. -/
def unPackDataDiff (conv : DataSetConverter D B) (current : UChannelEntry D → Bool)
    (e : UChannelEntry D) (endtime : UInt32) (body : B) :
    Except Fault (UChannelEntry D × Handling) := do
  let l ← deref e.heap e.latest
  let n ← deref e.heap (← follow l.older)
  match n.data with
  | some olddata => e.insertUntil current (conv.createDiff body olddata) endtime
  | none => pure (e, .waits)

/-- The transporters are to send full data next. -/
def nextSendFull (e : UChannelEntry D) : UChannelEntry D :=
  { e with pclients := e.pclients.map fun p => { p with sendFull := true } }

/-- The latest data is there, to apply a difference to. -/
def hasLatest (e : UChannelEntry D) : Bool :=
  (((e.heap e.latest).bind fun l => l.older).bind e.heap).any fun n => n.data.isSome

end UChannelEntry

/-- Carry out a message for a configured entry. -/
def unPackData (conv : DataSetConverter D B) (current : UChannelEntry D → Bool)
    (e : UChannelEntry D) : EntryMessage B → Except Fault (UChannelEntry D × Handling)
  | .diffData endtime body => e.unPackDataDiff conv current endtime body
  | .fullData endtime body => e.unPackData conv current endtime body
  | .fullDataReq => pure (if e.writer then e.nextSendFull else e, .taken)
  | .timeJump jumptime (some (endtime, body)) =>
    { e with jumptime := jumptime.toNat }.unPackData conv current endtime body
  | .timeJump _ none => .error .assertion
  | .removeSaveupCmd => do
    require (e.saveup = .saveUp)
    pure ({ e with saveup := .saveUpTryRemove }, .taken)

/-! ### The loop -/

/-- An entry with its cache. The messages taken are kept for the record. -/
structure Replay (D B : Type) where
  entry : UChannelEntry D
  cache : UCEntryDataCache (EntryMessage B)
  taken : List (EntryMessage B)

/-- One turn of the loop over the cache. -/
def replayNext (conv : DataSetConverter D B) (current : UChannelEntry D → Bool) (s : Replay D B) :
    Replay D B ⊕ Except Fault (UChannelEntry D × List (EntryMessage B)) :=
  if s.cache.isNotEmpty then
    match s.cache.getStore with
    | .error f => .inr (.error f)
    | .ok (m, cache) =>
      match unPackData conv current s.entry m with
      | .error f => .inr (.error f)
      | .ok (e, .taken) => .inl ⟨e, cache, s.taken ++ [m]⟩
      | .ok (e, .refused) => .inl ⟨e, cache, s.taken⟩
      -- `cacheUnpack` puts the message back
      | .ok (e, .waits) =>
        match cache.append m with
        | .error f => .inr (.error f)
        | .ok cache => .inl ⟨e, cache, s.taken⟩
  else .inr (.ok (s.entry, s.taken))

/-- The cache of an entry for which these messages came in. -/
def cached (ms : List (EntryMessage B)) : Except Fault (UCEntryDataCache (EntryMessage B)) :=
  exec (fun c m => c.append m) .create ms

/-- The loop over the cache ends, and every message in it was taken. -/
def Replayed (conv : DataSetConverter D B) (current : UChannelEntry D → Bool)
    (e : UChannelEntry D) (ms : List (EntryMessage B)) : Prop :=
  ∃ c e' taken, cached ms = .ok c ∧ Returns (replayNext conv current) ⟨e, c, []⟩ (.ok (e', taken)) ∧
    taken.Perm ms

/-- The entry has data for a difference, or it gets full data, or it needs none; and it takes
each message, with the differential ones before the first full one at the end. -/
def CanReplay (conv : DataSetConverter D B) (current : UChannelEntry D → Bool)
    (e : UChannelEntry D) (ms : List (EntryMessage B)) : Prop :=
  (e.hasLatest = true ∨ (∃ m ∈ ms, m.isFull = true) ∨ ∀ m ∈ ms, m.isDiff = false) ∧
    takesAll (unPackData conv current) e
      (inServiceOrder EntryMessage.isDiff EntryMessage.isFull e.hasLatest ms) = true

variable {e e' : UChannelEntry D} {l : UChannelEntryData D} {data : D} {endtime : UInt32}
variable {conv : DataSetConverter D B} {current : UChannelEntry D → Bool} {h : Handling}
variable {ms : List (EntryMessage B)} {m : EntryMessage B}

/-! ### What a message does to the entry -/

theorem hasLatest_eq (hL : Linked e) :
    e.hasLatest = (e.heap (e.latest - 1)).any fun n => n.data.isSome := by
  obtain ⟨l, hl⟩ := hL.exists_latest
  have hlt := hL.cleanup_lt
  have hle := hL.oldest_le
  simp only [UChannelEntry.hasLatest, hl, Option.bind_some, hL.older_eq e.latest l hl (by omega)]

theorem hasLatest_of_data {n : UChannelEntryData D} (hL : Linked e)
    (hn : e.heap (e.latest - 1) = some n) (hdata : n.data.isSome = true) :
    e.hasLatest = true := by
  rw [hasLatest_eq hL, hn]
  exact hdata

theorem hasLatest_moves {src dst : List ℕ} (hL : Linked e) (hL' : Linked e')
    (hm : Moves e.heap e'.heap src dst []) (hlatest : e'.latest = e.latest) :
    e'.hasLatest = e.hasLatest := by
  rw [hasLatest_eq hL, hasLatest_eq hL', hlatest]
  cases hn : e.heap (e.latest - 1) with
  | none => rw [((hm _).1 hn).1]
  | some n =>
    obtain ⟨k, hk, -⟩ := (hm _).2 n hn
    rw [hk]
    rfl

theorem hasLatest_written {m : UChannelEntry D} {t : DataTimeSpec} (hL : Linked e)
    (hl : e.heap e.latest = some l) (hw : e.written l data t = some m) : m.hasLatest = true := by
  have hL' := hL.written hl hw
  have hfresh := hL.fresh_eq
  rcases written_cases hw with ⟨start, ts, rfl, -⟩ | ⟨rfl, -⟩
  · have hlatest : (e.filled l start data ts).latest - 1 = e.latest := by
      show e.fresh - 1 = _
      omega
    exact hasLatest_of_data hL' (hlatest ▸ filled_heap_latest hL) rfl
  · have hlatest : (e.gapped l t.validityStart data t.validityEnd).latest - 1 = e.latest + 1 := by
      show e.fresh + 1 - 1 = _
      omega
    exact hasLatest_of_data hL' (hlatest ▸ gapped_heap_succ hL) rfl

/-- After a write that is accepted there is data to apply a difference to; a write that is not
accepted does not change that. -/
theorem hasLatest_newData {t : DataTimeSpec} {cur : Bool} {work : List PackUnit} (hL : Linked e)
    (hM : Manned e) (hl : e.heap e.latest = some l)
    (hnew : newData e data t cur = .ok (e', work)) :
    e'.hasLatest = (accepts e l t || e.hasLatest) := by
  have hL' := (newData_linked hL hM hnew).1
  obtain ⟨c, o, hC, hLc, hlc, ⟨hno, rfl, -⟩ | ⟨m, _, _, hyes, hw, hm, -, hmoves, hframe⟩⟩ :=
    newData_outcome hL hM hl hnew
  · rw [hno, hasLatest_eq hLc, hasLatest_eq hL]
    have hlt := hC.lt_oldest
    have hle := hL.oldest_le
    show Option.any _ (if e.latest - 1 < c then none else e.heap (e.latest - 1)) = _
    rw [if_neg (by omega)]
    rfl
  · rw [hyes, hasLatest_moves hm hL' hmoves hframe.latest, hasLatest_written hLc hlc hw]
    rfl

/-- The entry after a write that was tried: it is taken, and there is data, or it is refused. -/
structure Tried (e e' : UChannelEntry D) (h : Handling) : Prop where
  linked : Linked e'
  manned : Manned e'
  outcome : h = .taken ∧ e'.hasLatest = true ∨ h = .refused ∧ e'.hasLatest = e.hasLatest

theorem Tried.of_insert {start : ℕ} (hL : Linked e) (hM : Manned e)
    (hok : e.insert current data start endtime = .ok (e', h)) : Tried e e' h := by
  rw [UChannelEntry.insert] at hok
  split at hok
  · obtain ⟨l, hl, hok⟩ := bind_eq_ok.mp hok
    obtain ⟨⟨e₁, work⟩, hnew, hok⟩ := bind_eq_ok.mp hok
    obtain ⟨rfl, rfl⟩ := Prod.mk.inj (pure_eq_ok.mp hok)
    obtain ⟨hL', hM'⟩ := newData_linked hL hM hnew
    have hlatest := hasLatest_newData hL hM (deref_eq_ok.mp hl) hnew
    refine ⟨hL', hM', ?_⟩
    split
    · rename_i hacc
      rw [hacc, Bool.true_or] at hlatest
      exact .inl ⟨rfl, hlatest⟩
    · rename_i hacc
      rw [Bool.eq_false_iff.mpr hacc, Bool.false_or] at hlatest
      exact .inr ⟨rfl, hlatest⟩
  · cases hok

theorem Linked.withJumptime (hL : Linked e) (jumptime : ℕ) : Linked { e with jumptime } :=
  ⟨hL.1, hL.2, hL.3, hL.4, hL.5, hL.6⟩

theorem Tried.of_insertUntil (hL : Linked e) (hM : Manned e)
    (hok : e.insertUntil current data endtime = .ok (e', h)) : Tried e e' h := by
  rw [UChannelEntry.insertUntil] at hok
  split at hok
  · exact .of_insert hL hM hok
  · obtain ⟨⟨start, e₁⟩, htick, hok⟩ := bind_eq_ok.mp hok
    rw [UChannelEntry.unpackTimeTick] at htick
    split at htick
    · obtain ⟨-, rfl⟩ := Prod.mk.inj (pure_eq_ok.mp htick)
      obtain ⟨hL', hM', hout⟩ := Tried.of_insert (hL.withJumptime maxTimetick)
        (show Manned { e with jumptime := maxTimetick } from ⟨hM.1, hM.2⟩) hok
      exact ⟨hL', hM', hout⟩
    · obtain ⟨now, -, htick⟩ := bind_eq_ok.mp htick
      obtain ⟨-, rfl⟩ := Prod.mk.inj (pure_eq_ok.mp htick)
      exact .of_insert hL hM hok

theorem Tried.of_full {body : B} (hL : Linked e) (hM : Manned e)
    (hok : e.unPackData conv current endtime body = .ok (e', h)) : Tried e e' h := by
  rw [UChannelEntry.unPackData] at hok
  dsimp only at hok
  split at hok
  · obtain ⟨_, -, hok⟩ := bind_eq_ok.mp hok
    obtain ⟨_, -, hok⟩ := bind_eq_ok.mp hok
    exact .of_insertUntil hL hM hok
  · exact .of_insertUntil hL hM hok

/-- Differential data waits exactly if there is no data to apply it to. -/
theorem unPackDataDiff_cases {body : B} (hL : Linked e) (hM : Manned e) :
    (e.hasLatest = false ∧ e.unPackDataDiff conv current endtime body = .ok (e, .waits)) ∨
      e.hasLatest = true ∧
        ∀ e' h, e.unPackDataDiff conv current endtime body = .ok (e', h) → Tried e e' h := by
  obtain ⟨l, hl⟩ := hL.exists_latest
  have hlt := hL.cleanup_lt
  have hle := hL.oldest_le
  have holder := hL.older_eq e.latest l hl (by omega)
  obtain ⟨n, hn⟩ := hL.exists_node (a := e.latest - 1) (by omega) (by omega)
  have heq : e.unPackDataDiff conv current endtime body =
      match n.data with
      | some olddata => e.insertUntil current (conv.createDiff body olddata) endtime
      | none => pure (e, .waits) := by
    simp only [UChannelEntry.unPackDataDiff, deref_eq_ok.mpr hl, holder, follow, deref_eq_ok.mpr hn,
      bind, Except.bind]
  rw [hasLatest_eq hL, hn, heq]
  cases hdata : n.data with
  | none => exact .inl ⟨by simp [hdata], rfl⟩
  | some old => exact .inr ⟨by simp [hdata], fun e' h hok => .of_insertUntil hL hM hok⟩

/-- A message without data leaves the data as it is. -/
structure Unwritten (e e' : UChannelEntry D) (h : Handling) : Prop where
  linked : Linked e'
  manned : Manned e'
  taken : h = .taken
  hasLatest : e'.hasLatest = e.hasLatest

theorem unwritten_of_control (hL : Linked e) (hM : Manned e) (hdiff : m.isDiff = false)
    (hfull : m.isFull = false) (hok : unPackData conv current e m = .ok (e', h)) :
    Unwritten e e' h := by
  cases m with
  | diffData => cases hdiff
  | fullData | timeJump => cases hfull
  | fullDataReq =>
    obtain ⟨rfl, rfl⟩ := Prod.mk.inj (pure_eq_ok.mp hok)
    split
    · exact ⟨⟨hL.1, hL.2, hL.3, hL.4, hL.5, hL.6⟩,
        ⟨by simpa [UChannelEntry.nextSendFull] using hM.1,
          fun hw => by simp [UChannelEntry.nextSendFull, hM.2 hw]⟩, rfl, rfl⟩
    · exact ⟨hL, hM, rfl, rfl⟩
  | removeSaveupCmd =>
    obtain ⟨-, -, hok⟩ := bind_eq_ok.mp hok
    obtain ⟨rfl, rfl⟩ := Prod.mk.inj (pure_eq_ok.mp hok)
    exact ⟨⟨hL.1, hL.2, hL.3, hL.4, hL.5, hL.6⟩, ⟨hM.1, hM.2⟩, rfl, rfl⟩

theorem tried_of_full (hL : Linked e) (hM : Manned e) (hfull : m.isFull = true)
    (hok : unPackData conv current e m = .ok (e', h)) : Tried e e' h := by
  cases m with
  | diffData | fullDataReq | removeSaveupCmd => cases hfull
  | fullData endtime body => exact .of_full hL hM hok
  | timeJump jumptime full =>
    cases full with
    | none => cases hok
    | some full =>
      obtain ⟨hL', hM', hout⟩ := Tried.of_full (hL.withJumptime jumptime.toNat)
        (show Manned { e with jumptime := jumptime.toNat } from ⟨hM.1, hM.2⟩) hok
      exact ⟨hL', hM', hout⟩

/-- Full data opens an entry to differential data, and it stays open. -/
theorem door (conv : DataSetConverter D B) (current : UChannelEntry D → Bool) :
    Door (unPackData conv current) (fun e => Linked e ∧ Manned e) UChannelEntry.hasLatest
      EntryMessage.isDiff EntryMessage.isFull where
  waiting e m := by
    rintro ⟨hL, hM⟩ hclosed hdiff
    cases m with
    | diffData endtime body =>
      rcases (@unPackDataDiff_cases _ _ _ endtime conv current body) hL hM with
        ⟨-, hok⟩ | ⟨hopen, -⟩
      · exact hok
      · rw [hclosed] at hopen
        cases hopen
    | fullData | fullDataReq | timeJump | removeSaveupCmd => cases hdiff
  handled e m e' h := by
    rintro ⟨hL, hM⟩ hgo hok
    have of_tried (htried : Tried e e' h) : h ≠ .waits ∧ Linked e' ∧ Manned e' := by
      refine ⟨?_, htried.linked, htried.manned⟩
      rcases htried.outcome with ⟨rfl, -⟩ | ⟨rfl, -⟩ <;> exact nofun
    by_cases hdiff : m.isDiff = true
    · cases m with
      | diffData endtime body =>
        rcases (@unPackDataDiff_cases _ _ _ endtime conv current body) hL hM with
          ⟨hclosed, -⟩ | ⟨-, htried⟩
        · rw [hclosed] at hgo
          rcases hgo with hgo | hgo <;> cases hgo
        · exact of_tried (htried e' h hok)
      | fullData | fullDataReq | timeJump | removeSaveupCmd => cases hdiff
    · by_cases hfull : m.isFull = true
      · exact of_tried (tried_of_full hL hM hfull hok)
      · have hcontrol := unwritten_of_control hL hM (by simpa using hdiff) (by simpa using hfull) hok
        exact ⟨hcontrol.taken ▸ nofun, hcontrol.linked, hcontrol.manned⟩
  opened e m e' := by
    rintro ⟨hL, hM⟩ hfull hok
    rcases (tried_of_full hL hM hfull hok).outcome with ⟨-, hopen⟩ | ⟨hnot, -⟩
    · exact hopen
    · cases hnot
  stays e m e' h := by
    rintro ⟨hL, hM⟩ hopen hok
    have of_tried (htried : Tried e e' h) : e'.hasLatest = true := by
      rcases htried.outcome with ⟨-, h⟩ | ⟨-, h⟩
      · exact h
      · exact h.trans hopen
    by_cases hdiff : m.isDiff = true
    · cases m with
      | diffData endtime body =>
        rcases (@unPackDataDiff_cases _ _ _ endtime conv current body) hL hM with
          ⟨hclosed, -⟩ | ⟨-, htried⟩
        · rw [hclosed] at hopen
          cases hopen
        · exact of_tried (htried e' h hok)
      | fullData | fullDataReq | timeJump | removeSaveupCmd => cases hdiff
    · by_cases hfull : m.isFull = true
      · exact of_tried (tried_of_full hL hM hfull hok)
      · exact (unwritten_of_control hL hM (by simpa using hdiff) (by simpa using hfull)
          hok).hasLatest.trans hopen
  closed e m e' h := by
    rintro ⟨hL, hM⟩ hclosed hdiff hfull hok
    exact (unwritten_of_control hL hM hdiff hfull hok).hasLatest.trans hclosed
  apart m := by
    cases m <;> first | exact fun _ => rfl | exact nofun

/-! ### The loop over the cache -/

theorem back_backInCache : Back (backInCache : List (EntryMessage B) → _) where
  cons _ _ _ := rfl
  nil _ := ⟨List.nil_subset _, Nat.zero_le _⟩

/-- The cache as the queue that it gives out. -/
structure Serves (s : Replay D B) (u : Serving (UChannelEntry D) (EntryMessage B)) : Prop where
  entry : s.entry = u.state
  taken : s.taken = u.taken
  pending : Pending s.cache u.pending

theorem replayNext_nil {s : Replay D B} (h : Pending s.cache []) :
    replayNext conv current s = .inr (.ok (s.entry, s.taken)) := by
  have hnot : ¬s.cache.isNotEmpty = true := fun hc => h.isNotEmpty_iff.mp hc rfl
  rw [replayNext, if_neg hnot]

/-- One turn serves the next message of the queue. -/
theorem replayNext_serves (conv : DataSetConverter D B) (current : UChannelEntry D → Bool)
    {s : Replay D B} {u : Serving (UChannelEntry D) (EntryMessage B)} (h : Serves s u) :
    (∃ t u', replayNext conv current s = .inl t ∧
      serveNext (unPackData conv current) backInCache u = .inl u' ∧ Serves t u') ∨
    ∃ r, replayNext conv current s = .inr r ∧
      serveNext (unPackData conv current) backInCache u = .inr r := by
  obtain ⟨entry, cache, taken⟩ := s
  obtain ⟨state, pending, taken'⟩ := u
  obtain ⟨rfl, rfl, hpending⟩ := h
  cases pending with
  | nil => exact .inr ⟨_, replayNext_nil hpending, serveNext_nil⟩
  | cons m rest =>
    have hsome : cache.isNotEmpty = true := hpending.isNotEmpty_iff.mpr (List.cons_ne_nil m rest)
    obtain ⟨cache', hget, hrest, hback⟩ := hpending.getStore
    simp only [replayNext, if_pos hsome, hget]
    cases hmsg : unPackData conv current entry m with
    | error f => exact .inr ⟨_, rfl, serveNext_error hmsg⟩
    | ok r =>
      obtain ⟨e', outcome⟩ := r
      cases outcome with
      | taken => exact .inl ⟨_, _, rfl, serveNext_taken hmsg, ⟨rfl, rfl, hrest⟩⟩
      | refused => exact .inl ⟨_, _, rfl, serveNext_refused hmsg, ⟨rfl, rfl, hrest⟩⟩
      | waits =>
        obtain ⟨cache'', happend, hrest'⟩ := hback m
        simp only [happend]
        exact .inl ⟨_, _, rfl, serveNext_waits hmsg, ⟨rfl, rfl, hrest'⟩⟩

theorem loop_replayNext {s : Replay D B} {u : Serving (UChannelEntry D) (EntryMessage B)}
    (h : Serves s u) (n : ℕ) :
    loop (replayNext conv current) n s =
      loop (serveNext (unPackData conv current) backInCache) n u := by
  refine loop_eq_of_simulates (fun s t u hs hst => ?_) (fun s r u hs hsr => ?_) h n
  · rcases replayNext_serves conv current hs with
      ⟨t', u', hnext, hnext', hR⟩ | ⟨r, hdone, -⟩
    · obtain rfl := Sum.inl.inj (hnext.symm.trans hst)
      exact ⟨u', hnext', hR⟩
    · cases hdone.symm.trans hst
  · rcases replayNext_serves conv current hs with
      ⟨t', u', hnext, -⟩ | ⟨r', hdone, hdone'⟩
    · cases hnext.symm.trans hsr
    · obtain rfl := Sum.inr.inj (hdone.symm.trans hsr)
      exact hdone'

theorem caches_cached (ms : List (EntryMessage B)) : ∃ c, cached ms = .ok c ∧ Caches c ms 0 := by
  induction ms using List.reverseRecOn with
  | nil => exact ⟨.create, rfl, caches_create⟩
  | append_singleton ms m ih =>
    obtain ⟨c, hcached, hc⟩ := ih
    have hwait : 0 < ms.length ∨ ms = [] :=
      (Nat.eq_zero_or_pos ms.length).symm.imp id List.length_eq_zero_iff.mp
    obtain ⟨c', happend, hc'⟩ := caches_append hc hwait m
    exact ⟨c', exec_concat.mpr ⟨c, hcached, happend⟩, hc'⟩

/-- The replay starts with the cached messages in their order. -/
theorem serves_cached (e : UChannelEntry D) (ms : List (EntryMessage B)) :
    ∃ c, cached ms = .ok c ∧ Serves ⟨e, c, []⟩ ⟨e, ms, []⟩ := by
  obtain ⟨c, hcached, hc⟩ := caches_cached ms
  exact ⟨c, hcached, rfl, rfl, hc.pending⟩

theorem replayed_iff_servesAll :
    Replayed conv current e ms ↔ ServesAll (unPackData conv current) backInCache ⟨e, ms, []⟩ := by
  obtain ⟨c, hcached, hserves⟩ := serves_cached e ms
  constructor
  · rintro ⟨c', e', taken, hc', ⟨n, hn⟩, hperm⟩
    obtain rfl := Except.ok.inj (hcached.symm.trans hc')
    exact ⟨e', taken, ⟨n, loop_replayNext hserves n ▸ hn⟩, hperm⟩
  · rintro ⟨e', taken, ⟨n, hn⟩, hperm⟩
    exact ⟨c, e', taken, hcached, ⟨n, (loop_replayNext hserves n).trans hn⟩, hperm⟩

/-- The replay is complete exactly if the entry can take the messages. -/
theorem replayed_iff (hL : Linked e) (hM : Manned e) :
    Replayed conv current e ms ↔ CanReplay conv current e ms :=
  replayed_iff_servesAll.trans ((door conv current).servesAll_iff back_backInCache ⟨hL, hM⟩)

/-- Two differential messages and no data keep the loop busy for ever. -/
theorem not_ends_of_diffs (hL : Linked e) (hM : Manned e) (hclosed : e.hasLatest = false)
    (hdiffs : ∀ m ∈ ms, m.isDiff = true) (htwo : 2 ≤ ms.length) :
    ∃ c, cached ms = .ok c ∧ ¬Ends (replayNext conv current) ⟨e, c, []⟩ := by
  obtain ⟨c, hcached, hserves⟩ := serves_cached e ms
  refine ⟨c, hcached, fun hends => ?_⟩
  obtain ⟨n, r, hn⟩ := hends
  exact (door conv current).not_ends_of_waiting back_backInCache ⟨hL, hM⟩ hclosed hdiffs htwo
    ⟨n, r, loop_replayNext hserves n ▸ hn⟩

end Dueca.Entry
