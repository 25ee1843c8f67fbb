import Dueca.End.ChangeList

/-!
# The journal of an end

A `Journal` runs an end and notes the changes published, those each client has
handled, and the deletions that cleaning has walked past. `InOrder` says that the
change list is tracked and agrees with the log; every operation of the end keeps
it.
-/

namespace Dueca.End

open Dueca.Lib

variable {pend spare : List ℕ}

/-! ### The journal -/

/-- The changes an effect list publishes. -/
def changesMade (out : List Effect) : List Change :=
  out.filterMap fun
    | .made change => some change
    | _ => none

/-- The deletions an effect list walks past. -/
def changesPassed (out : List Effect) : List Change :=
  out.filterMap fun
    | .passed change => some change
    | _ => none

/-- The changes an effect list has client `k` handle. -/
def changesHandled (out : List Effect) (k : ℕ) : List Change :=
  out.filterMap fun
    | .handled client change => if client = k then some change else none
    | _ => none

/-- The requests an effect list writes. -/
def requestsSent (out : List Effect) : List UChannelCommRequest :=
  out.filterMap fun
    | .send msg => some msg
    | _ => none

/-- All changes published, how many there were when each client came, the changes
each client has handled, and the deletions that cleaning has walked past. -/
structure Log where
  published : List Change := []
  passed : List Change := []
  since : ℕ → ℕ := fun _ => 0
  handled : ℕ → List Change := fun _ => []

/-- Note the effects of an operation. -/
def Log.append (log : Log) (out : List Effect) : Log where
  published := log.published ++ changesMade out
  passed := log.passed ++ changesPassed out
  since := log.since
  handled k := log.handled k ++ changesHandled out k

@[simp] theorem Log.append_nil (log : Log) : log.append [] = log := by
  simp [Log.append, changesMade, changesPassed, changesHandled]

@[simp] theorem Log.append_send (log : Log) (msg : UChannelCommRequest) :
    log.append [.send msg] = log := by
  simp [Log.append, changesMade, changesPassed, changesHandled]

theorem Log.append_append (log : Log) (o₁ o₂ : List Effect) :
    log.append (o₁ ++ o₂) = (log.append o₁).append o₂ := by
  simp [Log.append, changesMade, changesPassed, changesHandled]

/-- The log when a new client comes. -/
def Log.arrived (log : Log) (k : ℕ) : Log :=
  { log with since := Function.update log.since k log.published.length }

/-- The log in which the effects of an input are noted. -/
def Log.atInput (log : Log) (s : UnifiedChannel) : Input → Log
  | .addReadToken _ => log.arrived s.handles
  | _ => log

/-- An end with its log. -/
structure Journal where
  channel : UnifiedChannel
  log : Log := {}

/-- Run an end and keep its log. -/
def journalStep (reg : DataClassRegistry) (j : Journal) (i : Input) : Except Fault Journal :=
  match respond reg j.channel i with
  | .error f => .error f
  | .ok (s', out) => .ok ⟨s', (j.log.atInput j.channel i).append out⟩

/-- The change list of an end is in order, and so is its log: what a client has
handled and what awaits it on the list are the changes published since it came,
and deletions stay on the list until cleaning walks past them. -/
structure Journaled (s : UnifiedChannel) (log : Log) (pend spare : List ℕ) : Prop where
  tracked : Tracked s.changes (s.readingClients.map (·.configChange)) pend spare
  nodup : (s.readingClients.map (·.handle)).Nodup
  bound : ∀ c ∈ s.readingClients, c.handle < s.handles
  blank : ∀ k, s.handles ≤ k → log.handled k = []
  since : ∀ c ∈ s.readingClients, log.since c.handle ≤ log.published.length
  books : ∀ c ∈ s.readingClients,
    log.handled c.handle ++ awaiting s.changes pend c.configChange =
      log.published.drop (log.since c.handle)
  deletions : ∀ change, change.changetype = .deletedEntry →
    (contents s.changes pend).count change + log.passed.count change = log.published.count change

/-- The list and the log are in order. -/
def InOrder (s : UnifiedChannel) (log : Log) : Prop := ∃ pend spare, Journaled s log pend spare

/-- An operation on an end that keeps everything in order, and does not loop. -/
def KeepsOrder (log : Log) (res : Except Fault (UnifiedChannel × List Effect)) : Prop :=
  match res with
  | .ok (s', out) => InOrder s' (log.append out)
  | .error f => f ≠ .endless

variable {s s' : UnifiedChannel} {log : Log} {reg : DataClassRegistry} {pend' spare' : List ℕ}

/-- Only the clients and the change list matter. -/
theorem InOrder.congr (h : InOrder s log) (hch : s'.changes = s.changes)
    (hcl : s'.readingClients = s.readingClients) (hh : s'.handles = s.handles) :
    InOrder s' log := by
  obtain ⟨pend, spare, h⟩ := h
  refine ⟨pend, spare, ?_, ?_, ?_, ?_, ?_, ?_, ?_⟩
  · rw [hch, hcl]
    exact h.tracked
  · rw [hcl]
    exact h.nodup
  · rw [hcl, hh]
    exact h.bound
  · rw [hh]
    exact h.blank
  · rw [hcl]
    exact h.since
  · rw [hcl, hch]
    exact h.books
  · rw [hch]
    exact h.deletions

theorem inOrder_create (id : GlobalId) : InOrder (.create id) {} := by
  refine ⟨[], [], tracked_init, ?_, ?_, ?_, ?_, ?_, ?_⟩ <;>
    simp [UnifiedChannel.create, contents]

theorem changesHandled_map (k k' : ℕ) (cs : List Change) :
    changesHandled (cs.map (.handled k)) k' = if k = k' then cs else [] := by
  by_cases hk : k = k' <;> simp [changesHandled, List.filterMap_map, hk]

theorem changesMade_made (change : Change) : changesMade [.made change] = [change] := rfl

theorem changesHandled_made (change : Change) (k : ℕ) : changesHandled [.made change] k = [] := rfl

theorem changesPassed_made (change : Change) : changesPassed [.made change] = [] := rfl

theorem changesMade_map (k : ℕ) (cs : List Change) : changesMade (cs.map (.handled k)) = [] := by
  simp [changesMade]

theorem changesPassed_map (k : ℕ) (cs : List Change) :
    changesPassed (cs.map (.handled k)) = [] := by
  simp [changesPassed]

/-- Replacing the client with a handle replaces one place in the list. -/
theorem map_replace {X Y : List UCClientHandle} {c d : UCClientHandle} {k : ℕ}
    (hnodup : ((X ++ c :: Y).map (·.handle)).Nodup) (hk : c.handle = k) :
    (X ++ c :: Y).map (fun e => if e.handle = k then d else e) = X ++ d :: Y := by
  rw [List.map_append, List.map_cons] at hnodup ⊢
  obtain ⟨-, hY, hX⟩ := List.nodup_append.mp hnodup
  have hY' := (List.nodup_cons.mp hY).1
  have hsame : ∀ Z : List UCClientHandle, (∀ e ∈ Z, e.handle ≠ k) →
      Z.map (fun e => if e.handle = k then d else e) = Z := by
    intro Z hZ
    exact (List.map_congr_left fun e he => if_neg (hZ e he)).trans (List.map_id Z)
  rw [hsame X, hsame Y, if_pos hk]
  · rintro e he rfl
    exact hY' (List.mem_map.mpr ⟨e, he, hk.symm⟩)
  · rintro e he rfl
    exact hX _ (List.mem_map.mpr ⟨e, he, rfl⟩) _ List.mem_cons_self hk.symm

/-- A refresh keeps everything in order, and takes the client to the latest record. -/
theorem Journaled.refreshAt (reg : DataClassRegistry) (h : Journaled s log pend spare) (k : ℕ) :
    (∃ s' out, s.refreshAt reg k = .ok (s', out) ∧ Journaled s' (log.append out) pend spare ∧
      (∀ c ∈ s'.readingClients, c.handle = k → c.configChange = s'.changes.latest) ∧
      (∃ d ∈ s'.readingClients, d.handle = k) ∧
      ∀ d ∈ s'.readingClients, (d ∈ s.readingClients ∧ d.handle ≠ k) ∨
        ∃ c ∈ s.readingClients, c.handle = k ∧ d.handle = k ∧ d.toReadSpec = c.toReadSpec ∧
          Caught reg s.obj c (changesHandled out k) d) ∨
    ∃ f, s.refreshAt reg k = .error f ∧ f ≠ .endless := by
  unfold UnifiedChannel.refreshAt
  cases hc : s.client? k with
  | none => exact .inr ⟨_, rfl, by simp⟩
  | some c =>
    have hmem : c ∈ s.readingClients := List.mem_of_find?_eq_some hc
    have hk : c.handle = k := by simpa using List.find?_some hc
    obtain ⟨X, Y, hsplit⟩ := List.append_of_mem hmem
    have htr := h.tracked
    rw [hsplit, List.map_append, List.map_cons] at htr
    have hstart : Refreshing reg s.obj s.changes c (X.map (·.configChange))
        (Y.map (·.configChange)) pend spare { changes := s.changes, client := c } :=
      ⟨htr, rfl, rfl, fun _ => rfl, rfl, .start, rfl, rfl⟩
    have hfuel : ∀ p, (awaiting s.changes pend p).length < s.changes.allocated + 1 := by
      intro p
      have hle : (awaiting s.changes pend p).length ≤ pend.length := by
        simpa only [awaiting, contents, List.length_map] using (List.dropWhile_suffix _).length_le
      have := htr.length_lt
      omega
    obtain ⟨r₁, hskip, hr₁⟩ := hstart.skipLoop _ (hfuel _)
    simp only [Refresh.refreshClientHandleInner, hskip, Except.bind]
    rcases hr₁.processLoop _ (hfuel _) with
      ⟨r₂, hproc, hr₂, hend⟩ | ⟨f, hf, hne⟩
    · left
      simp only [hproc]
      have hnodup := h.nodup
      rw [hsplit] at hnodup
      have hreplace : s.readingClients.map (fun d => if d.handle = k then r₂.client else d) =
          X ++ r₂.client :: Y := by
        rw [hsplit, map_replace hnodup hk]
      have hhandle : r₂.client.handle = k := hr₂.same.2.trans hk
      -- the other clients are untouched, and have another handle
      have hother : ∀ d ∈ X ++ Y, d ∈ s.readingClients ∧ d.handle ≠ k := by
        intro d hd
        rw [List.map_append, List.map_cons, List.nodup_middle] at hnodup
        refine ⟨?_, fun heq => ?_⟩
        · rw [hsplit]
          simp only [List.mem_append, List.mem_cons] at hd ⊢
          tauto
        · refine (List.nodup_cons.mp hnodup).1 ?_
          rw [← List.map_append, hk, ← heq]
          exact List.mem_map.mpr ⟨d, hd, rfl⟩
      have hcases : ∀ d ∈ X ++ r₂.client :: Y, d = r₂.client ∨ d ∈ X ++ Y := by
        intro d hd
        simp only [List.mem_append, List.mem_cons] at hd ⊢
        tauto
      have hawait : ∀ p, awaiting r₂.changes pend p = awaiting s.changes pend p :=
        fun p => awaiting_congr hr₂.content
      refine ⟨_, _, rfl, ⟨?_, ?_, ?_, ?_, ?_, ?_, ?_⟩, ?_, ?_, ?_⟩
      · simp only [hreplace, List.map_append, List.map_cons]
        exact hr₂.tracked
      · simp only [hreplace, List.map_append, List.map_cons, hhandle]
        simpa only [List.map_append, List.map_cons, hk] using hnodup
      · simp only [hreplace]
        intro d hd
        rcases hcases d hd with rfl | hd
        · rw [hhandle, ← hk]
          exact h.bound c hmem
        · exact h.bound d (hother d hd).1
      · intro k' hk'
        have hne : k ≠ k' := by
          have := h.bound c hmem
          rintro rfl
          exact absurd hk' (by simp only; omega)
        simp only [Log.append, changesHandled_map, if_neg hne, List.append_nil]
        exact h.blank k' hk'
      · simp only [hreplace, Log.append, changesMade_map, List.append_nil]
        intro d hd
        rcases hcases d hd with rfl | hd
        · rw [hhandle, ← hk]
          exact h.since c hmem
        · exact h.since d (hother d hd).1
      · simp only [hreplace, Log.append, changesMade_map, List.append_nil, changesHandled_map]
        intro d hd
        rcases hcases d hd with rfl | hd
        · rw [hhandle, if_pos rfl, List.append_assoc, hawait, hr₂.handled, ← hk]
          exact h.books c hmem
        · rw [if_neg (Ne.symm (hother d hd).2), List.append_nil, hawait]
          exact h.books d (hother d hd).1
      · simp only [Log.append, changesMade_map, changesPassed_map, List.append_nil,
          contents_congr hr₂.content]
        exact h.deletions
      · simp only [hreplace]
        intro d hd hdk
        rcases hcases d hd with rfl | hd
        · exact hend.trans hr₂.latest.symm
        · exact absurd hdk (hother d hd).2
      · simp only [hreplace]
        exact ⟨r₂.client, by simp, hhandle⟩
      · simp only [hreplace, changesHandled_map, if_true]
        intro d hd
        rcases hcases d hd with rfl | hd
        · exact .inr ⟨c, hmem, hk, hhandle, hr₂.same.1, hr₂.caught⟩
        · exact .inl (hother d hd)
    · right
      simp only [hf]
      exact ⟨f, rfl, hne⟩

theorem InOrder.refreshAt (h : InOrder s log) (k : ℕ) : KeepsOrder log (s.refreshAt reg k) := by
  obtain ⟨pend, spare, h⟩ := h
  rcases h.refreshAt reg k with ⟨s', out, hok, h', -, -⟩ | ⟨f, hf, hne⟩
  · rw [hok]
    exact ⟨pend, spare, h'⟩
  · rw [hf]
    exact hne

/-- Recycling changes that every client has handled keeps everything in order, if
the log takes note of the deletions among them. -/
theorem Journaled.recycled {cl : ChangeList} (h : Journaled s log pend spare)
    (hr : Recycled s.changes cl (s.readingClients.map (·.configChange)) pend pend' spare')
    (passed : List Change)
    (hdel : ∀ change, change.changetype = .deletedEntry →
      (contents cl pend').count change + passed.count change =
        (contents s.changes pend).count change) :
    Journaled { s with changes := cl } { log with passed := log.passed ++ passed } pend'
      spare' where
  tracked := hr.tracked
  nodup := h.nodup
  bound := h.bound
  blank := h.blank
  since := h.since
  books c hc := by
    rw [hr.awaiting _ (List.mem_map.mpr ⟨c, hc, rfl⟩)]
    exact h.books c hc
  deletions change hchange := by
    have h₁ := h.deletions change hchange
    have h₂ := hdel change hchange
    simp only [List.count_append]
    omega

/-- Publishing a change keeps everything in order. -/
theorem InOrder.announce (h : InOrder s log) (change : Change) :
    KeepsOrder log (s.announce change) := by
  obtain ⟨pend, spare, h⟩ := h
  obtain ⟨cl₁, pend₁, spare₁, hrec, hr, hdel⟩ := recycleConfigChanges_spec h.tracked
  have h₁ := h.recycled hr [] (by simpa using hdel)
  rw [List.append_nil] at h₁
  obtain ⟨cl₂, spare₂, hpub, htr, hcont, haw⟩ := h₁.tracked.publish change
  simp only [List.length_map] at hpub
  simp only [UnifiedChannel.announce, hrec, hpub]
  refine ⟨pend₁ ++ [cl₁.latest], spare₂, htr, h.nodup, h.bound, ?_, ?_, ?_, ?_⟩
  · intro k hk
    simpa [Log.append, changesHandled] using h.blank k hk
  · intro c hc
    simp only [Log.append, changesMade_made, List.length_append]
    exact Nat.le_add_right_of_le (h.since c hc)
  · intro c hc
    have hbooks := h₁.books c hc
    simp only [Log.append, changesMade_made, changesHandled_made, List.append_nil]
    rw [haw _ (List.mem_map.mpr ⟨c, hc, rfl⟩), ← List.append_assoc, hbooks,
      List.drop_append_of_le_length (h.since c hc)]
  · intro change' hchange'
    have h₂ := h₁.deletions change' hchange'
    simp only at h₂
    simp only [Log.append, changesMade_made, changesPassed_made, List.append_nil, hcont,
      List.count_append]
    omega

/-- One operation after another. -/
theorem KeepsOrder.andThen {res : Except Fault (UnifiedChannel × List Effect)}
    {f : UnifiedChannel → Except Fault (UnifiedChannel × List Effect)} (h : KeepsOrder log res)
    (hf : ∀ s' out, res = .ok (s', out) → InOrder s' (log.append out) →
      KeepsOrder (log.append out) (f s')) : KeepsOrder log (andThen res f) := by
  unfold Lib.andThen
  split
  · exact h
  · rename_i s' out
    have hf' := hf s' out rfl h
    split
    · rename_i hfs
      rw [hfs] at hf'
      exact hf'
    · rename_i hfs
      rw [hfs] at hf'
      simp only [KeepsOrder, Log.append_append]
      exact hf'

theorem InOrder.callClients (msg : UChannelCommRequest) (ks : List ℕ) (h : InOrder s log) :
    KeepsOrder log (UnifiedChannel.callClients reg msg ks s) := by
  induction ks generalizing s log with
  | nil => simpa [UnifiedChannel.callClients, KeepsOrder] using h
  | cons k ks ih =>
    unfold UnifiedChannel.callClients
    split
    · simp [KeepsOrder]
    · split
      · exact (h.refreshAt k).andThen fun s' out _ h' => ih h'
      · exact ih h

theorem InOrder.linkClasses (msg : UChannelCommRequest) (e : ℕ) (cs : List String)
    (h : InOrder s log) : KeepsOrder log (UnifiedChannel.linkClasses reg msg e cs s) := by
  induction cs generalizing s log with
  | nil => simpa [UnifiedChannel.linkClasses, KeepsOrder] using h
  | cons cls cs ih =>
    unfold UnifiedChannel.linkClasses
    refine KeepsOrder.andThen (InOrder.callClients msg _ ?_) fun s' out _ h' => ih h'
    exact h.congr rfl rfl rfl

theorem entryFor_keeps {msg : UChannelCommRequest} {e : ℕ} (h : InOrder s log)
    (hfor : s.entryFor msg = .ok (e, s')) : InOrder s' log := by
  unfold UnifiedChannel.entryFor at hfor
  split at hfor
  · split at hfor
    · cases hfor
    · cases hfor
      exact h
  · cases hfor
    exact h.congr rfl rfl rfl

theorem entryFor_ne_endless (s : UnifiedChannel) (msg : UChannelCommRequest) :
    s.entryFor msg ≠ .error .endless := by
  unfold UnifiedChannel.entryFor
  repeat' split
  all_goals simp

theorem InOrder.newEntryConf (msg : UChannelCommRequest) (h : InOrder s log) :
    KeepsOrder log (s.newEntryConf reg msg) := by
  unfold UnifiedChannel.newEntryConf
  split
  · simp [KeepsOrder]
  · split
    · simpa [KeepsOrder] using h
    · split
      · simp [KeepsOrder]
      · split
        · rename_i f hfor
          rintro rfl
          exact entryFor_ne_endless s msg hfor
        · rename_i e s₁ hfor
          have h₁ : InOrder (s₁.store msg.data0 e) log := (entryFor_keeps h hfor).congr rfl rfl rfl
          exact (h₁.announce _).andThen fun s₂ out _ h₂ =>
            InOrder.linkClasses msg e _ (h₂.congr rfl rfl rfl)

theorem unlinkFromDataClass_ne_endless (e : ℕ) (cs : List String)
    (em : String → UCDataclassLink) :
    UnifiedChannel.unlinkFromDataClass e cs em ≠ .error .endless := by
  induction cs generalizing em with
  | nil => simp [UnifiedChannel.unlinkFromDataClass]
  | cons cls cs ih =>
    unfold UnifiedChannel.unlinkFromDataClass
    split
    · exact ih _
    · simp

theorem InOrder.invalidateEntryCmd (msg : UChannelCommRequest) (h : InOrder s log) :
    KeepsOrder log (s.invalidateEntryCmd msg) := by
  unfold UnifiedChannel.invalidateEntryCmd
  split
  · simp [KeepsOrder]
  · refine (h.announce _).andThen fun s₁ out _ h₁ => ?_
    split
    · simp [KeepsOrder]
    · split
      · rename_i f hun
        rintro rfl
        exact unlinkFromDataClass_ne_endless _ _ _ hun
      · simp only [KeepsOrder, Log.append_nil]
        exact h₁.congr rfl rfl rfl

/-- The record at the front is recycled by a `CleanEntryCmd` for the entry at `e`. -/
theorem Journaled.cleanStep {cl : ChangeList} {p : ℕ} (e : ℕ) (b : Prop) [Decidable b]
    (h : Journaled s log (p :: pend') spare)
    (hr : Recycled s.changes cl (s.readingClients.map (·.configChange)) (p :: pend') pend' spare') :
    Journaled { (if b then s.modifyEntry e fun o => o.cleanAllData.1 else s) with changes := cl }
      { log with passed := log.passed ++
          if (s.changes.record p).changetype = .deletedEntry
          then [(s.changes.record p).toChange] else [] } pend' spare' := by
  have hj := h.recycled hr (if (s.changes.record p).changetype = .deletedEntry
    then [(s.changes.record p).toChange] else []) fun change hchange => by
      rw [SameContent.contents hr.content]
      simp only [contents, List.map_cons, List.count_cons]
      by_cases heq : (s.changes.record p).toChange = change
      · subst heq
        simp [hchange]
      · split <;> simp [heq]
  split
  · exact ⟨hj.tracked, hj.nodup, hj.bound, hj.blank, hj.since, hj.books, hj.deletions⟩
  · exact hj

/-- The loop of a `CleanEntryCmd` ends and keeps everything in order. -/
theorem Journaled.cleanLoop (e : ℕ) (msg : UChannelCommRequest) (n : ℕ)
    (h : Journaled s log pend spare) (hn : pend.length < n) :
    KeepsOrder log (UnifiedChannel.cleanLoop e msg n s) := by
  induction n generalizing s log pend spare with
  | zero => exact absurd hn (Nat.not_lt_zero _)
  | succ n ih =>
    unfold UnifiedChannel.cleanLoop
    dsimp only
    split
    · rename_i hcond
      obtain ⟨cl₁, pend₁, spare₁, hrec, rfl, hr⟩ := h.tracked.recycled hcond.1 hcond.2
      have hch : ∀ b : Prop, [Decidable b] →
          (if b then s.modifyEntry e fun o => o.cleanAllData.1 else s).changes = s.changes := by
        intro b _
        split <;> rfl
      simp only [hch, hrec]
      -- a confirmation is not a change
      have hlog : ∀ (b : Prop) [Decidable b] (m : UChannelCommRequest),
          log.append ((if (s.changes.record s.changes.first).changetype = .deletedEntry
            then [.passed (s.changes.record s.changes.first).toChange] else []) ++
              if b then [.send m] else []) =
          { log with passed := log.passed ++
              if (s.changes.record s.changes.first).changetype = .deletedEntry
              then [(s.changes.record s.changes.first).toChange] else [] } := by
        intro b _ m
        rw [Log.append_append]
        split <;> split <;> simp [Log.append, changesMade, changesPassed, changesHandled]
      apply KeepsOrder.andThen
      · simp only [KeepsOrder, hlog]
        exact ⟨pend₁, spare₁, h.cleanStep e _ hr⟩
      · rintro s₂ out ⟨⟩ -
        rw [hlog]
        exact ih (h.cleanStep e _ hr) (by simpa using hn)
    · simpa [KeepsOrder] using ⟨pend, spare, h⟩

theorem InOrder.cleanEntryCmd (msg : UChannelCommRequest) (h : InOrder s log) :
    KeepsOrder log (s.cleanEntryCmd msg) := by
  unfold UnifiedChannel.cleanEntryCmd
  split
  · simp [KeepsOrder]
  · obtain ⟨pend, spare, h⟩ := h
    exact h.cleanLoop _ msg _ (Nat.lt_succ_of_lt h.tracked.length_lt)

theorem InOrder.updateConfiguration (msg : UChannelCommRequest) (h : InOrder s log) :
    KeepsOrder log (s.updateConfiguration reg msg) := by
  unfold UnifiedChannel.updateConfiguration
  split
  · split
    · simpa [KeepsOrder] using h
    · simp [KeepsOrder]
  · exact h.newEntryConf msg
  · exact h.invalidateEntryCmd msg
  · exact h.cleanEntryCmd msg
  · unfold UnifiedChannel.deleteEntryCmd
    split
    · simp [KeepsOrder]
    · simp only [KeepsOrder, Log.append_nil]
      exact h.congr rfl rfl rfl
  · simpa [KeepsOrder] using h
  · simp [KeepsOrder]

/-! ### Tokens -/

theorem linkMatching_same {obj : ℕ → UChannelEntry} {es : List ℕ} {c c' : UCClientHandle}
    (h : UnifiedChannel.linkMatching obj es c = .ok c') :
    c'.configChange = c.configChange ∧ c'.handle = c.handle := by
  induction es generalizing c with
  | nil =>
    cases h
    exact ⟨rfl, rfl⟩
  | cons e es ih =>
    unfold UnifiedChannel.linkMatching at h
    split at h
    · obtain ⟨d, hd, hrest⟩ := bind_eq_ok.mp h
      unfold UCClientHandle.linkReadClientToEntry at hd
      split at hd
      · cases hd
      · cases hd
        have hsame := ih hrest
        exact hsame
    · exact ih h

theorem linkMatching_ne_endless (obj : ℕ → UChannelEntry) (es : List ℕ) (c : UCClientHandle) :
    UnifiedChannel.linkMatching obj es c ≠ .error .endless := by
  induction es generalizing c with
  | nil => simp [UnifiedChannel.linkMatching]
  | cons e es ih =>
    unfold UnifiedChannel.linkMatching UCClientHandle.linkReadClientToEntry
    split
    · split
      · simp [Except.bind]
      · exact ih _
    · exact ih c

/-- A new client starts at the latest record, with nothing to handle. -/
theorem InOrder.addReadToken (spec : ReadSpec) (h : InOrder s log) :
    KeepsOrder (log.arrived s.handles) (s.addReadToken spec) := by
  unfold UnifiedChannel.addReadToken
  dsimp only
  split
  · rename_i f hf
    rintro rfl
    exact linkMatching_ne_endless _ _ _ hf
  · rename_i c' hc'
    obtain ⟨hcc, hhandle⟩ := linkMatching_same hc'
    obtain ⟨pend, spare, h⟩ := h
    have hcases : ∀ d ∈ s.readingClients ++ [c'], d ∈ s.readingClients ∧ d.handle ≠ s.handles ∨
        d = c' := by
      intro d hd
      rcases List.mem_append.mp hd with hd | hd
      · exact .inl ⟨hd, Nat.ne_of_lt (h.bound d hd)⟩
      · exact .inr (List.mem_singleton.mp hd)
    simp only [KeepsOrder, Log.append_send, Log.arrived]
    refine ⟨pend, spare, ?_, ?_, ?_, ?_, ?_, ?_, h.deletions⟩
    · simp only [UnifiedChannel.modifyLink, List.map_append, List.map_singleton, hcc]
      exact h.tracked.add
    · simp only [UnifiedChannel.modifyLink, List.map_append, List.map_singleton, hhandle]
      refine List.nodup_append.mpr ⟨h.nodup, List.nodup_singleton _, fun k hk k' hk' => ?_⟩
      obtain ⟨d, hd, rfl⟩ := List.mem_map.mp hk
      rw [List.mem_singleton.mp hk']
      exact Nat.ne_of_lt (h.bound d hd)
    · intro d hd
      rcases hcases d hd with ⟨hd, -⟩ | rfl
      · exact Nat.lt_succ_of_lt (h.bound d hd)
      · rw [hhandle]
        exact Nat.lt_succ_self _
    · intro k hk
      exact h.blank k (Nat.le_of_succ_le hk)
    · intro d hd
      rcases hcases d hd with ⟨hd, hne⟩ | rfl
      · simp only [Function.update_of_ne hne]
        exact h.since d hd
      · simp only [hhandle, Function.update_self]
        exact Nat.le_refl _
    · intro d hd
      simp only [UnifiedChannel.modifyLink]
      rcases hcases d hd with ⟨hd, hne⟩ | rfl
      · rw [Function.update_of_ne hne]
        exact h.books d hd
      · rw [hhandle, hcc, Function.update_self, h.blank _ (Nat.le_refl _), awaiting_latest h.tracked,
          List.drop_length]
        rfl

theorem InOrder.removeReadToken (k : ℕ) (h : InOrder s log) :
    KeepsOrder log (s.removeReadToken reg k) := by
  obtain ⟨pend, spare, h⟩ := h
  unfold UnifiedChannel.removeReadToken
  rcases h.refreshAt reg k with ⟨s₁, out, hok, h₁, hend, -⟩ | ⟨f, hf, hne⟩
  · refine KeepsOrder.andThen ?_ ?_
    · rw [hok]
      exact ⟨pend, spare, h₁⟩
    · intro s₂ out' hs₂ _
      rw [hok] at hs₂
      cases hs₂
      split
      · simp [KeepsOrder]
      · rename_i c hc
        split
        · have hmem : c ∈ s₁.readingClients := List.mem_of_find?_eq_some hc
          have hk : c.handle = k := by simpa using List.find?_some hc
          obtain ⟨d, X, Y, hX, hdk, hsplit, herase⟩ :=
            List.exists_of_eraseP (p := fun d => d.handle == k) hmem (by simpa using hk)
          have hd : d.configChange = s₁.changes.latest :=
            hend d (by simp [hsplit]) (by simpa using hdk)
          have hsub : ∀ e ∈ X ++ Y, e ∈ s₁.readingClients := by
            intro e he
            rw [hsplit]
            simp only [List.mem_append, List.mem_cons] at he ⊢
            tauto
          simp only [KeepsOrder, Log.append_send]
          refine ⟨pend, spare, ?_, ?_, ?_, h₁.blank, ?_, ?_, h₁.deletions⟩
          · simp only [UnifiedChannel.modifyLink, herase, List.map_append]
            have htr := h₁.tracked
            rw [hsplit, List.map_append, List.map_cons, hd] at htr
            exact htr.remove
          · simp only [UnifiedChannel.modifyLink]
            exact h₁.nodup.sublist (List.eraseP_sublist.map _)
          · intro e he
            simp only [UnifiedChannel.modifyLink, herase] at he
            exact h₁.bound e (hsub e he)
          · intro e he
            simp only [UnifiedChannel.modifyLink, herase] at he
            exact h₁.since e (hsub e he)
          · intro e he
            simp only [UnifiedChannel.modifyLink, herase] at he
            exact h₁.books e (hsub e he)
        · simp [KeepsOrder]
  · rw [hf]
    exact hne

theorem InOrder.select (k : ℕ) (f : UCClientHandle → Option ℕ) (h : InOrder s log) :
    InOrder (s.select k f) log := by
  obtain ⟨pend, spare, h⟩ := h
  have hmap : ∀ (g : UCClientHandle → ℕ), (∀ c v, g { c with entry := v } = g c) →
      (s.select k f).readingClients.map g = s.readingClients.map g := by
    intro g hg
    simp only [UnifiedChannel.select, List.map_map]
    refine List.map_congr_left fun c _ => ?_
    simp only [Function.comp_apply]
    split
    · exact hg c _
    · rfl
  have hback : ∀ c ∈ (s.select k f).readingClients, ∃ c₀ ∈ s.readingClients,
      c.handle = c₀.handle ∧ c.configChange = c₀.configChange := by
    intro c hc
    obtain ⟨c₀, hc₀, rfl⟩ := List.mem_map.mp hc
    refine ⟨c₀, hc₀, ?_, ?_⟩ <;> split <;> rfl
  refine ⟨pend, spare, ?_, ?_, ?_, h.blank, ?_, ?_, h.deletions⟩
  · rw [hmap _ fun _ _ => rfl]
    exact h.tracked
  · rw [hmap _ fun _ _ => rfl]
    exact h.nodup
  · intro c hc
    obtain ⟨c₀, hc₀, hh, -⟩ := hback c hc
    rw [hh]
    exact h.bound c₀ hc₀
  · intro c hc
    obtain ⟨c₀, hc₀, hh, -⟩ := hback c hc
    rw [hh]
    exact h.since c₀ hc₀
  · intro c hc
    obtain ⟨c₀, hc₀, hh, hcc⟩ := hback c hc
    rw [hh, hcc]
    exact h.books c₀ hc₀

theorem InOrder.refreshThenSelect (k : ℕ) (f : UCClientHandle → Option ℕ) (h : InOrder s log) :
    KeepsOrder log (andThen (s.refreshAt reg k) fun s₁ => .ok (s₁.select k f, [])) := by
  refine (h.refreshAt k).andThen fun s' out _ h' => ?_
  simpa [KeepsOrder] using h'.select k f

/-! ### Every run -/

/-- The state of the change list that readers and clean-up rely on, with the
addresses `l` of the range from `entry_config_changes` to
`latest_entry_config_change`. -/
structure ChangesOk (j : Journal) (l : List ℕ) : Prop where
  first : l.head? = some j.channel.changes.first
  last : l.getLast? = some j.channel.changes.latest
  linked : ∀ a p q b, l = a ++ p :: q :: b → (j.channel.changes.record p).next = some q
  nodup : l.Nodup
  /-- Every pointer lies in the range. -/
  pointer : ∀ c ∈ j.channel.readingClients, c.configChange ∈ l
  /-- A change but the last counts the clients with their pointer at it or before it. -/
  tocheck : ∀ a p q b, l = a ++ p :: q :: b → (j.channel.changes.record p).tocheck =
    j.channel.readingClients.countP (·.configChange ∈ a ++ [p])
  /-- Each client has handled, once and in order, the changes made since it came, up to
  those that are on the list from its pointer on. -/
  handled : ∀ c ∈ j.channel.readingClients,
    j.log.handled c.handle ++
      ((l.dropLast.dropWhile (· ≠ c.configChange)).map
        fun p => (j.channel.changes.record p).toChange) =
      j.log.published.drop (j.log.since c.handle)

theorem Journaled.changesOk {j : Journal} (h : Journaled j.channel j.log pend spare) :
    ChangesOk j (pend ++ [j.channel.changes.latest]) where
  first := h.tracked.first
  last := by simp
  linked a p q b hsplit := by
    have hseg := h.tracked.segment
    rw [List.append_cons, hsplit, List.append_assoc, List.cons_append] at hseg
    simpa [ChangeList.next] using Segment.next_eq hseg
  nodup := by
    have := h.tracked.nodup
    rw [List.append_cons] at this
    exact (List.nodup_append.mp this).1
  pointer c hc := h.tracked.cursor _ (List.mem_map.mpr ⟨c, hc, rfl⟩)
  tocheck a p q b hsplit := by
    rcases List.eq_nil_or_concat b with rfl | ⟨b', z, rfl⟩
    · have hsplit' : pend ++ [j.channel.changes.latest] = (a ++ [p]) ++ [q] := by
        simpa using hsplit
      obtain ⟨rfl, -⟩ := List.append_inj' hsplit' rfl
      rw [h.tracked.tocheck a p [] rfl, List.countP_map]
      rfl
    · have hsplit' : pend ++ [j.channel.changes.latest] = (a ++ p :: q :: b') ++ [z] := by
        simpa using hsplit
      obtain ⟨rfl, -⟩ := List.append_inj' hsplit' rfl
      rw [h.tracked.tocheck a p (q :: b') rfl, List.countP_map]
      rfl
  handled c hc := by
    rw [List.dropLast_concat]
    exact h.books c hc

/-- An input keeps the list and the log in order, and does not loop. -/
theorem InOrder.step {j : Journal} (reg : DataClassRegistry) (h : InOrder j.channel j.log)
    (i : Input) :
    match journalStep reg j i with
    | .ok j' => InOrder j'.channel j'.log
    | .error f => f ≠ .endless := by
  have hkeeps : ∀ (log : Log) (res : Except Fault (UnifiedChannel × List Effect)),
      KeepsOrder log res →
      match (match res with
        | .error f => .error f
        | .ok (s', out) => .ok ⟨s', log.append out⟩ : Except Fault Journal) with
      | .ok j' => InOrder j'.channel j'.log
      | .error f => f ≠ .endless := by
    intro log res hres
    cases res with
    | error f => exact hres
    | ok p => exact hres
  unfold journalStep
  cases i with
  | addReadToken spec => exact hkeeps _ _ (h.addReadToken spec)
  | removeReadToken k => exact hkeeps _ _ (h.removeReadToken k)
  | refreshClientHandle k => exact hkeeps _ _ (h.refreshAt k)
  | selectFirstEntry k => exact hkeeps _ _ (h.refreshThenSelect k _)
  | getNextEntry k => exact hkeeps _ _ (h.refreshThenSelect k _)
  | addWriteToken spec =>
    apply hkeeps j.log (.ok (j.channel.addWriteToken spec))
    simp only [KeepsOrder, UnifiedChannel.addWriteToken, Log.append_send]
    exact h.congr rfl rfl rfl
  | removeWriteToken e =>
    apply hkeeps j.log (.ok (j.channel.removeWriteToken e))
    simpa only [KeepsOrder, UnifiedChannel.removeWriteToken, Log.append_send] using h
  | updateConfiguration msg => exact hkeeps _ _ (h.updateConfiguration msg)
  | data e counts =>
    apply hkeeps j.log (.ok (_, []))
    simp only [KeepsOrder, Log.append_nil]
    exact h.congr rfl rfl rfl

/-- After every run of an end its change list is in order, and no loop over the
list runs forever. -/
theorem changeList_invariant (reg : DataClassRegistry) (id : GlobalId) (inputs : List Input) :
    (∀ j, exec (journalStep reg) ⟨.create id, {}⟩ inputs = .ok j → ∃ l, ChangesOk j l) ∧
      exec (journalStep reg) ⟨.create id, {}⟩ inputs ≠ .error .endless := by
  suffices h : ∀ j, InOrder j.channel j.log →
      match exec (journalStep reg) j inputs with
      | .ok j' => InOrder j'.channel j'.log
      | .error f => f ≠ .endless by
    have hrun := h ⟨.create id, {}⟩ (inOrder_create id)
    refine ⟨fun j hj => ?_, fun hf => ?_⟩
    · rw [hj] at hrun
      obtain ⟨pend, spare, hrun⟩ := hrun
      exact ⟨_, hrun.changesOk⟩
    · rw [hf] at hrun
      exact hrun rfl
  induction inputs with
  | nil =>
    intro j hj
    exact hj
  | cons i is ih =>
    intro j hj
    have hstep := hj.step reg i
    cases hji : journalStep reg j i with
    | error f =>
      rw [hji] at hstep
      simpa only [exec, hji] using hstep
    | ok j' =>
      rw [hji] at hstep
      simpa only [exec, hji] using ih j' hstep

end Dueca.End
