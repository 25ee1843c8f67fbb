import Dueca.End.Link

/-!
# What an end does with its messages

The life of an entry id at an end, seen from outside: which ids it holds, which
deletions it has published and passed, and which requests it writes. Everything else an
end does is `Quiet`. One lemma for each command says what it does to these.
-/

namespace Dueca.End

open Dueca.Lib

variable {reg : DataClassRegistry} {s s' s₁ s₂ : UnifiedChannel} {out out' : List Effect}
  {msg : UChannelCommRequest} {k : ℕ}

theorem requestsSent_append (o₁ o₂ : List Effect) :
    requestsSent (o₁ ++ o₂) = requestsSent o₁ ++ requestsSent o₂ :=
  List.filterMap_append

theorem changesMade_append (o₁ o₂ : List Effect) :
    changesMade (o₁ ++ o₂) = changesMade o₁ ++ changesMade o₂ :=
  List.filterMap_append

theorem changesPassed_append (o₁ o₂ : List Effect) :
    changesPassed (o₁ ++ o₂) = changesPassed o₁ ++ changesPassed o₂ :=
  List.filterMap_append

/-- The end holds the same entries, with the same writers. -/
structure SameEntries (s s' : UnifiedChannel) : Prop where
  id : s'.id = s.id
  creationId : s'.creationId = s.creationId
  objects : s'.objects = s.objects
  held : s'.held = s.held
  names : ∀ p, (s'.obj p).creationId = (s.obj p).creationId ∧
    (s'.obj p).isLocal = (s.obj p).isLocal

theorem SameEntries.refl (s : UnifiedChannel) : SameEntries s s :=
  ⟨rfl, rfl, rfl, rfl, fun _ => ⟨rfl, rfl⟩⟩

theorem SameEntries.trans (h : SameEntries s s₁) (h' : SameEntries s₁ s₂) : SameEntries s s₂ where
  id := h'.id.trans h.id
  creationId := h'.creationId.trans h.creationId
  objects := h'.objects.trans h.objects
  held := h'.held.trans h.held
  names p := ⟨(h'.names p).1.trans (h.names p).1, (h'.names p).2.trans (h.names p).2⟩

/-- A request that has to do with neither writers nor cleaning. -/
def isPlain (msg : UChannelCommRequest) : Bool :=
  msg.type == .newClientNotif || msg.type == .leaveClientNotif || msg.type == .deleteEntryReq

/-- No entry comes or goes, no deletion is published or passed, and requests are plain. -/
structure Quiet (s s' : UnifiedChannel) (out : List Effect) : Prop where
  same : SameEntries s s'
  writers : s'.writingClients = s.writingClients
  made : ∀ e, deletion e ∉ changesMade out
  passed : changesPassed out = []
  sent : ∀ msg ∈ requestsSent out, isPlain msg = true

theorem Quiet.refl (s : UnifiedChannel) : Quiet s s [] :=
  ⟨.refl s, rfl, by simp [changesMade], rfl, by simp [requestsSent]⟩

theorem Quiet.trans (h : Quiet s s₁ out) (h' : Quiet s₁ s₂ out') : Quiet s s₂ (out ++ out') where
  same := h.same.trans h'.same
  writers := h'.writers.trans h.writers
  made e := by
    rw [changesMade_append, List.mem_append, not_or]
    exact ⟨h.made e, h'.made e⟩
  passed := by
    rw [changesPassed_append, h.passed, h'.passed]
    rfl
  sent msg hmsg := by
    rw [requestsSent_append, List.mem_append] at hmsg
    exact hmsg.elim (h.sent msg) (h'.sent msg)

theorem refreshAt_quiet (h : s.refreshAt reg k = .ok (s', out)) : Quiet s s' out := by
  simp only [UnifiedChannel.refreshAt] at h
  split at h
  · cases h
  · split at h
    · cases h
    · cases h
      refine ⟨⟨rfl, rfl, rfl, rfl, fun _ => ⟨rfl, rfl⟩⟩, rfl, ?_, changesPassed_map k _, ?_⟩
      · simp [changesMade_map]
      · simp [requestsSent]

theorem callClients_quiet (ks : List ℕ)
    (h : UnifiedChannel.callClients reg msg ks s = .ok (s', out)) : Quiet s s' out := by
  induction ks generalizing s out with
  | nil =>
    cases h
    exact .refl _
  | cons k ks ih =>
    rw [UnifiedChannel.callClients] at h
    split at h
    · cases h
    · split at h
      · obtain ⟨s₁, o, o', hs₁, hrest, rfl⟩ := andThen_eq_ok.mp h
        exact (refreshAt_quiet hs₁).trans (ih hrest)
      · exact ih h

theorem enlist_quiet (s : UnifiedChannel) (e : ℕ) (cls : String) : Quiet s (enlist s e cls) [] := by
  refine ⟨⟨rfl, rfl, rfl, rfl, fun p => ?_⟩, rfl, by simp [changesMade], rfl,
    by simp [requestsSent]⟩
  by_cases hp : p = e
  · subst hp
    simp [enlist, UnifiedChannel.modifyEntry, UnifiedChannel.modifyLink]
  · simp [enlist, UnifiedChannel.modifyEntry, UnifiedChannel.modifyLink, hp]

theorem linkClasses_quiet {e : ℕ} (cs : List String)
    (h : UnifiedChannel.linkClasses reg msg e cs s = .ok (s', out)) : Quiet s s' out := by
  induction cs generalizing s out with
  | nil =>
    cases h
    exact .refl _
  | cons cl cs ih =>
    rw [UnifiedChannel.linkClasses] at h
    obtain ⟨s₂, o, o', hcall, hrest, rfl⟩ := andThen_eq_ok.mp h
    exact ((enlist_quiet s e cl).trans (callClients_quiet _ hcall)).trans (ih hrest)

theorem removeReadToken_quiet (h : s.removeReadToken reg k = .ok (s', out)) : Quiet s s' out := by
  simp only [UnifiedChannel.removeReadToken] at h
  obtain ⟨s₁, o, o', href, hrest, rfl⟩ := andThen_eq_ok.mp h
  refine (refreshAt_quiet href).trans ?_
  split at hrest
  · cases hrest
  · split at hrest
    · cases hrest
      refine ⟨⟨rfl, rfl, rfl, rfl, fun _ => ⟨rfl, rfl⟩⟩, rfl, by simp [changesMade], rfl, ?_⟩
      simp [requestsSent, isPlain]
    · cases hrest

theorem refreshThenSelect_quiet {f : UCClientHandle → Option ℕ}
    (h : andThen (s.refreshAt reg k) (fun s₁ => .ok (s₁.select k f, [])) = .ok (s', out)) :
    Quiet s s' out := by
  obtain ⟨s₁, o, o', href, hsel, rfl⟩ := andThen_eq_ok.mp h
  cases hsel
  refine (refreshAt_quiet href).trans ⟨⟨rfl, rfl, rfl, rfl, fun _ => ⟨rfl, rfl⟩⟩, rfl, ?_, rfl, ?_⟩
  · simp [changesMade]
  · simp [requestsSent]

/-- Calls on tokens, and reading and writing, are quiet; a new writer is the exception. -/
theorem respond_quiet {i : Input} (h : respond reg s i = .ok (s', out))
    (hconf : ∀ msg, i ≠ .updateConfiguration msg) (hwrite : ∀ spec, i ≠ .addWriteToken spec) :
    Quiet s s' out := by
  cases i with
  | addReadToken spec =>
    simp only [respond, UnifiedChannel.addReadToken] at h
    split at h
    · cases h
    · cases h
      refine ⟨⟨rfl, rfl, rfl, rfl, fun _ => ⟨rfl, rfl⟩⟩, rfl, by simp [changesMade], rfl, ?_⟩
      simp [requestsSent, isPlain]
  | removeReadToken k => exact removeReadToken_quiet h
  | refreshClientHandle k => exact refreshAt_quiet h
  | selectFirstEntry k => exact refreshThenSelect_quiet h
  | getNextEntry k => exact refreshThenSelect_quiet h
  | addWriteToken spec => exact absurd rfl (hwrite spec)
  | removeWriteToken e =>
    cases h
    refine ⟨.refl _, rfl, by simp [changesMade], rfl, ?_⟩
    simp [requestsSent, isPlain]
  | updateConfiguration msg => exact absurd rfl (hconf msg)
  | data e counts =>
    cases h
    refine ⟨⟨rfl, rfl, rfl, rfl, fun p => ?_⟩, rfl, by simp [changesMade], rfl,
      by simp [requestsSent]⟩
    by_cases hp : p = e
    · subst hp
      simp [UnifiedChannel.modifyEntry]
    · simp [UnifiedChannel.modifyEntry, hp]

/-! ### Commands of the master -/

/-- The entry for a `NewEntryConf` is that of a writer here, or a new one. -/
theorem entryFor_cases {e : ℕ} (h : s.entryFor msg = .ok (e, s₁)) :
    (e ∈ s.writingClients ∧ (s.obj e).creationId = msg.data1 ∧ s₁ = s) ∨
      (e = s.objects ∧ ∃ o : UChannelEntry, s₁ = { s with
        objects := s.objects + 1
        obj := Function.update s.obj s.objects o }) := by
  simp only [UnifiedChannel.entryFor] at h
  split at h
  · split at h
    · cases h
    · rename_i hfind
      cases h
      exact .inl ⟨List.mem_of_find?_eq_some hfind, by simpa using List.find?_some hfind, rfl⟩
  · cases h
    exact .inr ⟨rfl, _, rfl⟩

/-- A `NewEntryConf` for an id that is held does nothing. For another id the end holds the
entry of the writer, or a new entry. -/
theorem newEntryConf_spec (h : s.newEntryConf reg msg = .ok (s', out)) :
    ((s.held msg.data0).isSome ∧ s' = s ∧ out = []) ∨
      (s.held msg.data0 = none ∧ ∃ e s₁, s.entryFor msg = .ok (e, s₁) ∧
        Quiet (s₁.store msg.data0 e) s' out) := by
  simp only [UnifiedChannel.newEntryConf] at h
  split at h
  · cases h
  split at h
  · rename_i hheld
    cases h
    exact .inl ⟨hheld, rfl, rfl⟩
  split at h
  · cases h
  split at h
  · cases h
  rename_i _ hheld _ _ e s₁ hfor
  refine .inr ⟨by simpa using hheld, e, s₁, hfor, ?_⟩
  obtain ⟨s₂, o, o', hann, hlink, rfl⟩ := andThen_eq_ok.mp h
  obtain ⟨hframe, rfl⟩ := announce_frame hann
  refine Quiet.trans ?_ (linkClasses_quiet _ hlink)
  rw [hframe]
  refine ⟨⟨rfl, rfl, rfl, rfl, fun p => ?_⟩, rfl, ?_, rfl, by simp [requestsSent]⟩
  · by_cases hp : p = e
    · subst hp
      simp [UnifiedChannel.modifyEntry, UnifiedChannel.store]
    · simp [UnifiedChannel.modifyEntry, UnifiedChannel.store, hp]
  · simp [changesMade_made, deletion]

/-- An `InvalidateEntryCmd` publishes the deletion of the entry, and its writer is gone. -/
theorem invalidateEntryCmd_spec (h : s.invalidateEntryCmd msg = .ok (s', out)) :
    ∃ e, s.held msg.data0 = some e ∧ SameEntries s s' ∧ changesMade out = [deletion e] ∧
      changesPassed out = [] ∧ requestsSent out = [] ∧
      s'.writingClients =
        if (s.obj e).isLocal then s.writingClients.erase e else s.writingClients := by
  simp only [UnifiedChannel.invalidateEntryCmd] at h
  split at h
  · cases h
  rename_i e hheld
  obtain ⟨s₁, o, o', hann, hrest, rfl⟩ := andThen_eq_ok.mp h
  obtain ⟨hframe, rfl⟩ := announce_frame hann
  split at hrest
  · cases hrest
  split at hrest
  · cases hrest
  cases hrest
  refine ⟨e, hheld, ?_, rfl, rfl, rfl, ?_⟩
  · rw [hframe]
    refine ⟨rfl, rfl, rfl, rfl, fun p => ?_⟩
    by_cases hp : p = e
    · subst hp
      simp [UnifiedChannel.modifyEntry]
    · simp [UnifiedChannel.modifyEntry, hp]
  · rw [hframe]
    rfl

/-- The walk of a `CleanEntryCmd` sends confirmations for its entry only, and passes a
deletion of the entry for each. -/
structure CleanWalk (msg : UChannelCommRequest) (e : ℕ) (s s' : UnifiedChannel)
    (out : List Effect) : Prop where
  same : SameEntries s s'
  writers : s'.writingClients = s.writingClients
  made : changesMade out = []
  sent : ∀ r ∈ requestsSent out, r.type = .cleanEntryConf ∧ r.data0 = msg.data0
  bound : (requestsSent out).length ≤ (changesPassed out).count (deletion e)

theorem CleanWalk.trans {e : ℕ} (h : CleanWalk msg e s s₁ out) (h' : CleanWalk msg e s₁ s₂ out') :
    CleanWalk msg e s s₂ (out ++ out') where
  same := h.same.trans h'.same
  writers := h'.writers.trans h.writers
  made := by
    rw [changesMade_append, h.made, h'.made]
    rfl
  sent r hr := by
    rw [requestsSent_append, List.mem_append] at hr
    exact hr.elim (h.sent r) (h'.sent r)
  bound := by
    rw [requestsSent_append, changesPassed_append, List.length_append, List.count_append]
    exact Nat.add_le_add h.bound h'.bound

theorem cleanLoop_walk {e : ℕ} (n : ℕ)
    (h : UnifiedChannel.cleanLoop e msg n s = .ok (s', out)) : CleanWalk msg e s s' out := by
  induction n generalizing s out with
  | zero => cases h
  | succ n ih =>
    rw [UnifiedChannel.cleanLoop] at h
    dsimp only at h
    split at h
    · split at h
      · cases h
      · obtain ⟨s₁, o, o', hfirst, hrest, rfl⟩ := andThen_eq_ok.mp h
        cases hfirst
        refine CleanWalk.trans ?_ (ih hrest)
        have hnames : ∀ p, ((s.modifyEntry e fun o => o.cleanAllData.1).obj p).creationId =
            (s.obj p).creationId ∧ ((s.modifyEntry e fun o => o.cleanAllData.1).obj p).isLocal =
              (s.obj p).isLocal := by
          intro p
          by_cases hp : p = e
          · subst hp
            simp [UnifiedChannel.modifyEntry, UChannelEntry.cleanAllData]
          · simp [UnifiedChannel.modifyEntry, hp]
        refine ⟨⟨?_, ?_, ?_, ?_, fun p => ?_⟩, ?_, ?_, ?_, ?_⟩
        · split <;> rfl
        · split <;> rfl
        · split <;> rfl
        · split <;> rfl
        · split
          · exact hnames p
          · exact ⟨rfl, rfl⟩
        · split <;> rfl
        · split <;> split <;> rfl
        · intro r hr
          rw [requestsSent_append] at hr
          rcases List.mem_append.mp hr with hr | hr
          · split at hr <;> cases hr
          · split at hr
            · obtain rfl : r = _ := List.mem_singleton.mp hr
              exact ⟨rfl, rfl⟩
            · cases hr
        · -- a confirmation is sent where the deletion of this entry is passed
          generalize hcc : (s.changes.record s.changes.first).toChange = change
          by_cases hhit : change.changetype = .deletedEntry ∧ change.entry = some e
          · have hdel : change = deletion e := by
              obtain ⟨ct, en⟩ := change
              obtain ⟨rfl, rfl⟩ := hhit
              rfl
            rw [hdel]
            simp only [deletion, if_true]
            split <;> simp [requestsSent, changesPassed]
          · rw [if_neg (show ¬ ((change.changetype = .deletedEntry ∧ change.entry = some e) ∧ _)
              from fun h => hhit h.1), List.append_nil]
            split <;> exact Nat.zero_le _
    · cases h
      exact ⟨.refl _, rfl, rfl, by simp [requestsSent], Nat.zero_le _⟩

theorem cleanEntryCmd_spec (h : s.cleanEntryCmd msg = .ok (s', out)) :
    ∃ e, s.held msg.data0 = some e ∧ CleanWalk msg e s s' out := by
  simp only [UnifiedChannel.cleanEntryCmd] at h
  split at h
  · cases h
  · rename_i e hheld
    exact ⟨e, hheld, cleanLoop_walk _ h⟩

theorem held_set_none (s : UnifiedChannel) (h k : ℕ) :
    ({ s with entries := s.entries.set h none } : UnifiedChannel).held k =
      if k = h then none else s.held k := by
  simp only [UnifiedChannel.held, List.getElem?_set]
  by_cases hk : k = h
  · subst hk
    simp only [if_true]
    split <;> rfl
  · rw [if_neg hk, if_neg (Ne.symm hk)]

theorem deleteEntryCmd_spec (h : s.deleteEntryCmd msg = .ok (s', out)) :
    (s.held msg.data0).isSome ∧ out = [] ∧
      s' = { s with entries := s.entries.set msg.data0 none } := by
  simp only [UnifiedChannel.deleteEntryCmd] at h
  split at h
  · cases h
  · rename_i e hheld
    cases h
    exact ⟨by rw [hheld]; rfl, rfl, rfl⟩

end Dueca.End
