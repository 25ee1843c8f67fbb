import Dueca.End.Journal

/-!
# Cleaning confirmations

A `CleanEntryCmd` makes an end walk over the changes that all its readers have
handled. The end confirms when it meets the deletion of the entry and the data
can be cleaned; every record it passes is recycled, deletions of other entries and
of entries with data in use included. A deletion that has been passed is not met
again, so whether an end confirms depends on whether an earlier walk came by.
-/

namespace Dueca.End

open Dueca.Lib UnifiedChannel

variable {s : UnifiedChannel} {cl cl' : ChangeList} {cursors pend spare : List ℕ} {e : ℕ}

/-- The deletion of the entry at address `e`. -/
def deletion (e : ℕ) : Change := ⟨.deletedEntry, some e⟩

/-- The changes at the front of the list that no reader waits for. -/
def handledFront (cl : ChangeList) (pend : List ℕ) : List ℕ :=
  pend.takeWhile fun p => (cl.record p).tocheck == 0

theorem SameContent.handledFront (h : SameContent cl cl') (pend : List ℕ) :
    handledFront cl' pend = handledFront cl pend := by
  simp only [Dueca.End.handledFront, (h _).2]

theorem cleanAllData_again {o : UChannelEntry} (h : o.cleanAllData.2 = true) :
    o.cleanAllData.1.cleanAllData.2 = true := by
  simp only [UChannelEntry.cleanAllData, List.isEmpty_iff] at h ⊢
  rw [h]
  rfl

/-- The confirmation of an end. -/
def cleanConf (h r : ℕ) : Effect := .send { type := .cleanEntryConf, data0 := h, data1 := r }

/-- The loop of a `CleanEntryCmd` for an entry that can be cleaned confirms if it
meets the entry's deletion. -/
theorem cleanLoop_confirms (msg : UChannelCommRequest) (n : ℕ)
    (h : Tracked s.changes cursors pend spare) (hn : pend.length < n)
    (hclean : (s.obj e).cleanAllData.2 = true) :
    ∃ s' out, cleanLoop e msg n s = .ok (s', out) ∧
      (cleanConf msg.data0 msg.data1 ∈ out ↔
        deletion e ∈ contents s.changes (handledFront s.changes pend)) := by
  induction n generalizing s pend spare with
  | zero => exact absurd hn (Nat.not_lt_zero _)
  | succ n ih =>
    unfold cleanLoop
    dsimp only
    split
    · rename_i hcond
      obtain ⟨cl₁, pend₁, spare₁, hrec, rfl, hr⟩ := h.recycled hcond.1 hcond.2
      have hch : ∀ b : Prop, [Decidable b] →
          (if b then s.modifyEntry e fun o => o.cleanAllData.1 else s).changes = s.changes := by
        intro b _
        split <;> rfl
      simp only [hch, hrec]
      generalize hs₁ : (if (s.changes.record s.changes.first).changetype = ConfigEvent.deletedEntry ∧
        (s.changes.record s.changes.first).entry = some e
          then s.modifyEntry e fun o => o.cleanAllData.1 else s) = s₁
      have hclean₁ : (s₁.obj e).cleanAllData.2 = true := by
        rw [← hs₁]
        split
        · simpa [modifyEntry] using cleanAllData_again hclean
        · exact hclean
      obtain ⟨s₂, out₂, hloop, hiff⟩ := ih (s := { s₁ with changes := cl₁ }) hr.tracked
        (by simpa using hn) hclean₁
      refine ⟨s₂, _, andThen_eq_ok.mpr ⟨_, _, _, rfl, hloop, rfl⟩, ?_⟩
      have hfront : handledFront s.changes (s.changes.first :: pend₁) =
          s.changes.first :: handledFront s.changes pend₁ := by
        simp [handledFront, hcond.2]
      have hmem : deletion e = (s.changes.record s.changes.first).toChange ↔
          (s.changes.record s.changes.first).changetype = .deletedEntry ∧
            (s.changes.record s.changes.first).entry = some e := by
        rw [eq_comm, deletion, Change.mk.injEq]
      rw [hr.content.handledFront, hr.content.contents] at hiff
      rw [List.mem_append, hiff, hfront, contents_cons, List.mem_cons, hmem]
      refine or_congr ?_ Iff.rfl
      split <;> split <;> simp_all [cleanConf]
    · rename_i hstop
      refine ⟨s, [], rfl, ?_⟩
      have hempty : handledFront s.changes pend = [] := by
        cases pend with
        | nil => rfl
        | cons p rest =>
          have hp : s.changes.first = p := by simpa using h.first.symm
          have hne : p ≠ s.changes.latest := by
            rintro rfl
            exact h.latest_not_mem List.mem_cons_self
          rw [hp] at hstop
          have hpos : (s.changes.record p).tocheck ≠ 0 := fun hz => hstop ⟨hne, hz⟩
          simp [handledFront, hpos]
      simp [hempty, contents]

/-- A change that no client has before it is at the handled front of the list. -/
theorem Tracked.mem_handledFront {change : Change} (h : Tracked cl cursors pend spare)
    (hdone : ∀ c ∈ cursors, change ∉ awaiting cl pend c) :
    change ∈ contents cl (handledFront cl pend) ↔ change ∈ contents cl pend := by
  constructor
  · intro hmem
    obtain ⟨p, hp, rfl⟩ := List.mem_map.mp hmem
    exact List.mem_map.mpr ⟨p, (List.takeWhile_prefix _).subset hp, rfl⟩
  · intro hmem
    obtain ⟨p, hp, rfl⟩ := List.mem_map.mp hmem
    refine List.mem_map.mpr ⟨p, ?_, rfl⟩
    obtain ⟨a, b, rfl⟩ := List.append_of_mem hp
    -- no pointer is at `p` or before it
    have hfree : ∀ c ∈ cursors, c ∉ a ++ [p] := by
      intro c hc hca
      refine hdone c hc (List.mem_map.mpr ⟨p, ?_, rfl⟩)
      obtain ⟨x, z, hxz⟩ := List.append_of_mem
        (show c ∈ a ++ p :: b by rw [List.append_cons]; exact List.mem_append_left b hca)
      have hnodup : (x ++ c :: z).Nodup := hxz ▸ h.pend_nodup
      have hcx : c ∉ x := fun hm =>
        (List.nodup_append.mp hnodup).2.2 c hm c List.mem_cons_self rfl
      rw [hxz, dropWhile_ne_append hcx]
      simp only [List.dropWhile_cons, ne_eq, not_true_eq_false, decide_false, Bool.false_eq_true,
        if_false]
      rcases split_cases hxz with ⟨rfl, -⟩ | ⟨w, rfl, -⟩ | ⟨w, -, rfl⟩
      · exact List.mem_cons_self
      · refine absurd ?_ hcx
        simp only [List.mem_append, List.mem_cons, List.not_mem_nil, or_false] at hca ⊢
        tauto
      · simp
    have hzero : ∀ q ∈ a ++ [p], ((cl.record q).tocheck == 0) = true := by
      intro q hq
      obtain ⟨x, y, hxy⟩ := List.append_of_mem hq
      have hsplit : a ++ p :: b = x ++ q :: (y ++ b) := by
        rw [List.append_cons, hxy, List.append_assoc, List.cons_append]
      rw [beq_iff_eq, h.tocheck x q (y ++ b) hsplit, List.countP_eq_zero]
      intro c hc hcx
      refine hfree c hc ?_
      rw [hxy]
      simp only [decide_eq_true_eq, List.mem_append, List.mem_cons, List.not_mem_nil,
        or_false] at hcx ⊢
      tauto
    rw [handledFront, List.append_cons, List.takeWhile_append_of_pos hzero]
    simp

/-! ### Every reachable state -/

/-- The changes published since the client came that it has not handled. -/
def Journal.unprocessed (j : Journal) (c : UCClientHandle) : List Change :=
  j.log.published.drop (j.log.since c.handle + (j.log.handled c.handle).length)

/-- Entry `e`, held under id `h`, has been invalidated and not deleted; every reader
has processed its deletion, and its data can be cleaned. -/
structure Cleanable (j : Journal) (h e : ℕ) : Prop where
  held : j.channel.held h = some e
  invalidated : deletion e ∈ j.log.published
  processed : ∀ c ∈ j.channel.readingClients, deletion e ∉ j.unprocessed c
  clean : (j.channel.obj e).cleanAllData.2 = true

instance (j : Journal) (h e : ℕ) : Decidable (Cleanable j h e) :=
  decidable_of_iff (j.channel.held h = some e ∧ deletion e ∈ j.log.published ∧
      (∀ c ∈ j.channel.readingClients, deletion e ∉ j.unprocessed c) ∧
      (j.channel.obj e).cleanAllData.2 = true)
    ⟨fun ⟨h₁, h₂, h₃, h₄⟩ => ⟨h₁, h₂, h₃, h₄⟩, fun ⟨h₁, h₂, h₃, h₄⟩ => ⟨h₁, h₂, h₃, h₄⟩⟩

/-- Processing `CleanEntryCmd(h, r)` enqueues `CleanEntryConf(h, r)`. -/
def Confirms (reg : DataClassRegistry) (j : Journal) (h r : ℕ) : Prop :=
  ∃ s' out, j.channel.updateConfiguration reg { type := .cleanEntryCmd, data0 := h, data1 := r } =
    .ok (s', out) ∧ cleanConf h r ∈ out

theorem exec_inOrder {reg : DataClassRegistry} {id : GlobalId} {inputs : List Input} {j : Journal}
    (hexec : exec (journalStep reg) ⟨.create id, {}⟩ inputs = .ok j) :
    InOrder j.channel j.log := by
  refine Reaches.invariant (I := fun j => InOrder j.channel j.log)
    (fun j i j' hj hstep => ?_) (inOrder_create id) ⟨inputs, hexec⟩
  have hnext := hj.step reg i
  rw [hstep] at hnext
  exact hnext

/-- In every reachable state an end confirms that an entry is clean if and only if
not every deletion of the entry has been passed by an earlier `CleanEntryCmd`. -/
theorem confirms_iff_not_passed (reg : DataClassRegistry) (id : GlobalId) (inputs : List Input)
    (j : Journal) (hexec : exec (journalStep reg) ⟨.create id, {}⟩ inputs = .ok j)
    (h e r : ℕ) (hc : Cleanable j h e) :
    Confirms reg j h r ↔
      j.log.passed.count (deletion e) < j.log.published.count (deletion e) := by
  obtain ⟨pend, spare, hj⟩ := exec_inOrder hexec
  have hdone : ∀ c ∈ j.channel.readingClients.map (·.configChange),
      deletion e ∉ awaiting j.channel.changes pend c := by
    intro p hp
    obtain ⟨c, hcm, rfl⟩ := List.mem_map.mp hp
    have hbooks := congrArg (List.drop (j.log.handled c.handle).length) (hj.books c hcm)
    rw [List.drop_left, List.drop_drop] at hbooks
    rw [hbooks]
    exact hc.processed c hcm
  obtain ⟨s', out, hloop, hiff⟩ := cleanLoop_confirms
    { type := .cleanEntryCmd, data0 := h, data1 := r } _ hj.tracked
    (Nat.lt_succ_of_lt hj.tracked.length_lt) hc.clean
  have hdel := hj.deletions (deletion e) rfl
  have hupdate : j.channel.updateConfiguration reg
      { type := .cleanEntryCmd, data0 := h, data1 := r } = .ok (s', out) := by
    simp only [updateConfiguration, cleanEntryCmd, hc.held]
    exact hloop
  have hlisted := hiff.trans ((hj.tracked.mem_handledFront hdone).trans List.count_pos_iff.symm)
  constructor
  · rintro ⟨s₂, out₂, h₂, hmem⟩
    rw [hupdate] at h₂
    cases h₂
    have hpos := hlisted.mp hmem
    omega
  · intro hlt
    exact ⟨s', out, hupdate, hlisted.mpr (by omega)⟩

/-- The announcement of a remote entry. -/
def remoteEntry (h : ℕ) : Input :=
  .updateConfiguration { type := .newEntryConf, data0 := h, data1 := 0x101 + 0x100 * h
                         origin := ⟨1, 1⟩, dataclassname := "D" }

/-- A command of the master for one entry. -/
def command (type : UChannelMessageType) (h r : ℕ) : Input :=
  .updateConfiguration { type := type, data0 := h, data1 := r }

/-- An entry with a reader is invalidated, the reader catches up, and the end
confirms in the first round. -/
theorem confirms_first_round :
    ∃ j, exec (journalStep flatRegistry) ⟨.create ⟨0, 1⟩, {}⟩
        [.addReadToken { dataclassname := "D", requestedEntry := entryAny }, remoteEntry 0,
          command .invalidateEntryCmd 0 0, .refreshClientHandle 0] = .ok j ∧
      Cleanable j 0 0 ∧ Confirms flatRegistry j 0 1 := by
  obtain ⟨j, hexec, htest⟩ := exists_of_endsIn (journalStep flatRegistry)
    ⟨.create ⟨0, 1⟩, {}⟩
    [.addReadToken { dataclassname := "D", requestedEntry := entryAny }, remoteEntry 0,
      command .invalidateEntryCmd 0 0, .refreshClientHandle 0]
    (fun j => decide (Cleanable j 0 0 ∧
      j.log.passed.count (deletion 0) < j.log.published.count (deletion 0)))
    (by decide +kernel)
  obtain ⟨hc, hlt⟩ := of_decide_eq_true htest
  exact ⟨j, hexec, hc, (confirms_iff_not_passed flatRegistry _ _ j hexec 0 0 1 hc).mpr hlt⟩

/-- Two entries are invalidated and the first is cleaned. The walk for the first
passes the deletion of the second, which is then never confirmed. -/
theorem not_confirms_second_entry :
    ¬ ∀ (reg : DataClassRegistry) (id : GlobalId) (inputs : List Input) (j : Journal),
      exec (journalStep reg) ⟨.create id, {}⟩ inputs = .ok j →
        ∀ h e r, Cleanable j h e → Confirms reg j h r := by
  intro h
  obtain ⟨j, hexec, htest⟩ := exists_of_endsIn (journalStep flatRegistry)
    ⟨.create ⟨0, 1⟩, {}⟩
    [remoteEntry 0, remoteEntry 1, command .invalidateEntryCmd 0 0,
      command .invalidateEntryCmd 1 0, command .cleanEntryCmd 0 1, command .deleteEntryCmd 0 0]
    (fun j => decide (Cleanable j 1 1) && (j.channel.updateConfiguration flatRegistry
      { type := .cleanEntryCmd, data0 := 1, data1 := 1 }).toOption.any fun x => x.2.isEmpty)
    (by decide +kernel)
  rw [Bool.and_eq_true, decide_eq_true_eq] at htest
  obtain ⟨hc, hout⟩ := htest
  obtain ⟨s', out, hok, hmem⟩ := h flatRegistry ⟨0, 1⟩ _ j hexec 1 1 1 hc
  rw [hok] at hout
  have hnone : out = [] := List.isEmpty_iff.mp hout
  rw [hnone] at hmem
  cases hmem

end Dueca.End
