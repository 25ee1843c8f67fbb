import Dueca.End.Clean

/-!
# Which entries a client is linked to

A read client is linked to entries in two places. `addReadToken` goes over the
entries it finds under the data class and tests the label, but not the time aspect;
a refresh goes over the changes and tests the time aspect, but not the label of a
client that takes any entry, and it takes the time aspect from the entry that is
selected at the moment.

`Consistent` says of the entries that are live at some moment that the two tests agree
on each of them, and that those which pass are of one nature (or are one, for a client
that asks for a single entry). If that is so from the making of the token on, it does
not matter when the token is made, in which order entries come and go, when the client
catches up and what it selects.
-/

namespace Dueca.End

open Dueca.Lib

/-- What linking looks at in an entry. -/
structure EntryFacts where
  id : ℕ
  dataclassname : String
  label : String
  eventtype : Bool
  deriving DecidableEq, Repr

/-- The facts of an entry. -/
def UChannelEntry.facts (o : UChannelEntry) : EntryFacts :=
  ⟨o.entryId, o.dataclassname, o.label, o.eventtype⟩

namespace ReadSpec

variable (reg : DataClassRegistry) (spec : ReadSpec) (f : EntryFacts)

/-- The class is the requested one or a descendant. -/
def classOk : Bool := reg.isCompatible spec.dataclassname f.dataclassname

/-- The label equals the token's, if that has one. -/
def labelOk : Bool := spec.entrylabel == "" || f.label == spec.entrylabel

/-- The nature of the entry is compatible with the time aspect of the token. -/
def timingOk : Bool := areClientAndEntryTimingCompatible spec.timeAspect f.eventtype

/-- A token for a single entry asks for this one, by id or by label. -/
def picks : Bool :=
  spec.requestedEntry == f.id ||
    (spec.requestedEntry == entryBylabel && spec.entrylabel == f.label)

/-- The token links to an entry that is there when it is made. -/
def atCreation : Bool :=
  spec.classOk reg f && if spec.requestedEntry = entryAny then spec.labelOk f else spec.picks f

/-- A client without selected entry links to a new entry when it catches up. -/
def atRefresh : Bool :=
  spec.classOk reg f && (spec.requestedEntry == entryAny || spec.picks f) && spec.timingOk f

/-- The entries the token should be linked to. -/
def wanted : Bool :=
  spec.classOk reg f &&
    if spec.requestedEntry = entryAny then spec.labelOk f && spec.timingOk f else spec.picks f

end ReadSpec

/-! ### Live entries -/

variable {reg : DataClassRegistry} {obj obj' : ℕ → UChannelEntry} {c d : UCClientHandle}
  {done : List Change} {p : ℕ}

/-- The change that announces an entry. -/
def announcement (p : ℕ) : Change := ⟨.newEntry, some p⟩

/-- The entry is there after these changes. -/
def LiveIn (done : List Change) (p : ℕ) : Prop := announcement p ∈ done ∧ deletion p ∉ done

theorem liveIn_announce {q : ℕ} (hnew : ∀ change ∈ done, change.entry ≠ some p) :
    LiveIn (done ++ [announcement p]) q ↔ LiveIn done q ∨ q = p := by
  have hann : announcement q = announcement p ↔ q = p := by simp [announcement]
  have hdel : deletion q ≠ announcement p := by simp [announcement, deletion]
  simp only [LiveIn, List.mem_append, List.mem_singleton, hann, hdel, or_false]
  constructor
  · rintro ⟨h | rfl, hnot⟩
    · exact .inl ⟨h, hnot⟩
    · exact .inr rfl
  · rintro (⟨h, hnot⟩ | rfl)
    · exact ⟨.inl h, hnot⟩
    · exact ⟨.inr rfl, fun h => hnew _ h rfl⟩

theorem liveIn_delete {q : ℕ} :
    LiveIn (done ++ [deletion p]) q ↔ LiveIn done q ∧ q ≠ p := by
  have hann : announcement q ≠ deletion p := by simp [announcement, deletion]
  have hdel : deletion q = deletion p ↔ q = p := by simp [deletion]
  simp only [LiveIn, List.mem_append, List.mem_singleton, hann, hdel, or_false]
  tauto

/-- Both tests agree on each of the entries, and the entries that pass are of one
nature, or are one entry if the token asks for one. -/
structure Consistent (reg : DataClassRegistry) (spec : ReadSpec) (obj : ℕ → UChannelEntry)
    (live : ℕ → Prop) : Prop where
  agree : ∀ p, live p → spec.atCreation reg (obj p).facts = spec.atRefresh reg (obj p).facts
  alike : ∀ p q, live p → live q → spec.atCreation reg (obj p).facts = true →
    spec.atCreation reg (obj q).facts = true →
      if spec.requestedEntry = entryAny then (obj p).eventtype = (obj q).eventtype else p = q

/-- On consistent entries the tests find the wanted ones. -/
theorem Consistent.atCreation_eq_wanted {spec : ReadSpec} {live : ℕ → Prop}
    (h : Consistent reg spec obj live) (hp : live p) :
    spec.atCreation reg (obj p).facts = spec.wanted reg (obj p).facts := by
  have hagree := h.agree p hp
  simp only [ReadSpec.atCreation, ReadSpec.atRefresh, ReadSpec.wanted] at hagree ⊢
  by_cases hany : spec.requestedEntry = entryAny
  · simp only [hany, if_true, beq_self_eq_true, Bool.true_or, Bool.and_true] at hagree ⊢
    -- the label decides, and so does the time aspect
    revert hagree
    cases spec.classOk reg (obj p).facts <;> cases spec.labelOk (obj p).facts <;>
      cases spec.timingOk (obj p).facts <;> simp
  · simp only [if_neg hany]

/-- Only the facts of the live entries matter. -/
theorem Consistent.congr {spec : ReadSpec} {live : ℕ → Prop}
    (h : Consistent reg spec obj live) (hfacts : ∀ p, live p → (obj' p).facts = (obj p).facts) :
    Consistent reg spec obj' live where
  agree p hp := by
    rw [hfacts p hp]
    exact h.agree p hp
  alike p q hp hq := by
    have hev : ∀ r, live r → (obj' r).eventtype = (obj r).eventtype :=
      fun r hr => congrArg EntryFacts.eventtype (hfacts r hr)
    rw [hfacts p hp, hfacts q hq, hev p hp, hev q hq]
    exact h.alike p q hp hq

/-! ### Handling one change -/

/-- The client is linked, once each, to the live entries that pass the test, and has
selected one of them, or none. -/
structure LinkedUpTo (reg : DataClassRegistry) (obj : ℕ → UChannelEntry) (done : List Change)
    (c : UCClientHandle) : Prop where
  linked : ∀ p, c.isLinked p = true ↔
    LiveIn done p ∧ c.atCreation reg (obj p).facts = true
  selected : ∀ p, c.entry = some p → c.isLinked p = true
  nodup : (c.classLead.map (·.entry)).Nodup

theorem isLinked_iff : c.isLinked p = true ↔ p ∈ c.classLead.map (·.entry) := by
  simp [UCClientHandle.isLinked]

theorem LinkedUpTo.congr (h : LinkedUpTo reg obj done c)
    (hfacts : ∀ p, announcement p ∈ done → (obj' p).facts = (obj p).facts) :
    LinkedUpTo reg obj' done c := by
  refine ⟨fun p => ?_, h.selected, h.nodup⟩
  rw [h.linked]
  refine and_congr_right fun hp => ?_
  rw [hfacts p hp.1]

theorem linkReadClientToEntry_cases (h : c.linkReadClientToEntry obj p = .ok d) :
    d.classLead.map (·.entry) = p :: c.classLead.map (·.entry) ∧ c.isLinked p = false ∧
      (d.entry = c.entry ∨ d.entry = some p) ∧ d.toReadSpec = c.toReadSpec := by
  simp only [UCClientHandle.linkReadClientToEntry] at h
  split at h
  · cases h
  · rename_i hnot
    cases h
    refine ⟨rfl, Bool.eq_false_iff.mpr hnot, ?_, rfl⟩
    dsimp only
    split
    · exact .inr rfl
    · exact .inl rfl

/-- A link to entry `p` is added. -/
theorem LinkedUpTo.link (h : LinkedUpTo reg obj done c)
    (hnew : ∀ change ∈ done, change.entry ≠ some p)
    (hpass : c.atCreation reg (obj p).facts = true)
    (hlink : c.linkReadClientToEntry obj p = .ok d) :
    LinkedUpTo reg obj (done ++ [announcement p]) d := by
  obtain ⟨hd, hnot, hsel, hspec⟩ := linkReadClientToEntry_cases hlink
  have hd' : ∀ q, d.isLinked q = true ↔ c.isLinked q = true ∨ q = p := by
    intro q
    rw [isLinked_iff, isLinked_iff, hd, List.mem_cons, or_comm]
  refine ⟨fun q => ?_, fun q hq => ?_, ?_⟩
  · rw [hd', h.linked, hspec, liveIn_announce hnew]
    constructor
    · rintro (⟨hq, hqp⟩ | rfl)
      · exact ⟨.inl hq, hqp⟩
      · exact ⟨.inr rfl, hpass⟩
    · rintro ⟨hq | rfl, hqp⟩
      · exact .inl ⟨hq, hqp⟩
      · exact .inr rfl
  · rw [hd']
    rcases hsel with hsel | hsel
    · exact .inl (h.selected q (hsel ▸ hq))
    · rw [hsel] at hq
      exact .inr (Option.some.inj hq).symm
  · rw [hd]
    refine List.nodup_cons.mpr ⟨fun hmem => ?_, h.nodup⟩
    rw [isLinked_iff.mpr hmem] at hnot
    cases hnot

/-- A client that is not to be linked to entry `p` stays as it is. -/
theorem LinkedUpTo.leave (h : LinkedUpTo reg obj done c)
    (hnew : ∀ change ∈ done, change.entry ≠ some p)
    (hfail : c.atCreation reg (obj p).facts = false) :
    LinkedUpTo reg obj (done ++ [announcement p]) c := by
  refine ⟨fun q => ?_, h.selected, h.nodup⟩
  rw [h.linked, liveIn_announce hnew]
  constructor
  · rintro ⟨hq, hqp⟩
    exact ⟨.inl hq, hqp⟩
  · rintro ⟨hq | rfl, hqp⟩
    · exact ⟨hq, hqp⟩
    · rw [hfail] at hqp
      cases hqp

/-- A deleted entry to which the client is not linked. -/
theorem LinkedUpTo.ignore (h : LinkedUpTo reg obj done c) (hnot : c.isLinked p ≠ true) :
    LinkedUpTo reg obj (done ++ [deletion p]) c := by
  refine ⟨fun q => ?_, h.selected, h.nodup⟩
  rw [liveIn_delete, and_right_comm, ← h.linked]
  constructor
  · intro hq
    refine ⟨hq, ?_⟩
    rintro rfl
    exact hnot hq
  · exact And.left

theorem detachReadClientFromEntry_cases (h : c.detachReadClientFromEntry p = .ok d) :
    ∃ X Y, c.classLead.map (·.entry) = X ++ p :: Y ∧ d.classLead.map (·.entry) = X ++ Y ∧
      d.toReadSpec = c.toReadSpec ∧ ∀ q, d.entry = some q → c.entry = some q ∧ q ≠ p ∨ q ∈ Y := by
  simp only [UCClientHandle.detachReadClientFromEntry] at h
  split at h
  · rename_i hlinked
    cases h
    obtain ⟨l₀, hl₀, hp₀⟩ := List.mem_map.mp (isLinked_iff.mp hlinked)
    obtain ⟨l, X, Y, hX, hl, hsplit, herase⟩ :=
      List.exists_of_eraseP (p := fun l : UCEntryClientLink => l.entry == p) hl₀ (by simpa using hp₀)
    obtain rfl : l.entry = p := by simpa using hl
    refine ⟨X.map (·.entry), Y.map (·.entry), by simp [hsplit], by simp [herase], rfl,
      fun q hq => ?_⟩
    dsimp only at hq
    split at hq
    · -- the link behind the detached one is selected
      right
      have hdrop : c.classLead.dropWhile (·.entry != l.entry) = l :: Y := by
        rw [hsplit, List.dropWhile_append_of_pos, List.dropWhile_cons_of_neg]
        · simp
        · intro x hx
          simpa using hX x hx
      rw [hdrop] at hq
      obtain ⟨y, hy, rfl⟩ := Option.map_eq_some_iff.mp hq
      exact List.mem_map.mpr ⟨y, List.mem_of_mem_head? hy, rfl⟩
    · rename_i hne
      left
      refine ⟨hq, ?_⟩
      rintro rfl
      exact hne hq
  · cases h

/-- The link to a deleted entry is taken away. -/
theorem LinkedUpTo.detach (h : LinkedUpTo reg obj done c)
    (hdetach : c.detachReadClientFromEntry p = .ok d) :
    LinkedUpTo reg obj (done ++ [deletion p]) d := by
  obtain ⟨X, Y, hc, hd, hspec, hsel⟩ := detachReadClientFromEntry_cases hdetach
  have hnodup := h.nodup
  rw [hc, List.nodup_middle] at hnodup
  obtain ⟨hp, hXY⟩ := List.nodup_cons.mp hnodup
  have hd' : ∀ q, d.isLinked q = true ↔ c.isLinked q = true ∧ q ≠ p := by
    intro q
    rw [isLinked_iff, isLinked_iff, hc, hd]
    simp only [List.mem_append, List.mem_cons] at hp ⊢
    constructor
    · intro hq
      refine ⟨by tauto, ?_⟩
      rintro rfl
      exact hp hq
    · tauto
  refine ⟨fun q => ?_, fun q hq => ?_, hd ▸ hXY⟩
  · rw [hd', h.linked, hspec, liveIn_delete, and_right_comm]
  · rcases hsel q hq with ⟨hq', hne⟩ | hq'
    · exact (hd' q).mpr ⟨h.selected q hq', hne⟩
    · rw [isLinked_iff, hd]
      exact List.mem_append_right _ hq'

theorem compatible_of_nature (b b' : Bool) :
    areClientAndEntryTimingCompatible (if b then .events else .continuous) b' = (b == b') := by
  cases b <;> cases b' <;> rfl

/-- The test of a refresh on a new entry has the outcome of the test at creation. -/
theorem LinkedUpTo.refresh_test (h : LinkedUpTo reg obj done c)
    (hnew : ∀ change ∈ done, change.entry ≠ some p)
    (hc : Consistent reg c.toReadSpec obj (LiveIn (done ++ [announcement p]))) :
    (c.refreshMatch reg (obj p) &&
      areClientAndEntryTimingCompatible (c.getTimeAspect obj) (obj p).eventtype) =
        c.atCreation reg (obj p).facts := by
  have hp : LiveIn (done ++ [announcement p]) p := (liveIn_announce hnew).mpr (.inr rfl)
  have hdone : ∀ q, LiveIn done q → LiveIn (done ++ [announcement p]) q :=
    fun q hq => (liveIn_announce hnew).mpr (.inl hq)
  have hagree := hc.agree p hp
  have hmatch : c.refreshMatch reg (obj p) = (c.classOk reg (obj p).facts &&
      ((c.classLead.isEmpty && c.picks (obj p).facts) || c.requestedEntry == entryAny)) := rfl
  by_cases hany : c.requestedEntry = entryAny
  · -- a client for any entry: the selected entry is one that passed
    rw [hmatch, hagree]
    simp only [ReadSpec.atRefresh, hany, beq_self_eq_true, Bool.or_true, Bool.true_or,
      Bool.and_true]
    cases hsel : c.entry with
    | none =>
      simp only [UCClientHandle.getTimeAspect, hsel]
      rfl
    | some q =>
      obtain ⟨hq, hqpass⟩ := (h.linked q).mp (h.selected q hsel)
      have hqtime : c.timingOk (obj q).facts = true := by
        have := hc.agree q (hdone q hq)
        rw [hqpass] at this
        simp only [ReadSpec.atRefresh, Bool.true_eq, Bool.and_eq_true] at this
        exact this.2
      simp only [UCClientHandle.getTimeAspect, hsel, compatible_of_nature]
      cases hclass : c.classOk reg (obj p).facts with
      | false => rfl
      | true =>
        simp only [Bool.true_and]
        by_cases hnat : (obj q).eventtype = (obj p).eventtype
        · have : c.timingOk (obj p).facts = c.timingOk (obj q).facts := by
            simp only [ReadSpec.timingOk, UChannelEntry.facts, hnat]
          rw [this, hqtime, hnat, beq_self_eq_true]
        · -- of another nature: it cannot pass beside the selected one
          have hnot : c.atCreation reg (obj p).facts ≠ true := by
            intro hpass
            have := hc.alike q p (hdone q hq) hp hqpass hpass
            rw [if_pos hany] at this
            exact hnat this
          rw [hagree] at hnot
          simp only [ReadSpec.atRefresh, hany, beq_self_eq_true, Bool.true_or, Bool.and_true,
            hclass, Bool.true_and, Bool.not_eq_true] at hnot
          rw [hnot]
          simpa using hnat
  · -- a client for one entry: it looks only while it has none
    have hany' : (c.requestedEntry == entryAny) = false := by simpa using hany
    cases hlead : c.classLead with
    | nil =>
      have hsel : c.entry = none := by
        cases hsel : c.entry with
        | none => rfl
        | some q =>
          have := isLinked_iff.mp (h.selected q hsel)
          simp [hlead] at this
      rw [hmatch, hagree]
      simp only [ReadSpec.atRefresh, UCClientHandle.getTimeAspect, hsel, hlead, hany',
        List.isEmpty_nil, Bool.true_and, Bool.or_false, Bool.false_or]
      rfl
    | cons l rest =>
      obtain ⟨hq, hqpass⟩ := (h.linked l.entry).mp (isLinked_iff.mpr (by simp [hlead]))
      have hfail : c.atCreation reg (obj p).facts = false := by
        by_contra hpass
        rw [Bool.not_eq_false] at hpass
        have := hc.alike _ _ (hdone _ hq) hp hqpass hpass
        rw [if_neg hany] at this
        exact hnew _ hq.1 (congrArg some this)
      rw [hmatch, hfail]
      simp [hlead, hany']

/-- A client that skips changes has the one entry it asks for. -/
theorem LinkedUpTo.eq_lead (h : LinkedUpTo reg obj done c) {lead : UCEntryClientLink}
    (hle : c.requestedEntry ≤ entryBylabel) (hlead : c.classLead.head? = some lead)
    {live : ℕ → Prop} (hc : Consistent reg c.toReadSpec obj live)
    (hlive : ∀ q, LiveIn done q → live q) (hp : live p)
    (hpass : c.atCreation reg (obj p).facts = true) : LiveIn done lead.entry ∧ lead.entry = p := by
  have hmem : lead ∈ c.classLead := List.mem_of_mem_head? hlead
  obtain ⟨hq, hqpass⟩ :=
    (h.linked lead.entry).mp (isLinked_iff.mpr (List.mem_map.mpr ⟨lead, hmem, rfl⟩))
  have hany : c.requestedEntry ≠ entryAny := by
    intro heq
    rw [heq] at hle
    exact absurd hle (by decide)
  have := hc.alike _ p (hlive _ hq) hp hqpass hpass
  rw [if_neg hany] at this
  exact ⟨hq, this⟩

/-- Handling the announcement of an entry links it if it passes the test. -/
theorem LinkedUpTo.handles_announcement (h : LinkedUpTo reg obj done c)
    (hnew : ∀ change ∈ done, change.entry ≠ some p)
    (hc : Consistent reg c.toReadSpec obj (LiveIn (done ++ [announcement p])))
    (hd : c.Handles reg obj (announcement p) d) :
    LinkedUpTo reg obj (done ++ [announcement p]) d := by
  rcases hd with ⟨⟨hle, lead, hlead, -⟩, rfl⟩ | hproc
  · -- skipped: the client asks for one entry and has it
    apply h.leave hnew
    by_contra hpass
    rw [Bool.not_eq_false] at hpass
    obtain ⟨hq, heq⟩ := h.eq_lead hle hlead hc (fun q hq => (liveIn_announce hnew).mpr (.inl hq))
      ((liveIn_announce hnew).mpr (.inr rfl)) hpass
    exact hnew _ hq.1 (congrArg some heq)
  · have htest := h.refresh_test hnew hc
    simp only [UCClientHandle.processChange, announcement] at hproc
    split at hproc
    · rename_i hm
      split at hproc
      · rename_i ht
        apply h.link hnew _ hproc
        rw [← htest, hm, ht]
        rfl
      · rename_i ht
        cases hproc
        apply h.leave hnew
        rw [← htest, hm, Bool.true_and]
        exact Bool.eq_false_iff.mpr ht
    · rename_i hm
      cases hproc
      apply h.leave hnew
      rw [← htest, Bool.eq_false_iff.mpr hm]
      rfl

/-- Handling the deletion of an entry takes the link away if there is one. -/
theorem LinkedUpTo.handles_deletion (h : LinkedUpTo reg obj done c)
    (hc : Consistent reg c.toReadSpec obj (LiveIn done))
    (hd : c.Handles reg obj (deletion p) d) :
    LinkedUpTo reg obj (done ++ [deletion p]) d := by
  rcases hd with ⟨⟨hle, lead, hlead, hne⟩, rfl⟩ | hproc
  · -- skipped: the client has another entry, and asks for one only
    apply h.ignore
    intro hlinked
    obtain ⟨hp, hpass⟩ := (h.linked p).mp hlinked
    obtain ⟨-, heq⟩ := h.eq_lead hle hlead hc (fun q hq => hq) hp hpass
    exact hne (congrArg some heq.symm)
  · simp only [UCClientHandle.processChange, deletion] at hproc
    split at hproc
    · rename_i hempty
      cases hproc
      apply h.ignore
      intro hlinked
      have := isLinked_iff.mp hlinked
      simp [List.isEmpty_iff.mp hempty] at this
    · exact h.detach hproc

/-! ### Catching up -/

variable {s s' s₂ : UnifiedChannel} {log log' : Log} {out : List Effect} {k : ℕ}

/-- The changes up to the client's pointer: those made before it came and those it has
handled. -/
def Log.reached (log : Log) (c : UCClientHandle) : List Change :=
  log.published.take (log.since c.handle + (log.handled c.handle).length)

/-- The entries of an end that have an id, and the changes about them: an announcement
is the first change about its entry. -/
structure Web (s : UnifiedChannel) (log : Log) : Prop where
  order : InOrder s log
  published : ∀ change ∈ log.published, ∃ p, (change = announcement p ∨ change = deletion p) ∧
    p < s.objects ∧ (s.obj p).entryId ≠ entryAny
  first : ∀ a b p, log.published = a ++ announcement p :: b →
    ∀ change ∈ a, change.entry ≠ some p
  held : ∀ h p, s.held h = some p → p < s.objects ∧ (s.obj p).entryId ≠ entryAny
  writers : ∀ p ∈ s.writingClients, p < s.objects

/-- The live entries were consistent for a client at all times since it came. -/
def SteadySince (reg : DataClassRegistry) (s : UnifiedChannel) (log : Log) (c : UCClientHandle) :
    Prop :=
  ∀ done, done <+: log.published → log.since c.handle ≤ done.length →
    Consistent reg c.toReadSpec s.obj (LiveIn done)

/-- Each client for which the live entries were consistent is linked up to its pointer. -/
def Tied (reg : DataClassRegistry) (s : UnifiedChannel) (log : Log) : Prop :=
  ∀ c ∈ s.readingClients, SteadySince reg s log c → LinkedUpTo reg s.obj (log.reached c) c

/-- The lists of the data classes hold the live entries. -/
structure Classed (reg : DataClassRegistry) (s : UnifiedChannel) (log : Log) : Prop where
  listed : ∀ cls p, p ∈ (s.entrymap cls).entries ↔
    LiveIn log.published p ∧ cls ∈ reg.lineage (s.obj p).dataclassname
  counted : ∀ cls p, (s.entrymap cls).entries.count p = (s.obj p).dataclasslink.count cls

/-- A client's pointer is between the changes it has reached and those awaiting it. -/
theorem Journaled.reached_append {pend spare : List ℕ} (h : Journaled s log pend spare)
    (hc : c ∈ s.readingClients) :
    log.reached c ++ awaiting s.changes pend c.configChange = log.published ∧
      log.reached c = log.published.take (log.since c.handle) ++ log.handled c.handle := by
  have hbooks := h.books c hc
  have hreached : log.reached c =
      log.published.take (log.since c.handle) ++ log.handled c.handle := by
    rw [Log.reached, List.take_add, ← hbooks, List.take_left]
  refine ⟨?_, hreached⟩
  rw [hreached, List.append_assoc, hbooks, List.take_append_drop]

/-- A client that handles a stretch of the published changes stays linked. -/
theorem LinkedUpTo.caught {l : List Change} (hw : Web s log) (h : LinkedUpTo reg s.obj done c)
    (hsince : log.since c.handle ≤ done.length) (hsteady : SteadySince reg s log c)
    (hpre : done ++ l <+: log.published) (hcaught : Caught reg s.obj c l d) :
    LinkedUpTo reg s.obj (done ++ l) d ∧ d.toReadSpec = c.toReadSpec := by
  induction hcaught with
  | start =>
    rw [List.append_nil]
    exact ⟨h, rfl⟩
  | @step l d d' change n hcaught hhandles ih =>
    rw [← List.append_assoc] at hpre ⊢
    have hpre' : done ++ l <+: log.published := (List.prefix_append _ _).trans hpre
    obtain ⟨hlinked, hspec⟩ := ih hpre'
    obtain ⟨b, hb⟩ := hpre
    rw [List.append_assoc, List.singleton_append] at hb
    have hlen : log.since c.handle ≤ (done ++ l).length := by
      rw [List.length_append]
      omega
    -- the entries were consistent before this change, and after it
    have hbefore := hsteady _ hpre' hlen
    have hafter := hsteady (done ++ l ++ [change]) ⟨b, by rw [← hb]; simp⟩
      (by rw [List.length_append]; omega)
    rw [← hspec] at hbefore hafter
    have hstep : LinkedUpTo reg s.obj (done ++ l ++ [change]) d' := by
      obtain ⟨p, rfl | rfl, -⟩ := hw.published change (by rw [← hb]; simp)
      · exact hlinked.handles_announcement (hw.first _ b p hb.symm) hafter hhandles
      · exact hlinked.handles_deletion hbefore hhandles
    exact ⟨⟨hstep.linked, hstep.selected, hstep.nodup⟩, hhandles.same.2.1.trans hspec⟩

/-! ### Operations that announce nothing -/

/-- The two ends hold the same entries, with the same facts. -/
structure SameHoldings (s s' : UnifiedChannel) : Prop where
  held : s'.held = s.held
  facts : ∀ p, (s'.obj p).facts = (s.obj p).facts
  objects : s'.objects = s.objects
  writers : s'.writingClients = s.writingClients

theorem SameHoldings.refl (s : UnifiedChannel) : SameHoldings s s := ⟨rfl, fun _ => rfl, rfl, rfl⟩

theorem SameHoldings.trans (h : SameHoldings s s') (h' : SameHoldings s' s₂) :
    SameHoldings s s₂ where
  held := h'.held.trans h.held
  facts p := (h'.facts p).trans (h.facts p)
  objects := h'.objects.trans h.objects
  writers := h'.writers.trans h.writers

theorem SameHoldings.entryId (h : SameHoldings s s') (p : ℕ) :
    (s'.obj p).entryId = (s.obj p).entryId :=
  congrArg EntryFacts.id (h.facts p)

theorem Web.same (h : Web s log) (hsame : SameHoldings s s') (horder : InOrder s' log')
    (hpub : log'.published = log.published) : Web s' log' where
  order := horder
  published := by
    rw [hpub, hsame.objects]
    intro change hchange
    obtain ⟨p, hp, hlt, hid⟩ := h.published change hchange
    exact ⟨p, hp, hlt, by rwa [hsame.entryId]⟩
  first := by
    rw [hpub]
    exact h.first
  held := by
    rw [hsame.held, hsame.objects]
    intro k p hk
    rw [hsame.entryId]
    exact h.held k p hk
  writers := by
    rw [hsame.writers, hsame.objects]
    exact h.writers

/-- A client that has not moved stays linked up to its pointer. -/
theorem Tied.same_client (ht : Tied reg s log) (hw : Web s log)
    (hfacts : ∀ p, announcement p ∈ log.published → (s'.obj p).facts = (s.obj p).facts)
    (hpub : log.published <+: log'.published) (hc : c ∈ s.readingClients)
    (hsince : log'.since c.handle = log.since c.handle)
    (hhandled : log'.handled c.handle = log.handled c.handle)
    (hsteady : SteadySince reg s' log' c) : LinkedUpTo reg s'.obj (log'.reached c) c := by
  have hreached : log'.reached c = log.reached c := by
    obtain ⟨pend, spare, hj⟩ := hw.order
    have hlen := congrArg List.length (hj.books c hc)
    have hle := hj.since c hc
    rw [List.length_append, List.length_drop] at hlen
    obtain ⟨l, hl⟩ := hpub
    rw [Log.reached, Log.reached, ← hl, hsince, hhandled, List.take_append_of_le_length]
    omega
  rw [hreached]
  have hsteady' : SteadySince reg s log c := by
    intro done hdone hlen
    rw [← hsince] at hlen
    exact (hsteady done (hdone.trans hpub) hlen).congr fun p hp =>
      (hfacts p (hdone.subset hp.1)).symm
  refine (ht c hc hsteady').congr fun p hp => ?_
  exact hfacts p (List.mem_of_mem_take hp)

/-- What a refresh leaves alone. -/
theorem refreshAt_frame (h : s.refreshAt reg k = .ok (s', out)) :
    s' = { s with changes := s'.changes, readingClients := s'.readingClients } ∧
      changesMade out = [] ∧ ∀ k' ≠ k, changesHandled out k' = [] := by
  simp only [UnifiedChannel.refreshAt] at h
  split at h
  · cases h
  · split at h
    · cases h
    · cases h
      refine ⟨rfl, changesMade_map k _, fun k' hk' => ?_⟩
      rw [changesHandled_map, if_neg (Ne.symm hk')]

theorem refreshAt_sameHoldings (h : s.refreshAt reg k = .ok (s', out)) : SameHoldings s s' := by
  rw [(refreshAt_frame h).1]
  exact ⟨rfl, fun _ => rfl, rfl, rfl⟩

theorem refreshAt_published (h : s.refreshAt reg k = .ok (s', out)) :
    (log.append out).published = log.published := by
  simp only [Log.append, (refreshAt_frame h).2.1, List.append_nil]

/-- A refresh keeps all clients tied. -/
theorem Web.refreshAt (hw : Web s log) (ht : Tied reg s log)
    (h : s.refreshAt reg k = .ok (s', out)) :
    Web s' (log.append out) ∧ Tied reg s' (log.append out) := by
  obtain ⟨hframe, hmade, hothers⟩ := refreshAt_frame h
  have hsame := refreshAt_sameHoldings h
  have hpub : (log.append out).published = log.published := refreshAt_published h
  obtain ⟨pend, spare, hj⟩ := hw.order
  rcases hj.refreshAt reg k with ⟨s₁, out₁, hok, hj', -, -, hclients⟩ | ⟨f, hf, -⟩
  · rw [h] at hok
    cases hok
    refine ⟨hw.same hsame ⟨pend, spare, hj'⟩ hpub, fun d hd hsteady => ?_⟩
    rcases hclients d hd with ⟨hd, hne⟩ | ⟨c, hc, hck, hdk, hspec, hcaught⟩
    · -- another client: its log is unchanged
      refine ht.same_client hw (fun p _ => hsame.facts p) (hpub ▸ List.prefix_rfl) hd rfl ?_ hsteady
      simp only [Log.append, hothers _ hne, List.append_nil]
    · have hobj : s'.obj = s.obj := by rw [hframe]
      have hsteady' : SteadySince reg s log c := by
        rw [SteadySince, hpub, hobj, hspec] at hsteady
        rw [SteadySince, hck, ← hdk]
        exact hsteady
      have hreach : (log.append out).reached d = log.reached c ++ changesHandled out k := by
        rw [(hj'.reached_append hd).2, (hj.reached_append hc).2, hpub, hdk, hck]
        simp only [Log.append, List.append_assoc]
      have hpre : log.reached c ++ changesHandled out k <+: log.published := by
        rw [← hreach, ← hpub]
        exact List.take_prefix _ _
      have hlen : log.since c.handle ≤ (log.reached c).length := by
        rw [(hj.reached_append hc).2, List.length_append, List.length_take,
          Nat.min_eq_left (hj.since c hc)]
        omega
      rw [hreach, hobj]
      exact ((ht c hc hsteady').caught hw hlen hsteady' hpre hcaught).1
  · rw [h] at hf
    cases hf

/-- Writing to what linking does not look at. -/
theorem Web.touch (hw : Web s log) (ht : Tied reg s log) (hsame : SameHoldings s s')
    (hch : s'.changes = s.changes) (hcl : s'.readingClients = s.readingClients)
    (hh : s'.handles = s.handles) : Web s' log ∧ Tied reg s' log := by
  refine ⟨hw.same hsame (hw.order.congr hch hcl hh) rfl, fun c hc hsteady => ?_⟩
  rw [hcl] at hc
  exact ht.same_client hw (fun p _ => hsame.facts p) List.prefix_rfl hc rfl rfl hsteady

theorem Web.callClients {msg : UChannelCommRequest} (ks : List ℕ) (hw : Web s log)
    (ht : Tied reg s log) (h : UnifiedChannel.callClients reg msg ks s = .ok (s', out)) :
    Web s' (log.append out) ∧ Tied reg s' (log.append out) ∧ SameHoldings s s' ∧
      (s'.entrymap = s.entrymap ∧ s'.obj = s.obj) ∧
        (log.append out).published = log.published := by
  induction ks generalizing s log out with
  | nil =>
    cases h
    rw [Log.append_nil]
    exact ⟨hw, ht, .refl _, ⟨rfl, rfl⟩, rfl⟩
  | cons k ks ih =>
    rw [UnifiedChannel.callClients] at h
    split at h
    · cases h
    · split at h
      · obtain ⟨s₁, o, o', hs₁, hrest, rfl⟩ := andThen_eq_ok.mp h
        obtain ⟨hw₁, ht₁⟩ := hw.refreshAt ht hs₁
        obtain ⟨hw₂, ht₂, hsame, hmap, hpub⟩ := ih hw₁ ht₁ hrest
        rw [Log.append_append]
        refine ⟨hw₂, ht₂, (refreshAt_sameHoldings hs₁).trans hsame, ?_,
          hpub.trans (refreshAt_published hs₁)⟩
        rw [hmap.1, hmap.2, (refreshAt_frame hs₁).1]
        exact ⟨rfl, rfl⟩
      · exact ih hw ht h

/-! ### The lists of the data classes -/

/-- Put the entry in the list of a class. -/
def enlist (s : UnifiedChannel) (e : ℕ) (cls : String) : UnifiedChannel :=
  (s.modifyLink cls fun l => { l with entries := e :: l.entries }).modifyEntry e
    fun o => { o with dataclasslink := o.dataclasslink ++ [cls] }

theorem enlist_sameHoldings (s : UnifiedChannel) (e : ℕ) (cls : String) :
    SameHoldings s (enlist s e cls) where
  held := rfl
  facts p := by
    by_cases hp : p = e
    · subst hp
      simp [enlist, UnifiedChannel.modifyEntry, UnifiedChannel.modifyLink, UChannelEntry.facts]
    · simp [enlist, UnifiedChannel.modifyEntry, UnifiedChannel.modifyLink, hp]
  objects := rfl
  writers := rfl

theorem enlist_entries (s : UnifiedChannel) (e : ℕ) (cl cls : String) :
    ((enlist s e cl).entrymap cls).entries =
      if cls = cl then e :: (s.entrymap cls).entries else (s.entrymap cls).entries := by
  by_cases hcls : cls = cl
  · subst hcls
    simp [enlist, UnifiedChannel.modifyEntry, UnifiedChannel.modifyLink]
  · simp [enlist, UnifiedChannel.modifyEntry, UnifiedChannel.modifyLink, hcls]

theorem enlist_dataclasslink (s : UnifiedChannel) (e : ℕ) (cl : String) (p : ℕ) :
    ((enlist s e cl).obj p).dataclasslink =
      if p = e then (s.obj p).dataclasslink ++ [cl] else (s.obj p).dataclasslink := by
  by_cases hp : p = e
  · subst hp
    simp [enlist, UnifiedChannel.modifyEntry, UnifiedChannel.modifyLink]
  · simp [enlist, UnifiedChannel.modifyEntry, UnifiedChannel.modifyLink, hp]

/-- An entry is as often in the list of a class as the class is among its links. -/
def Counted (s : UnifiedChannel) : Prop :=
  ∀ cls p, (s.entrymap cls).entries.count p = (s.obj p).dataclasslink.count cls

theorem Counted.enlist (h : Counted s) (e : ℕ) (cls : String) : Counted (enlist s e cls) := by
  intro cls' p
  have hold := h cls' p
  rw [enlist_entries, enlist_dataclasslink]
  by_cases hcls : cls' = cls <;> by_cases hp : p = e
  · subst hcls hp
    simp [hold]
  · rw [if_pos hcls, if_neg hp, List.count_cons_of_ne (Ne.symm hp), hold]
  · rw [if_neg hcls, if_pos hp, List.count_append, List.count_singleton, hold]
    simp [Ne.symm hcls]
  · rw [if_neg hcls, if_neg hp, hold]

/-- The entry is put in the lists of the classes, and clients stay tied. -/
theorem Web.linkClasses {msg : UChannelCommRequest} {e : ℕ} (cs : List String) (hw : Web s log)
    (ht : Tied reg s log) (hcount : Counted s)
    (h : UnifiedChannel.linkClasses reg msg e cs s = .ok (s', out)) :
    Web s' (log.append out) ∧ Tied reg s' (log.append out) ∧ Counted s' ∧ SameHoldings s s' ∧
      (log.append out).published = log.published ∧
      ∀ cls q, q ∈ (s'.entrymap cls).entries ↔
        q ∈ (s.entrymap cls).entries ∨ q = e ∧ cls ∈ cs := by
  induction cs generalizing s log out with
  | nil =>
    cases h
    rw [Log.append_nil]
    exact ⟨hw, ht, hcount, .refl _, rfl, by simp⟩
  | cons cl cs ih =>
    rw [UnifiedChannel.linkClasses] at h
    obtain ⟨s₂, o, o', hcall, hrest, rfl⟩ := andThen_eq_ok.mp h
    have hsame := enlist_sameHoldings s e cl
    obtain ⟨hw₁, ht₁⟩ := hw.touch ht hsame rfl rfl rfl
    obtain ⟨hw₂, ht₂, hsame₂, ⟨hmap₂, hobj₂⟩, hpub₂⟩ := hw₁.callClients _ ht₁ hcall
    have hcount₂ : Counted s₂ := by
      intro cls p
      rw [hmap₂, hobj₂]
      exact hcount.enlist e cl cls p
    obtain ⟨hw₃, ht₃, hcount₃, hsame₃, hpub₃, hmap₃⟩ := ih hw₂ ht₂ hcount₂ hrest
    rw [Log.append_append]
    refine ⟨hw₃, ht₃, hcount₃, hsame.trans (hsame₂.trans hsame₃), hpub₃.trans hpub₂,
      fun cls q => ?_⟩
    have hlist := enlist_entries s e cl cls
    rw [hmap₃, hmap₂]
    change q ∈ ((enlist s e cl).entrymap cls).entries ∨ _ ↔ _
    rw [hlist]
    split
    · rename_i hcls
      simp only [hcls, List.mem_cons, true_or, and_true]
      tauto
    · rename_i hcls
      simp only [List.mem_cons, hcls, false_or]

/-- The entry is taken out of the lists of the classes. -/
theorem unlinkFromDataClass_count {e : ℕ} (cs : List String)
    {em em' : String → UCDataclassLink}
    (h : UnifiedChannel.unlinkFromDataClass e cs em = .ok em') (cls : String) (q : ℕ) :
    (em' cls).entries.count q + (if q = e then cs.count cls else 0) =
      (em cls).entries.count q := by
  induction cs generalizing em with
  | nil =>
    cases h
    simp
  | cons cl cs ih =>
    rw [UnifiedChannel.unlinkFromDataClass] at h
    split at h
    · rename_i hmem
      have hstep := ih h
      have hpos : 0 < (em cl).entries.count e := List.count_pos_iff.mpr (by simpa using hmem)
      by_cases hcls : cls = cl
      · subst hcls
        rw [Function.update_self] at hstep
        by_cases hq : q = e
        · subst hq
          simp only [if_true, List.count_erase_self, List.count_cons_self] at hstep ⊢
          omega
        · simp only [if_neg hq, List.count_erase_of_ne hq] at hstep ⊢
          exact hstep
      · rw [Function.update_of_ne hcls] at hstep
        rw [List.count_cons_of_ne (Ne.symm hcls)]
        exact hstep
    · cases h

/-! ### Operations that publish a change -/

/-- A change is published about an entry that has an id: its announcement, if there was no
change about it, or its deletion. -/
theorem Web.publish {change : Change} (hw : Web s log) (horder : InOrder s' log')
    (hpub : log'.published = log.published ++ [change])
    (hchange : (change = announcement p ∧ ∀ change ∈ log.published, change.entry ≠ some p) ∨
      change = deletion p)
    (hp : p < s'.objects ∧ (s'.obj p).entryId ≠ entryAny)
    (hids : ∀ q, q < s.objects → (s.obj q).entryId ≠ entryAny → (s'.obj q).entryId ≠ entryAny)
    (hobj : s.objects ≤ s'.objects)
    (hheld : ∀ h q, s'.held h = some q → s.held h = some q ∨ q = p)
    (hwr : ∀ q ∈ s'.writingClients, q < s'.objects) : Web s' log' where
  order := horder
  published := by
    rw [hpub]
    intro change' hmem
    rcases List.mem_append.mp hmem with hmem | hmem
    · obtain ⟨q, hq, hlt, hid⟩ := hw.published change' hmem
      exact ⟨q, hq, Nat.lt_of_lt_of_le hlt hobj, hids q hlt hid⟩
    · rw [List.mem_singleton.mp hmem]
      exact ⟨p, hchange.imp And.left id, hp⟩
  first := by
    rw [hpub]
    intro a b q hsplit
    rcases List.eq_nil_or_concat b with rfl | ⟨b, z, rfl⟩
    · -- the new change is the announcement
      obtain ⟨rfl, hlast⟩ := List.append_inj' hsplit rfl
      rcases hchange with ⟨rfl, hnew⟩ | rfl
      · obtain rfl : p = q := by simpa [announcement] using hlast
        exact hnew
      · simp [announcement, deletion] at hlast
    · have hsplit' : log.published ++ [change] = (a ++ announcement q :: b) ++ [z] := by
        simpa using hsplit
      exact hw.first a b q (List.append_inj' hsplit' rfl).1
  held h q hq := by
    rcases hheld h q hq with hq | rfl
    · obtain ⟨hlt, hid⟩ := hw.held h q hq
      exact ⟨Nat.lt_of_lt_of_le hlt hobj, hids q hlt hid⟩
    · exact hp
  writers := hwr

/-- Publishing leaves the clients alone, and the entries and the log with the new change
last. -/
theorem announce_frame {change : Change} (h : s.announce change = .ok (s', out)) :
    s' = { s with changes := s'.changes } ∧ out = [.made change] := by
  simp only [UnifiedChannel.announce] at h
  split at h
  · cases h
  · split at h
    · cases h
    · cases h
      exact ⟨rfl, rfl⟩

theorem InOrder.of_announce {change : Change} (h : InOrder s log)
    (hs : s.announce change = .ok (s', out)) : InOrder s' (log.append out) := by
  have := h.announce change
  rw [hs] at this
  exact this

/-- The changes and the clients' logs after a change is published. -/
theorem append_made (log : Log) (change : Change) :
    (log.append [.made change]).published = log.published ++ [change] ∧
      (log.append [.made change]).handled = log.handled := by
  refine ⟨rfl, ?_⟩
  funext k
  simp only [Log.append, changesHandled_made, List.append_nil]

/-- The master confirms the entry of a writer here under the class the writer asked for,
and does so once: the writer has no id yet. -/
def Echoes (s : UnifiedChannel) (msg : UChannelCommRequest) : Prop :=
  s.held msg.data0 = none → msg.data1 % 0x100 = s.id.location →
    ∀ e, s.writingClients.find? (fun e => (s.obj e).creationId == msg.data1) = some e →
      (s.obj e).dataclassname = msg.dataclassname ∧ (s.obj e).entryId = entryAny

/-- The entry that `entryFor` finds or makes is one that no change is about. -/
structure Fresh (s : UnifiedChannel) (log : Log) (msg : UChannelCommRequest) (e : ℕ)
    (s₁ : UnifiedChannel) : Prop where
  frame : s₁ = { s with objects := s₁.objects, obj := s₁.obj }
  new : ∀ change ∈ log.published, change.entry ≠ some e
  lt : e < s₁.objects
  objects : s.objects ≤ s₁.objects
  others : ∀ p, p ≠ e → s₁.obj p = s.obj p
  dataclassname : (s₁.obj e).dataclassname = msg.dataclassname
  counted : Counted s₁

theorem entryFor_fresh {msg : UChannelCommRequest} {e : ℕ} (hw : Web s log)
    (hc : Classed reg s log) (hecho : Echoes s msg) (hfree : s.held msg.data0 = none)
    (h : s.entryFor msg = .ok (e, s')) : Fresh s log msg e s' := by
  simp only [UnifiedChannel.entryFor] at h
  split at h
  · rename_i hloc
    split at h
    · cases h
    · rename_i e' hfind
      cases h
      obtain ⟨hclass, hid⟩ := hecho hfree hloc _ hfind
      refine ⟨rfl, fun change hchange heq => ?_, hw.writers _ (List.mem_of_find?_eq_some hfind),
        Nat.le_refl _, fun _ _ => rfl, hclass, hc.counted⟩
      -- entries in a change have an id
      obtain ⟨p, hp, -, hpid⟩ := hw.published change hchange
      obtain rfl : p = e := by rcases hp with rfl | rfl <;> exact Option.some.inj heq
      exact hpid hid
  · cases h
    have hnew : ∀ change ∈ log.published, change.entry ≠ some s.objects := by
      intro change hchange heq
      obtain ⟨p, hp, hlt, -⟩ := hw.published change hchange
      obtain rfl : p = s.objects := by rcases hp with rfl | rfl <;> exact Option.some.inj heq
      exact absurd hlt (Nat.lt_irrefl _)
    refine ⟨rfl, hnew, Nat.lt_succ_self _, Nat.le_succ _, fun p hp => Function.update_of_ne hp _ _,
      by simp, fun cls p => ?_⟩
    by_cases hp : p = s.objects
    · subst hp
      simp only [Function.update_self, List.count_nil]
      refine List.count_eq_zero_of_not_mem fun hmem => ?_
      exact hnew _ ((hc.listed cls _).mp hmem).1.1 rfl
    · simp only [Function.update_of_ne hp]
      exact hc.counted cls p

theorem held_store (s : UnifiedChannel) (h e k : ℕ) :
    (s.store h e).held k = if k = h then some e else s.held k := by
  simp only [UnifiedChannel.held, UnifiedChannel.store]
  by_cases hk : k = h
  · subst hk
    rw [if_pos rfl, List.getElem?_set_self]
    · rfl
    · simp only [List.length_append, List.length_replicate]
      omega
  · rw [if_neg hk, List.getElem?_set_ne (Ne.symm hk)]
    by_cases hlt : k < s.entries.length
    · rw [List.getElem?_append_left hlt]
    · rw [List.getElem?_append_right (by omega), List.getElem?_eq_none (l := s.entries) (by omega),
        List.getElem?_replicate]
      split <;> rfl

/-! ### One input -/

/-- The invariant of an end. -/
structure Woven (reg : DataClassRegistry) (s : UnifiedChannel) (log : Log) : Prop where
  web : Web s log
  tied : Tied reg s log
  classed : Classed reg s log

/-- Nothing that matters is changed. -/
theorem Woven.touch (h : Woven reg s log) (hsame : SameHoldings s s')
    (hch : s'.changes = s.changes) (hcl : s'.readingClients = s.readingClients)
    (hh : s'.handles = s.handles) (hmap : s'.entrymap = s.entrymap)
    (hlink : ∀ p, (s'.obj p).dataclasslink = (s.obj p).dataclasslink) : Woven reg s' log := by
  obtain ⟨hw, ht⟩ := h.web.touch h.tied hsame hch hcl hh
  refine ⟨hw, ht, fun cls p => ?_, fun cls p => ?_⟩
  · have hclass : (s'.obj p).dataclassname = (s.obj p).dataclassname :=
      congrArg EntryFacts.dataclassname (hsame.facts p)
    rw [hmap, hclass]
    exact h.classed.listed cls p
  · rw [hmap, hlink]
    exact h.classed.counted cls p

/-- The entry lists are kept where holdings and links of entries are. -/
theorem Classed.same (h : Classed reg s log) (hobj : s'.obj = s.obj)
    (hmap : s'.entrymap = s.entrymap) (hpub : log'.published = log.published) :
    Classed reg s' log' := by
  refine ⟨fun cls p => ?_, fun cls p => ?_⟩
  · rw [hmap, hobj, hpub]
    exact h.listed cls p
  · rw [hmap, hobj]
    exact h.counted cls p

theorem Woven.refreshAt (h : Woven reg s log) (hs : s.refreshAt reg k = .ok (s', out)) :
    Woven reg s' (log.append out) := by
  obtain ⟨hw, ht⟩ := h.web.refreshAt h.tied hs
  have hframe := (refreshAt_frame hs).1
  exact ⟨hw, ht, h.classed.same (by rw [hframe]) (by rw [hframe]) (refreshAt_published hs)⟩

/-- A new entry is announced and put in the lists of its classes. -/
theorem Woven.newEntryConf {msg : UChannelCommRequest} (h : Woven reg s log)
    (hecho : Echoes s msg) (hs : s.newEntryConf reg msg = .ok (s', out)) :
    Woven reg s' (log.append out) := by
  simp only [UnifiedChannel.newEntryConf] at hs
  split at hs
  · cases hs
  split at hs
  · cases hs
    rw [Log.append_nil]
    exact h
  split at hs
  · cases hs
  split at hs
  · cases hs
  rename_i _ hheld hid _ e s₁ hfor
  have hfree : s.held msg.data0 = none := by simpa using hheld
  have hf := entryFor_fresh h.web h.classed hecho hfree hfor
  obtain ⟨s₂, o, o', hann, hlink, rfl⟩ := andThen_eq_ok.mp hs
  obtain ⟨hframe, rfl⟩ := announce_frame hann
  obtain ⟨hpub, hhandled⟩ := append_made log ⟨.newEntry, some e⟩
  have hobj : s₂.obj = s₁.obj := by rw [hframe]; rfl
  have hmap : s₂.entrymap = s.entrymap := by rw [hframe, hf.frame]; rfl
  generalize hs₃ : s₂.modifyEntry e (fun o => { o with entryId := msg.data0 }) = s₃ at hlink
  -- the entry is announced while it gets its id
  have hobj₃ : ∀ p, p ≠ e → s₃.obj p = s.obj p := by
    intro p hp
    rw [← hs₃, ← hf.others p hp, ← hobj]
    exact Function.update_of_ne hp _ _
  have hobje : s₃.obj e = { s₁.obj e with entryId := msg.data0 } := by
    rw [← hs₃, ← hobj]
    exact Function.update_self _ _ _
  have horder : InOrder s₃ (log.append [.made ⟨.newEntry, some e⟩]) := by
    have hstore : InOrder (s₁.store msg.data0 e) log :=
      (entryFor_keeps h.web.order hfor).congr rfl rfl rfl
    rw [← hs₃]
    exact (hstore.of_announce hann).congr rfl rfl rfl
  have hobjects : s₃.objects = s₁.objects := by rw [← hs₃, hframe]; rfl
  have hwriters : s₃.writingClients = s.writingClients := by rw [← hs₃, hframe, hf.frame]; rfl
  have hclients : s₃.readingClients = s.readingClients := by rw [← hs₃, hframe, hf.frame]; rfl
  have hheld₃ : ∀ k, s₃.held k = if k = msg.data0 then some e else s.held k := by
    intro k
    rw [← held_store, ← hs₃, hframe, hf.frame]
    rfl
  have hw₃ : Web s₃ (log.append [.made ⟨.newEntry, some e⟩]) := by
    refine h.web.publish (p := e) horder hpub (.inl ⟨rfl, hf.new⟩) ⟨?_, ?_⟩ ?_ ?_ ?_ ?_
    · rw [hobjects]
      exact hf.lt
    · rw [hobje]
      exact hid
    · intro q _ hq
      by_cases hqe : q = e
      · rw [hqe, hobje]
        exact hid
      · rwa [hobj₃ q hqe]
    · rw [hobjects]
      exact hf.objects
    · intro k q hq
      rw [hheld₃] at hq
      split at hq
      · exact .inr (Option.some.inj hq).symm
      · exact .inl hq
    · intro q hq
      rw [hwriters] at hq
      rw [hobjects]
      exact Nat.lt_of_lt_of_le (h.web.writers q hq) hf.objects
  have ht₃ : Tied reg s₃ (log.append [.made ⟨.newEntry, some e⟩]) := by
    intro c hc hsteady
    rw [hclients] at hc
    refine h.tied.same_client h.web (fun p hp => ?_) (hpub ▸ List.prefix_append _ _) hc rfl
      (by rw [hhandled]) hsteady
    rw [hobj₃ p]
    rintro rfl
    exact hf.new _ hp rfl
  have hcount₃ : Counted s₃ := by
    intro cls p
    have hold := hf.counted cls p
    have hmap₃ : s₃.entrymap = s₁.entrymap := by rw [← hs₃, hframe]; rfl
    rw [hmap₃, hold]
    by_cases hp : p = e
    · rw [hp, hobje]
    · rw [hobj₃ p hp, hf.others p hp]
  obtain ⟨hw₄, ht₄, hcount₄, hsame₄, hpub₄, hmap₄⟩ := hw₃.linkClasses _ ht₃ hcount₃ hlink
  rw [Log.append_append]
  refine ⟨hw₄, ht₄, fun cls q => ?_, hcount₄⟩
  have hclass : (s'.obj q).dataclassname = (s₃.obj q).dataclassname :=
    congrArg EntryFacts.dataclassname (hsame₄.facts q)
  have hmap₃ : s₃.entrymap = s.entrymap := by rw [← hs₃, ← hmap]; rfl
  have hlive : LiveIn (log.published ++ [⟨.newEntry, some e⟩]) q ↔ LiveIn log.published q ∨ q = e :=
    liveIn_announce hf.new
  rw [hpub₄, hpub, hlive, hmap₄, hmap₃, hclass, h.classed.listed]
  by_cases hq : q = e
  · subst hq
    have hnot : ¬ LiveIn log.published q := fun hl => hf.new _ hl.1 rfl
    simp only [hnot, false_and, false_or, or_true, true_and, hobje, hf.dataclassname]
  · simp only [hq, false_and, or_false, hobj₃ q hq]

/-- An entry is deleted and taken out of the lists of its classes. -/
theorem Woven.invalidateEntryCmd {msg : UChannelCommRequest} (h : Woven reg s log)
    (hs : s.invalidateEntryCmd msg = .ok (s', out)) : Woven reg s' (log.append out) := by
  simp only [UnifiedChannel.invalidateEntryCmd] at hs
  split at hs
  · cases hs
  rename_i e hheld
  obtain ⟨s₁, o, o', hann, hrest, rfl⟩ := andThen_eq_ok.mp hs
  obtain ⟨hframe, rfl⟩ := announce_frame hann
  obtain ⟨hpub, hhandled⟩ := append_made log ⟨.deletedEntry, some e⟩
  split at hrest
  · cases hrest
  split at hrest
  · cases hrest
  rename_i em hunlink
  cases hrest
  rw [List.append_nil]
  have hobj : s₁.obj = s.obj := by rw [hframe]
  have hmap : s₁.entrymap = s.entrymap := by rw [hframe]
  generalize hs₂ : (({ s₁ with
    writingClients := if (s₁.obj e).isLocal then s₁.writingClients.erase e else s₁.writingClients
    entrymap := em } : UnifiedChannel).modifyEntry e
      fun o => { o with dataclasslink := [] }) = s₂
  have hobje : s₂.obj = Function.update s.obj e { s.obj e with dataclasslink := [] } := by
    rw [← hs₂, ← hobj]
    rfl
  have hfacts : ∀ p, (s₂.obj p).facts = (s.obj p).facts := by
    intro p
    rw [hobje]
    by_cases hp : p = e
    · subst hp
      rw [Function.update_self]
      rfl
    · rw [Function.update_of_ne hp]
  have hids : ∀ p, (s₂.obj p).entryId = (s.obj p).entryId :=
    fun p => congrArg EntryFacts.id (hfacts p)
  obtain ⟨hlt, hid⟩ := h.web.held _ _ hheld
  have hobjects : s₂.objects = s.objects := by rw [← hs₂, hframe]; rfl
  have horder : InOrder s₂ (log.append [.made ⟨.deletedEntry, some e⟩]) := by
    rw [← hs₂]
    exact (h.web.order.of_announce hann).congr rfl rfl rfl
  refine ⟨h.web.publish (p := e) horder hpub (.inr rfl) ⟨?_, ?_⟩ ?_ ?_ ?_ ?_, ?_, ?_, ?_⟩
  · rw [hobjects]
    exact hlt
  · rw [hids]
    exact hid
  · intro q _ hq
    rwa [hids]
  · exact Nat.le_of_eq hobjects.symm
  · intro k q hq
    left
    rw [← hq, ← hs₂, hframe]
    rfl
  · intro q hq
    rw [hobjects]
    have hsub : q ∈ s.writingClients := by
      rw [← hs₂, hframe] at hq
      simp only [UnifiedChannel.modifyEntry] at hq
      split at hq
      · exact List.mem_of_mem_erase hq
      · exact hq
    exact h.web.writers q hsub
  · intro c hc hsteady
    have hclients : s₂.readingClients = s.readingClients := by rw [← hs₂, hframe]; rfl
    rw [hclients] at hc
    exact h.tied.same_client h.web (fun p _ => hfacts p) (hpub ▸ List.prefix_append _ _) hc rfl
      (by rw [hhandled]) hsteady
  · intro cls q
    have hcount := unlinkFromDataClass_count _ hunlink cls q
    rw [hobj, hmap, List.count_reverse] at hcount
    have hold := h.classed.counted cls q
    have hclass : (s₂.obj q).dataclassname = (s.obj q).dataclassname :=
      congrArg EntryFacts.dataclassname (hfacts q)
    have hmap₂ : s₂.entrymap = em := by rw [← hs₂]; rfl
    have hlive : LiveIn (log.published ++ [⟨.deletedEntry, some e⟩]) q ↔
        LiveIn log.published q ∧ q ≠ e := liveIn_delete
    rw [hmap₂, hpub, hlive, hclass, ← List.count_pos_iff, and_right_comm, ← h.classed.listed,
      ← List.count_pos_iff]
    by_cases hq : q = e
    · subst hq
      simp only [if_true] at hcount
      simp only [ne_eq, not_true_eq_false, and_false, iff_false]
      omega
    · simp only [if_neg hq, Nat.add_zero] at hcount
      simp only [hcount, ne_eq, hq, not_false_eq_true, and_true]
  · intro cls q
    have hcount := unlinkFromDataClass_count _ hunlink cls q
    rw [hobj, hmap, List.count_reverse] at hcount
    have hold := h.classed.counted cls q
    have hmap₂ : s₂.entrymap = em := by rw [← hs₂]; rfl
    rw [hmap₂, hobje]
    by_cases hq : q = e
    · subst hq
      simp only [if_true] at hcount
      simp only [Function.update_self, List.count_nil]
      omega
    · simp only [if_neg hq, Nat.add_zero] at hcount
      rw [Function.update_of_ne hq, hcount, hold]

/-- What the walk of a `CleanEntryCmd` leaves alone. -/
structure Walked (s s' : UnifiedChannel) (out : List Effect) : Prop where
  same : SameHoldings s s'
  clients : s'.readingClients = s.readingClients
  entrymap : s'.entrymap = s.entrymap
  dataclasslink : ∀ p, (s'.obj p).dataclasslink = (s.obj p).dataclasslink
  made : changesMade out = []
  handled : ∀ k, changesHandled out k = []

theorem cleanStep_walked (s : UnifiedChannel) (e : ℕ) (b : Prop) [Decidable b] (cl : ChangeList)
    (out : List Effect) (hmade : changesMade out = []) (hhandled : ∀ k, changesHandled out k = []) :
    Walked s { (if b then s.modifyEntry e fun o => o.cleanAllData.1 else s) with changes := cl }
      out := by
  have hobj : ∀ p, (if b then s.modifyEntry e fun o => o.cleanAllData.1 else s).obj p = s.obj p ∨
      (if b then s.modifyEntry e fun o => o.cleanAllData.1 else s).obj p =
        (s.obj p).cleanAllData.1 := by
    intro p
    split
    · by_cases hp : p = e
      · subst hp
        exact .inr (Function.update_self _ _ _)
      · exact .inl (Function.update_of_ne hp _ _)
    · exact .inl rfl
  refine ⟨⟨?_, fun p => ?_, ?_, ?_⟩, ?_, ?_, fun p => ?_, hmade, hhandled⟩
  · split <;> rfl
  · rcases hobj p with h | h
    · exact congrArg UChannelEntry.facts h
    · exact (congrArg UChannelEntry.facts h).trans rfl
  · split <;> rfl
  · split <;> rfl
  · split <;> rfl
  · split <;> rfl
  · rcases hobj p with h | h
    · exact congrArg UChannelEntry.dataclasslink h
    · exact (congrArg UChannelEntry.dataclasslink h).trans rfl

theorem Walked.trans {out' : List Effect} (h : Walked s s' out) (h' : Walked s' s₂ out') :
    Walked s s₂ (out ++ out') where
  same := h.same.trans h'.same
  clients := h'.clients.trans h.clients
  entrymap := h'.entrymap.trans h.entrymap
  dataclasslink p := (h'.dataclasslink p).trans (h.dataclasslink p)
  made := by
    have h₁ := h.made
    have h₂ := h'.made
    simp only [changesMade, List.filterMap_append, List.append_eq_nil_iff] at h₁ h₂ ⊢
    exact ⟨h₁, h₂⟩
  handled k := by
    have h₁ := h.handled k
    have h₂ := h'.handled k
    simp only [changesHandled, List.filterMap_append, List.append_eq_nil_iff] at h₁ h₂ ⊢
    exact ⟨h₁, h₂⟩

theorem cleanLoop_walked {e : ℕ} {msg : UChannelCommRequest} (n : ℕ)
    (h : UnifiedChannel.cleanLoop e msg n s = .ok (s', out)) : Walked s s' out := by
  induction n generalizing s out with
  | zero => cases h
  | succ n ih =>
    rw [UnifiedChannel.cleanLoop] at h
    dsimp only at h
    split at h
    · split at h
      · cases h
      · rename_i cl hcl
        obtain ⟨s₁, o, o', hfirst, hrest, rfl⟩ := andThen_eq_ok.mp h
        cases hfirst
        refine (cleanStep_walked s e _ cl _ ?_ fun k => ?_).trans (ih hrest)
        · split <;> split <;> rfl
        · split <;> split <;> rfl
    · cases h
      exact ⟨.refl _, rfl, rfl, fun _ => rfl, rfl, fun _ => rfl⟩

theorem Woven.cleanEntryCmd {msg : UChannelCommRequest} (h : Woven reg s log)
    (hs : s.cleanEntryCmd msg = .ok (s', out)) : Woven reg s' (log.append out) := by
  have horder : InOrder s' (log.append out) := by
    have := h.web.order.cleanEntryCmd msg
    rw [hs] at this
    exact this
  simp only [UnifiedChannel.cleanEntryCmd] at hs
  split at hs
  · cases hs
  have hwalk := cleanLoop_walked _ hs
  have hpub : (log.append out).published = log.published := by
    simp only [Log.append, hwalk.made, List.append_nil]
  refine ⟨h.web.same hwalk.same horder hpub, fun c hc hsteady => ?_, fun cls p => ?_,
    fun cls p => ?_⟩
  · rw [hwalk.clients] at hc
    refine h.tied.same_client h.web (fun p _ => hwalk.same.facts p) (hpub ▸ List.prefix_rfl) hc rfl
      ?_ hsteady
    simp only [Log.append, hwalk.handled, List.append_nil]
  · have hclass : (s'.obj p).dataclassname = (s.obj p).dataclassname :=
      congrArg EntryFacts.dataclassname (hwalk.same.facts p)
    rw [hwalk.entrymap, hclass, hpub]
    exact h.classed.listed cls p
  · rw [hwalk.entrymap, hwalk.dataclasslink]
    exact h.classed.counted cls p

theorem Woven.deleteEntryCmd {msg : UChannelCommRequest} (h : Woven reg s log)
    (hs : s.deleteEntryCmd msg = .ok (s', out)) : Woven reg s' (log.append out) := by
  simp only [UnifiedChannel.deleteEntryCmd] at hs
  split at hs
  · cases hs
  cases hs
  rw [Log.append_nil]
  refine ⟨⟨h.web.order.congr rfl rfl rfl, h.web.published, h.web.first, fun k p hk => ?_,
    h.web.writers⟩, h.tied, h.classed.same rfl rfl rfl⟩
  refine h.web.held k p ?_
  simp only [UnifiedChannel.held] at hk ⊢
  rw [List.getElem?_set] at hk
  split at hk
  · split at hk <;> cases hk
  · exact hk

/-- The loop of `addReadToken` links the entries that match. -/
theorem linkMatching_links (es : List ℕ) (hsel : ∀ p, c.entry = some p → c.isLinked p = true)
    (hnodup : (c.classLead.map (·.entry)).Nodup)
    (h : UnifiedChannel.linkMatching obj es c = .ok d) :
    (∀ p, d.isLinked p = true ↔ c.isLinked p = true ∨ p ∈ es ∧ c.entrymatch (obj p) = true) ∧
      (∀ p, d.entry = some p → d.isLinked p = true) ∧ (d.classLead.map (·.entry)).Nodup ∧
      d.toReadSpec = c.toReadSpec := by
  induction es generalizing c with
  | nil =>
    cases h
    exact ⟨by simp, hsel, hnodup, rfl⟩
  | cons e es ih =>
    rw [UnifiedChannel.linkMatching] at h
    split at h
    · rename_i hmatch
      obtain ⟨c₁, hlink, hrest⟩ := bind_eq_ok.mp h
      obtain ⟨hlead, hnot, hentry, hspec⟩ := linkReadClientToEntry_cases hlink
      have hlinked : ∀ q, c₁.isLinked q = true ↔ q = e ∨ c.isLinked q = true := by
        intro q
        rw [isLinked_iff, isLinked_iff, hlead, List.mem_cons]
      have hnodup₁ : (c₁.classLead.map (·.entry)).Nodup := by
        rw [hlead]
        refine List.nodup_cons.mpr ⟨fun hmem => ?_, hnodup⟩
        rw [isLinked_iff.mpr hmem] at hnot
        cases hnot
      obtain ⟨h₁, h₂, h₃, h₄⟩ := ih (fun q hq => (hlinked q).mpr <| by
        rcases hentry with hentry | hentry
        · exact .inr (hsel q (hentry ▸ hq))
        · rw [hentry] at hq
          exact .inl (Option.some.inj hq).symm) hnodup₁ hrest
      refine ⟨fun q => ?_, h₂, h₃, h₄.trans hspec⟩
      rw [h₁, hlinked, hspec, List.mem_cons]
      constructor
      · rintro ((rfl | hq) | ⟨hq, hqm⟩)
        · exact .inr ⟨.inl rfl, hmatch⟩
        · exact .inl hq
        · exact .inr ⟨.inr hq, hqm⟩
      · rintro (hq | ⟨rfl | hq, hqm⟩)
        · exact .inl (.inr hq)
        · exact .inl (.inl rfl)
        · exact .inr ⟨hq, hqm⟩
    · rename_i hmatch
      obtain ⟨h₁, h₂, h₃, h₄⟩ := ih hsel hnodup h
      refine ⟨fun q => ?_, h₂, h₃, h₄⟩
      rw [h₁, List.mem_cons]
      refine or_congr Iff.rfl ⟨fun hq => ⟨.inr hq.1, hq.2⟩, ?_⟩
      rintro ⟨rfl | hq, hqm⟩
      · exact absurd hqm hmatch
      · exact ⟨hq, hqm⟩

/-- The test of `addReadToken` on the entries of a class. -/
theorem entrymatch_eq_atCreation {spec : ReadSpec} {o : UChannelEntry}
    (hid : o.entryId ≠ entryAny) (hclass : spec.classOk reg o.facts = true) :
    spec.entrymatch o = spec.atCreation reg o.facts := by
  rw [ReadSpec.atCreation, hclass, Bool.true_and, ReadSpec.entrymatch]
  by_cases hany : spec.requestedEntry = entryAny
  · have hne : (entryAny == o.entryId) = false := by simpa using Ne.symm hid
    have hne' : (entryAny == entryBylabel) = false := by decide
    simp only [hany, if_true, beq_self_eq_true, Bool.true_and, hne, hne', Bool.false_and,
      Bool.or_false]
    rfl
  · have hany' : (spec.requestedEntry == entryAny) = false := by simpa using hany
    rw [if_neg hany, hany', Bool.false_and, Bool.false_or, ReadSpec.picks, Bool.or_comm]
    simp only [UChannelEntry.facts]
    rw [Bool.beq_comm (a := o.label)]

/-- Reading clients in the list of a class do not matter for the entries in it. -/
theorem modifyLink_entries (f : List ℕ → List ℕ) (cl cls : String) :
    ((s.modifyLink cl fun l => { l with clients := f l.clients }).entrymap cls).entries =
      (s.entrymap cls).entries := by
  by_cases hcls : cls = cl
  · subst hcls
    simp [UnifiedChannel.modifyLink]
  · simp [UnifiedChannel.modifyLink, hcls]

/-- A new client is linked to the live entries that pass the test. -/
theorem Woven.addReadToken {spec : ReadSpec} (h : Woven reg s log)
    (hs : s.addReadToken spec = .ok (s', out)) :
    Woven reg s' ((log.arrived s.handles).append out) := by
  have horder := h.web.order.addReadToken spec
  rw [hs] at horder
  simp only [UnifiedChannel.addReadToken] at hs
  split at hs
  · cases hs
  rename_i c' hlink
  cases hs
  rw [Log.append_send]
  simp only [KeepsOrder, Log.append_send] at horder
  obtain ⟨pend, spare, hj⟩ := h.web.order
  have hhandle := (linkMatching_same hlink).2
  refine ⟨⟨horder, h.web.published, h.web.first, h.web.held, h.web.writers⟩,
    fun c hc hsteady => ?_, fun cls p => ?_, fun cls p => ?_⟩
  · rcases List.mem_append.mp hc with hc | hc
    · -- the other clients came earlier
      have hne : c.handle ≠ s.handles := Nat.ne_of_lt (hj.bound c hc)
      exact h.tied.same_client h.web (fun p _ => rfl) List.prefix_rfl hc
        (Function.update_of_ne hne _ _) rfl hsteady
    · obtain rfl := List.mem_singleton.mp hc
      have hreached : (log.arrived s.handles).reached c = log.published := by
        simp only [Log.reached, Log.arrived, hhandle, Function.update_self, hj.blank _ (Nat.le_refl _),
          List.length_nil, Nat.add_zero, List.take_length]
      rw [hreached]
      obtain ⟨hlinked, hsel, hnodup, hspec⟩ := linkMatching_links _ (by simp) (by simp) hlink
      refine ⟨fun p => ?_, hsel, hnodup⟩
      have hlinked' : c.isLinked p = true ↔
          p ∈ (s.entrymap spec.dataclassname).entries ∧ spec.entrymatch (s.obj p) = true := by
        rw [hlinked]
        simp [UCClientHandle.isLinked]
      change c.isLinked p = true ↔
        LiveIn log.published p ∧ c.toReadSpec.atCreation reg (s.obj p).facts = true
      rw [hlinked', hspec, h.classed.listed, and_assoc]
      refine and_congr_right fun hlive => ?_
      obtain ⟨q, hq, -, hid⟩ := h.web.published _ hlive.1
      obtain rfl : q = p := by
        rcases hq with hq | hq
        · simpa [announcement] using hq.symm
        · simp [announcement, deletion] at hq
      have hclass : spec.dataclassname ∈ reg.lineage (s.obj q).dataclassname ↔
          spec.classOk reg (s.obj q).facts = true := by
        simp [ReadSpec.classOk, DataClassRegistry.isCompatible, UChannelEntry.facts]
      rw [hclass]
      constructor
      · rintro ⟨hc, hm⟩
        exact entrymatch_eq_atCreation hid hc ▸ hm
      · intro hpass
        have hc : spec.classOk reg (s.obj q).facts = true := by
          simp only [ReadSpec.atCreation, Bool.and_eq_true] at hpass
          exact hpass.1
        refine ⟨hc, ?_⟩
        rw [entrymatch_eq_atCreation hid hc]
        exact hpass
  · rw [modifyLink_entries]
    exact h.classed.listed cls p
  · rw [modifyLink_entries]
    exact h.classed.counted cls p

theorem Web.lt_objects (hw : Web s log) (h : ∃ change ∈ log.published, change.entry = some p) :
    p < s.objects := by
  obtain ⟨change, hchange, heq⟩ := h
  obtain ⟨q, hq, hlt, -⟩ := hw.published change hchange
  obtain rfl : q = p := by rcases hq with rfl | rfl <;> exact Option.some.inj heq
  exact hlt

/-- A writer gets an entry without id. -/
theorem Woven.addWriteToken (h : Woven reg s log) (spec : WriteSpec) :
    Woven reg (s.addWriteToken spec).1 log := by
  have hobj : ∀ p, p < s.objects → (s.addWriteToken spec).1.obj p = s.obj p :=
    fun p hp => Function.update_of_ne (Nat.ne_of_lt hp) _ _
  have hlive : ∀ p, announcement p ∈ log.published → p < s.objects :=
    fun p hp => h.web.lt_objects ⟨_, hp, rfl⟩
  refine ⟨⟨h.web.order.congr rfl rfl rfl, fun change hchange => ?_, h.web.first,
    fun k p hk => ?_, fun p hp => ?_⟩, fun c hc hsteady => ?_, fun cls p => ?_, fun cls p => ?_⟩
  · obtain ⟨p, hp, hlt, hid⟩ := h.web.published change hchange
    exact ⟨p, hp, Nat.lt_succ_of_lt hlt, by rwa [hobj p hlt]⟩
  · obtain ⟨hlt, hid⟩ := h.web.held k p hk
    exact ⟨Nat.lt_succ_of_lt hlt, by rwa [hobj p hlt]⟩
  · rcases List.mem_append.mp hp with hp | hp
    · exact Nat.lt_succ_of_lt (h.web.writers p hp)
    · rw [List.mem_singleton.mp hp]
      exact Nat.lt_succ_self _
  · exact h.tied.same_client h.web (fun p hp => by rw [hobj p (hlive p hp)]) List.prefix_rfl hc rfl
      rfl hsteady
  · change p ∈ (s.entrymap cls).entries ↔ _
    rw [h.classed.listed]
    refine and_congr_right fun hp => ?_
    rw [hobj p (hlive p hp.1)]
  · change (s.entrymap cls).entries.count p = _
    by_cases hp : p = s.objects
    · rw [hp]
      simp only [UnifiedChannel.addWriteToken, Function.update_self, List.count_nil]
      refine List.count_eq_zero_of_not_mem fun hmem => ?_
      exact absurd (hlive _ ((h.classed.listed cls _).mp hmem).1.1) (Nat.lt_irrefl _)
    · rw [h.classed.counted]
      simp only [UnifiedChannel.addWriteToken, Function.update_of_ne hp]

/-- A client may select any entry it is linked to, or none. -/
theorem Woven.select {f : UCClientHandle → Option ℕ} (h : Woven reg s log)
    (hf : ∀ c q, f c = some q → c.isLinked q = true) : Woven reg (s.select k f) log := by
  refine ⟨h.web.same ⟨rfl, fun _ => rfl, rfl, rfl⟩ (h.web.order.select k f) rfl,
    fun c hc hsteady => ?_, h.classed.same rfl rfl rfl⟩
  obtain ⟨c₀, hc₀, rfl⟩ := List.mem_map.mp hc
  split at hsteady
  · rename_i hk
    rw [if_pos hk]
    have hold := h.tied c₀ hc₀ hsteady
    exact ⟨hold.linked, fun q hq => hf c₀ q hq, hold.nodup⟩
  · rename_i hk
    rw [if_neg hk]
    exact h.tied c₀ hc₀ hsteady

theorem Woven.refreshThenSelect {f : UCClientHandle → Option ℕ} (h : Woven reg s log)
    (hf : ∀ c q, f c = some q → c.isLinked q = true)
    (hs : andThen (s.refreshAt reg k) (fun s₁ => .ok (s₁.select k f, [])) = .ok (s', out)) :
    Woven reg s' (log.append out) := by
  obtain ⟨s₁, o, o', href, hsel, rfl⟩ := andThen_eq_ok.mp hs
  cases hsel
  rw [List.append_nil]
  exact (h.refreshAt href).select hf

/-- A client that leaves takes its links with it. -/
theorem Woven.removeReadToken (h : Woven reg s log)
    (hs : s.removeReadToken reg k = .ok (s', out)) : Woven reg s' (log.append out) := by
  have horder : KeepsOrder log (s.removeReadToken reg k) := h.web.order.removeReadToken k
  rw [hs] at horder
  simp only [UnifiedChannel.removeReadToken] at hs
  obtain ⟨s₁, o, o', href, hrest, rfl⟩ := andThen_eq_ok.mp hs
  have h₁ := h.refreshAt href
  split at hrest
  · cases hrest
  split at hrest
  · cases hrest
    simp only [KeepsOrder, Log.append_append, Log.append_send] at horder
    rw [Log.append_append, Log.append_send]
    refine ⟨h₁.web.same ⟨rfl, fun _ => rfl, rfl, rfl⟩ horder rfl, fun c hc hsteady => ?_,
      fun cls p => ?_, fun cls p => ?_⟩
    · exact h₁.tied c (List.mem_of_mem_eraseP hc) hsteady
    · rw [modifyLink_entries fun l => l.erase k]
      exact h₁.classed.listed cls p
    · rw [modifyLink_entries fun l => l.erase k]
      exact h₁.classed.counted cls p
  · cases hrest

/-- The master's promise about an input. -/
def Promised (j : Journal) : Input → Prop
  | .updateConfiguration msg => msg.type = .newEntryConf → Echoes j.channel msg
  | _ => True

theorem Woven.updateConfiguration {msg : UChannelCommRequest} (h : Woven reg s log)
    (hecho : msg.type = .newEntryConf → Echoes s msg)
    (hs : s.updateConfiguration reg msg = .ok (s', out)) : Woven reg s' (log.append out) := by
  simp only [UnifiedChannel.updateConfiguration] at hs
  split at hs
  · split at hs
    · cases hs
      rw [Log.append_nil]
      exact h
    · cases hs
  · rename_i htype
    exact h.newEntryConf (hecho htype) hs
  · exact h.invalidateEntryCmd hs
  · exact h.cleanEntryCmd hs
  · exact h.deleteEntryCmd hs
  · cases hs
    rw [Log.append_nil]
    exact h
  · cases hs

/-- An input keeps the invariant. -/
theorem Woven.step {j j' : Journal} {i : Input} (h : Woven reg j.channel j.log)
    (hok : Promised j i) (hs : journalStep reg j i = .ok j') : Woven reg j'.channel j'.log := by
  simp only [journalStep] at hs
  split at hs
  · cases hs
  rename_i s' out hres
  cases hs
  cases i with
  | addReadToken spec => exact h.addReadToken hres
  | removeReadToken k => exact h.removeReadToken hres
  | refreshClientHandle k => exact h.refreshAt hres
  | selectFirstEntry k =>
    refine h.refreshThenSelect (fun c q hq => ?_) hres
    obtain ⟨l, hl, rfl⟩ := Option.map_eq_some_iff.mp hq
    exact isLinked_iff.mpr (List.mem_map.mpr ⟨l, List.mem_of_mem_head? hl, rfl⟩)
  | getNextEntry k =>
    refine h.refreshThenSelect (fun c q hq => ?_) hres
    obtain ⟨e, -, hq⟩ := Option.bind_eq_some_iff.mp hq
    obtain ⟨l, hl, rfl⟩ := Option.map_eq_some_iff.mp hq
    refine isLinked_iff.mpr (List.mem_map.mpr ⟨l, ?_, rfl⟩)
    exact (List.dropWhile_suffix _).subset (List.mem_of_mem_tail (List.mem_of_mem_head? hl))
  | addWriteToken spec =>
    cases hres
    simp only [Log.append_send]
    exact h.addWriteToken spec
  | removeWriteToken e =>
    cases hres
    simp only [Log.append_send]
    exact h
  | updateConfiguration msg => exact h.updateConfiguration hok hres
  | data e counts =>
    cases hres
    rw [Log.append_nil]
    have hobj : ∀ p, ((j.channel.modifyEntry e fun o => { o with data := counts }).obj p) =
        if p = e then { j.channel.obj p with data := counts } else j.channel.obj p := by
      intro p
      by_cases hp : p = e
      · subst hp
        simp [UnifiedChannel.modifyEntry]
      · simp [UnifiedChannel.modifyEntry, hp]
    refine h.touch ⟨rfl, fun p => ?_, rfl, rfl⟩ rfl rfl rfl rfl fun p => ?_
    · rw [hobj]
      split <;> rfl
    · rw [hobj]
      split <;> rfl

/-! ### Every run -/

theorem woven_create (reg : DataClassRegistry) (id : GlobalId) :
    Woven reg (.create id) {} := by
  refine ⟨⟨inOrder_create id, ?_, ?_, ?_, ?_⟩, ?_, ?_, ?_⟩ <;>
    simp [UnifiedChannel.create, UnifiedChannel.held, Tied, LiveIn]

/-- An entry is live while it is in the list of its data class: from its `NewEntryConf` to
its `InvalidateEntryCmd`. -/
def UnifiedChannel.IsLive (s : UnifiedChannel) (p : ℕ) : Prop :=
  p ∈ (s.entrymap (s.obj p).dataclassname).entries

/-- A class that can be read as some class can be read as itself. -/
theorem mem_lineage_self {cls tryclass : String} (h : reg.isCompatible tryclass cls = true) :
    cls ∈ reg.lineage cls := by
  by_cases hempty : cls = ""
  · subst hempty
    simp [DataClassRegistry.isCompatible, DataClassRegistry.lineage,
      DataClassRegistry.ancestry] at h
  · obtain ⟨rest, hrest⟩ := reg.lineage_eq_cons hempty
    rw [hrest]
    exact List.mem_cons_self

theorem Classed.isLive_iff (h : Classed reg s log) (spec : ReadSpec)
    (hclass : spec.classOk reg (s.obj p).facts = true) : s.IsLive p ↔ LiveIn log.published p := by
  rw [UnifiedChannel.IsLive, h.listed]
  exact and_iff_left (mem_lineage_self hclass)

/-- If the live entries were consistent for a token at all times since it was made, then
after every run and a refresh the token is linked to the live entries it wants: the order
in which the token and the entries came, and the selected entry, have no influence. -/
theorem linked_iff_wanted (reg : DataClassRegistry) (id : GlobalId) (inputs : List Input)
    (j : Journal) (hok : Allowed (journalStep reg) Promised ⟨.create id, {}⟩ inputs)
    (hrun : exec (journalStep reg) ⟨.create id, {}⟩ inputs = .ok j)
    (c : UCClientHandle) (hc : c ∈ j.channel.readingClients)
    (hsteady : SteadySince reg j.channel j.log c) (s' : UnifiedChannel) (out : List Effect)
    (href : j.channel.refreshAt reg c.handle = .ok (s', out)) :
    ∃ d, s'.client? c.handle = some d ∧ d.toReadSpec = c.toReadSpec ∧
      ∀ p, d.isLinked p = true ↔ s'.IsLive p ∧ c.wanted reg (s'.obj p).facts = true := by
  have hwoven : Woven reg j.channel j.log :=
    exec_invariant (I := fun j : Journal => Woven reg j.channel j.log)
      (fun _ _ _ h hok hs => h.step hok hs) (woven_create reg id) hok hrun
  have hwoven' := hwoven.refreshAt href
  obtain ⟨pend, spare, hj⟩ := hwoven.web.order
  rcases hj.refreshAt reg c.handle with ⟨s₁, out₁, hok₁, hj', hend, ⟨d₀, hd₀, hdk₀⟩, hclients⟩ |
    ⟨f, hf, -⟩
  · rw [href] at hok₁
    cases hok₁
    obtain ⟨d, hd⟩ : ∃ d, s'.client? c.handle = some d := by
      refine Option.isSome_iff_exists.mp (List.find?_isSome.mpr ⟨d₀, hd₀, ?_⟩)
      simpa using hdk₀
    have hmem : d ∈ s'.readingClients := List.mem_of_find?_eq_some hd
    have hdk : d.handle = c.handle := by simpa using List.find?_some hd
    obtain ⟨c₁, hc₁, hck, -, hspec, -⟩ :
        ∃ c₁ ∈ j.channel.readingClients, c₁.handle = c.handle ∧ d.handle = c.handle ∧
          d.toReadSpec = c₁.toReadSpec ∧ _ := by
      rcases hclients d hmem with ⟨-, hne⟩ | h
      · exact absurd hdk hne
      · exact h
    -- handles are given once
    obtain rfl : c₁ = c := List.inj_on_of_nodup_map hj.nodup hc₁ hc hck
    have hobj : s'.obj = j.channel.obj := by rw [(refreshAt_frame href).1]
    have hpub : (j.log.append out).published = j.log.published := refreshAt_published href
    have hsteady' : SteadySince reg s' (j.log.append out) d := by
      rw [SteadySince, hpub, hobj, hspec, hdk]
      exact hsteady
    -- the client has reached the last change
    have hreached : (j.log.append out).reached d = j.log.published := by
      have := (hj'.reached_append hmem).1
      rw [hend d hmem hdk, awaiting_latest hj'.tracked, List.append_nil] at this
      rw [this, hpub]
    have hlinked := hwoven'.tied d hmem hsteady'
    rw [hreached] at hlinked
    have hnow := hsteady' j.log.published (hpub ▸ List.prefix_rfl) (by
      rw [hdk]
      exact hj.since c₁ hc)
    refine ⟨d, hd, hspec, fun p => ?_⟩
    rw [hlinked.linked, ← hspec]
    constructor
    · rintro ⟨hlive, hpass⟩
      have hwanted := hnow.atCreation_eq_wanted hlive ▸ hpass
      refine ⟨(hwoven'.classed.isLive_iff d.toReadSpec ?_).mpr (hpub ▸ hlive), hwanted⟩
      simp only [ReadSpec.wanted, Bool.and_eq_true] at hwanted
      exact hwanted.1
    · rintro ⟨hlive, hwanted⟩
      have hlive' : LiveIn j.log.published p := by
        rw [← hpub, ← hwoven'.classed.isLive_iff d.toReadSpec]
        · exact hlive
        · simp only [ReadSpec.wanted, Bool.and_eq_true] at hwanted
          exact hwanted.1
      exact ⟨hlive', hnow.atCreation_eq_wanted hlive' ▸ hwanted⟩
  · rw [href] at hf
    cases hf

/-- A token for the entries labelled `L`. -/
def labelledToken : ReadSpec where
  dataclassname := "D"
  entrylabel := "L"
  requestedEntry := entryAny

/-- The announcement of a remote entry with a label. -/
def labelledEntry (h : ℕ) (label : String) : Input :=
  .updateConfiguration { type := .newEntryConf, data0 := h, data1 := 0x101 + 0x100 * h
                         origin := ⟨1, 1⟩, dataclassname := "D", entrylabel := label }

/-- With one entry that has the label the token asks for, announced after the token was
made. -/
theorem linked_labelled_entry :
    ∃ j c s' out, exec (journalStep flatRegistry) ⟨.create ⟨0, 1⟩, {}⟩
        [.addReadToken labelledToken, labelledEntry 0 "L"] = .ok j ∧
      c ∈ j.channel.readingClients ∧ c.toReadSpec = labelledToken ∧
      SteadySince flatRegistry j.channel j.log c ∧
      j.channel.refreshAt flatRegistry c.handle = .ok (s', out) ∧
      ∃ d, s'.client? c.handle = some d ∧ d.toReadSpec = c.toReadSpec ∧
        ∀ p, d.isLinked p = true ↔ s'.IsLive p ∧ c.wanted flatRegistry (s'.obj p).facts = true := by
  obtain ⟨j, hexec, htest⟩ := exists_of_endsIn (journalStep flatRegistry)
    ⟨.create ⟨0, 1⟩, {}⟩ [.addReadToken labelledToken, labelledEntry 0 "L"]
    (fun j => decide ((j.channel.client? 0).map (·.toReadSpec) = some labelledToken ∧
        j.log.published = [announcement 0] ∧ (j.channel.obj 0).facts = ⟨0, "D", "L", false⟩) &&
      match j.channel.refreshAt flatRegistry 0 with
        | .ok _ => true
        | .error _ => false)
    (by decide +kernel)
  rw [Bool.and_eq_true, decide_eq_true_eq] at htest
  obtain ⟨⟨hclient, hpub, hfacts⟩, href⟩ := htest
  obtain ⟨c, hc, hspec⟩ := Option.map_eq_some_iff.mp hclient
  have hmem : c ∈ j.channel.readingClients := List.mem_of_find?_eq_some hc
  have hck : c.handle = 0 := by simpa using List.find?_some hc
  -- the only entry that is ever live has the label
  have hlive : ∀ done, done <+: [announcement 0] → ∀ p, LiveIn done p → p = 0 := by
    intro done hdone p hp
    have := hdone.subset hp.1
    simpa [announcement] using this
  have hsteady : SteadySince flatRegistry j.channel j.log c := by
    intro done hdone _
    rw [hpub] at hdone
    rw [hspec]
    refine ⟨fun p hp => ?_, fun p q hp hq _ _ => ?_⟩
    · rw [hlive done hdone p hp, hfacts]
      decide
    · rw [hlive done hdone p hp, hlive done hdone q hq]
      simp
  split at href
  · rename_i x hx
    refine ⟨j, c, x.1, x.2, hexec, hmem, hspec, hsteady, by rw [hck, hx], ?_⟩
    refine linked_iff_wanted flatRegistry ⟨0, 1⟩ _ j ?_ hexec c hmem hsteady x.1 x.2
      (by rw [hck, hx])
    refine ⟨trivial, fun t ht => ⟨fun _ _ hloc => ?_, fun _ _ => trivial⟩⟩
    -- the entry is not one of this end
    have hid : t.channel.id.location = 0 := by
      have hstep : ∀ {t : Journal}, journalStep flatRegistry ⟨.create ⟨0, 1⟩, {}⟩
          (.addReadToken labelledToken) = .ok t → t.channel.id.location = 0 := by
        intro t ht
        cases ht
        rfl
      exact hstep ht
    rw [hid] at hloc
    exact absurd hloc (by decide)
  · cases href

/-- A token for label `L` made before the announcement of an entry with another label is
linked to that entry, and made after it, is not. -/
theorem linked_depends_on_order :
    ¬ ∀ (reg : DataClassRegistry) (id : GlobalId) (inputs inputs' : List Input) (j j' : Journal),
      exec (journalStep reg) ⟨.create id, {}⟩ inputs = .ok j →
      exec (journalStep reg) ⟨.create id, {}⟩ inputs' = .ok j' →
      inputs.Perm inputs' → j.channel.entrymap "D" = j'.channel.entrymap "D" →
      (∀ p ∈ (j.channel.entrymap "D").entries,
        (j.channel.obj p).facts = (j'.channel.obj p).facts) →
      (j.channel.client? 0).map (·.toReadSpec) = (j'.channel.client? 0).map (·.toReadSpec) →
      (j.channel.client? 0).map (·.configChange) = some j.channel.changes.latest →
      (j'.channel.client? 0).map (·.configChange) = some j'.channel.changes.latest →
      ∀ p, (j.channel.client? 0).map (·.isLinked p) = (j'.channel.client? 0).map (·.isLinked p) := by
  intro h
  obtain ⟨j, hexec, htest⟩ := exists_of_endsIn (journalStep flatRegistry)
    ⟨.create ⟨0, 1⟩, {}⟩
    [.addReadToken labelledToken, labelledEntry 0 "M", .refreshClientHandle 0]
    (fun j => decide (j.channel.entrymap "D" = ⟨[0], [0]⟩ ∧
      (j.channel.obj 0).facts = ⟨0, "D", "M", false⟩ ∧
      (j.channel.client? 0).map (·.toReadSpec) = some labelledToken ∧
      (j.channel.client? 0).map (·.configChange) = some j.channel.changes.latest ∧
      (j.channel.client? 0).map (·.isLinked 0) = some true))
    (by decide +kernel)
  obtain ⟨j', hexec', htest'⟩ := exists_of_endsIn (journalStep flatRegistry)
    ⟨.create ⟨0, 1⟩, {}⟩
    [labelledEntry 0 "M", .addReadToken labelledToken, .refreshClientHandle 0]
    (fun j => decide (j.channel.entrymap "D" = ⟨[0], [0]⟩ ∧
      (j.channel.obj 0).facts = ⟨0, "D", "M", false⟩ ∧
      (j.channel.client? 0).map (·.toReadSpec) = some labelledToken ∧
      (j.channel.client? 0).map (·.configChange) = some j.channel.changes.latest ∧
      (j.channel.client? 0).map (·.isLinked 0) = some false))
    (by decide +kernel)
  obtain ⟨hmap, hfacts, hspec, hcc, hlinked⟩ := of_decide_eq_true htest
  obtain ⟨hmap', hfacts', hspec', hcc', hlinked'⟩ := of_decide_eq_true htest'
  have := h flatRegistry ⟨0, 1⟩ _ _ j j' hexec hexec' (.swap _ _ _) (hmap.trans hmap'.symm)
    (by rw [hmap]; intro p hp; rw [List.mem_singleton.mp hp, hfacts, hfacts'])
    (hspec.trans hspec'.symm) hcc hcc' 0
  rw [hlinked, hlinked'] at this
  cases this

end Dueca.End
