import Dueca.Protocol.Model
import Dueca.End.Traffic

/-!
# The life of an entry id at an end

For each id an end is in one of a few phases, given by whether the master waits for the
id to be cleaned, the commands for it that are still to be processed, the confirmations
still to be served, the deletions that cleaning has not passed, and what the end's
history says. `Phase` lists them, and the lemmas below say how processing a command or a
call on a token moves an end from one phase to the next.
-/

namespace Dueca.Protocol

open Dueca.Lib Dueca.End

/-! ### What the history says -/

/-- How an event changes what is known of id `h`: nothing, or since its last
`InvalidateEntryCmd`, whether it was reported clean. -/
def trackLife (h : ℕ) (known : Option Bool) : Event → Option Bool
  | .received msg =>
    if msg.data0 = h ∧ msg.type = .invalidateEntryCmd then some false
    else if msg.data0 = h ∧ msg.type = .deleteEntryCmd then none
    else known
  | .sent msg =>
    if msg.data0 = h ∧ msg.type = .cleanEntryConf then known.map fun _ => true else known

/-- In its current life, whether the entry was invalidated and then reported clean. -/
def life (h : ℕ) (history : List Event) : Option Bool := history.foldl (trackLife h) none

theorem life_append (h : ℕ) (history new : List Event) :
    life h (history ++ new) = new.foldl (trackLife h) (life h history) :=
  List.foldl_append

/-- Requests that do not confirm id `h` say nothing about it. -/
theorem foldl_trackLife_sent {h : ℕ} (known : Option Bool) (msgs : List UChannelCommRequest)
    (hmsgs : ∀ msg ∈ msgs, ¬ (msg.data0 = h ∧ msg.type = .cleanEntryConf)) :
    (msgs.map Event.sent).foldl (trackLife h) known = known := by
  induction msgs with
  | nil => rfl
  | cons msg msgs ih =>
    rw [List.map_cons, List.foldl_cons]
    have hmsg : trackLife h known (.sent msg) = known := by
      rw [trackLife, if_neg (hmsgs msg List.mem_cons_self)]
    rw [hmsg]
    exact ih fun m hm => hmsgs m (List.mem_cons_of_mem _ hm)

/-! ### Phases -/

/-- The commands that invalidate and delete id `h`, in order. -/
def pending (h : ℕ) (inbox : List UChannelCommRequest) : List UChannelMessageType :=
  (inbox.filter fun msg => msg.data0 == h &&
    (msg.type == .invalidateEntryCmd || msg.type == .deleteEntryCmd)).map (·.type)

/-- The number of confirmations for id `h` that wait to be served. -/
def confirmations (h : ℕ) (outbox : List UChannelCommRequest) : ℕ :=
  outbox.countP fun msg => msg.data0 == h && msg.type == .cleanEntryConf

/-- The deletions of the entry held under id `h` that cleaning has not passed. -/
def outstanding (h : ℕ) (s : UnifiedChannel) (log : Log) : ℕ :=
  match s.held h with
  | none => 0
  | some e => log.published.count (deletion e) - log.passed.count (deletion e)

/-- The phases of an id at an end that has joined. The first argument says whether the
master waits for the id to be cleaned. -/
inductive Phase : Bool → List UChannelMessageType → ℕ → ℕ → Option Bool → Prop
  | idle : Phase false [] 0 0 none
  | waiting : Phase true [.invalidateEntryCmd] 0 0 none
  | dirty (n : ℕ) (hn : n ≤ 1) : Phase true [] 0 n (some false)
  | told : Phase true [] 1 0 (some true)
  | confirmed : Phase true [] 0 0 (some true)
  | leaving : Phase false [.deleteEntryCmd] 0 0 (some true)
  | again : Phase true [.deleteEntryCmd, .invalidateEntryCmd] 0 0 (some true)

/-- The phase of id `h` at an end. -/
def InPhase (cleaning : Bool) (h : ℕ) (p : Participant) : Prop :=
  Phase cleaning (pending h p.inbox) (confirmations h p.outbox) (outstanding h p.channel p.log)
    (life h p.history)

/-- The end has reported the id clean in its current life, and the master knows. -/
def isConfirmed (h : ℕ) (p : Participant) : Bool :=
  pending h p.inbox == [] && confirmations h p.outbox == 0 && life h p.history == some true

/-! ### The commands for an id, read in order -/

/-- Whether the entry is held after a command. -/
def heldAfter (h : ℕ) (held : Bool) (msg : UChannelCommRequest) : Bool :=
  if msg.data0 = h then
    match msg.type with
    | .newEntryConf => true
    | .deleteEntryCmd => false
    | _ => held
  else held

/-- Whether the entry is held after all commands. -/
def finalHeld (h : ℕ) (held : Bool) (msgs : List UChannelCommRequest) : Bool :=
  msgs.foldl (heldAfter h) held

/-- Commands about an entry that an end must hold. -/
def needsEntry (msg : UChannelCommRequest) : Bool :=
  msg.type == .invalidateEntryCmd || msg.type == .cleanEntryCmd || msg.type == .deleteEntryCmd

/-- Each command that needs the entry `h` comes while it is held. -/
def Legal (h : ℕ) : Bool → List UChannelCommRequest → Prop
  | _, [] => True
  | held, msg :: msgs =>
    (msg.data0 = h → needsEntry msg = true → held = true) ∧ Legal h (heldAfter h held msg) msgs

theorem legal_append {h : ℕ} {held : Bool} {msgs msgs' : List UChannelCommRequest} :
    Legal h held (msgs ++ msgs') ↔ Legal h held msgs ∧ Legal h (finalHeld h held msgs) msgs' := by
  induction msgs generalizing held with
  | nil => simp [Legal, finalHeld]
  | cons msg msgs ih =>
    rw [List.cons_append, Legal, Legal, ih, and_assoc]
    rfl

theorem finalHeld_append (h : ℕ) (held : Bool) (msgs msgs' : List UChannelCommRequest) :
    finalHeld h held (msgs ++ msgs') = finalHeld h (finalHeld h held msgs) msgs' :=
  List.foldl_append

/-! ### What processing a command does -/

variable {reg : DataClassRegistry} {s s' : UnifiedChannel} {out : List Effect}
  {msg : UChannelCommRequest}

/-- What an end does with a command. -/
inductive Processed (msg : UChannelCommRequest) (s s' : UnifiedChannel) (out : List Effect) : Prop
  | quiet (hconf : msg.type = .newEntryConf → (s.held msg.data0).isSome)
      (hneeds : needsEntry msg = false) (hq : Quiet s s' out)
  | hold (e : ℕ) (s₁ : UnifiedChannel) (htype : msg.type = .newEntryConf)
      (hfree : s.held msg.data0 = none) (hfor : s.entryFor msg = .ok (e, s₁))
      (hq : Quiet (s₁.store msg.data0 e) s' out)
  | invalidate (e : ℕ) (htype : msg.type = .invalidateEntryCmd) (hheld : s.held msg.data0 = some e)
      (hsame : SameEntries s s') (hmade : changesMade out = [deletion e])
      (hpassed : changesPassed out = []) (hsent : requestsSent out = [])
      (hwriters : s'.writingClients =
        if (s.obj e).isLocal then s.writingClients.erase e else s.writingClients)
  | clean (e : ℕ) (htype : msg.type = .cleanEntryCmd) (hheld : s.held msg.data0 = some e)
      (hwalk : CleanWalk msg e s s' out)
  | delete (htype : msg.type = .deleteEntryCmd) (hheld : (s.held msg.data0).isSome)
      (hout : out = []) (hs : s' = { s with entries := s.entries.set msg.data0 none })

theorem processed_of_ok (h : s.updateConfiguration reg msg = .ok (s', out)) :
    Processed msg s s' out := by
  simp only [UnifiedChannel.updateConfiguration] at h
  split at h
  · rename_i htype
    split at h
    · cases h
      exact .quiet (by simp [htype]) (by simp [needsEntry, htype]) (.refl _)
    · cases h
  · rename_i htype
    rcases newEntryConf_spec h with ⟨hheld, rfl, rfl⟩ | ⟨hfree, e, s₁, hfor, hq⟩
    · exact .quiet (fun _ => hheld) (by simp [needsEntry, htype]) (.refl _)
    · exact .hold e s₁ htype hfree hfor hq
  · rename_i htype
    obtain ⟨e, hheld, hsame, hmade, hpassed, hsent, hwriters⟩ := invalidateEntryCmd_spec h
    exact .invalidate e htype hheld hsame hmade hpassed hsent hwriters
  · rename_i htype
    obtain ⟨e, hheld, hwalk⟩ := cleanEntryCmd_spec h
    exact .clean e htype hheld hwalk
  · rename_i htype
    obtain ⟨hheld, hout, hs⟩ := deleteEntryCmd_spec h
    exact .delete htype hheld hout hs
  · rename_i htype
    cases h
    exact .quiet (by simp [htype]) (by simp [needsEntry, htype]) (.refl _)
  · cases h

/-- The ids held after a command. -/
theorem Processed.held (h : Processed msg s s' out) (h' : ℕ) :
    (s'.held h').isSome = heldAfter h' (s.held h').isSome msg := by
  cases h with
  | quiet hconf hneeds hq =>
    rw [hq.same.held, heldAfter]
    split
    · rename_i heq
      subst heq
      split
      · rename_i htype
        exact hconf htype
      · rename_i htype
        simp [needsEntry, htype] at hneeds
      · rfl
    · rfl
  | hold e s₁ htype hfree hfor hq =>
    have hs₁ : s₁.held = s.held := by
      rcases entryFor_cases hfor with ⟨-, -, rfl⟩ | ⟨-, o, rfl⟩ <;> rfl
    rw [hq.same.held, held_store, heldAfter, htype, hs₁]
    by_cases heq : h' = msg.data0
    · subst heq
      simp
    · rw [if_neg heq, if_neg (Ne.symm heq)]
  | invalidate e htype hheld hsame =>
    rw [hsame.held, heldAfter, htype]
    split <;> rfl
  | clean e htype hheld hwalk =>
    rw [hwalk.same.held, heldAfter, htype]
    split <;> rfl
  | delete htype hheld hout hs =>
    rw [hs, held_set_none, heldAfter, htype]
    by_cases heq : h' = msg.data0
    · subst heq
      simp
    · rw [if_neg heq, if_neg (Ne.symm heq)]

/-! ### The invariant of an end by itself -/

variable {log log' : Log}

/-- The entries held are different objects; those of writers are not deleted. -/
structure Sane (s : UnifiedChannel) (log : Log) : Prop where
  order : InOrder s log
  held : ∀ h e, s.held h = some e → e < s.objects
  inj : ∀ h h' e, s.held h = some e → s.held h' = some e → h = h'
  writers : ∀ e ∈ s.writingClients,
    e < s.objects ∧ (s.obj e).isLocal = true ∧ deletion e ∉ log.published
  nodup : s.writingClients.Nodup
  deleted : ∀ e, deletion e ∈ log.published → e < s.objects

theorem sane_create (id : GlobalId) : Sane (.create id) {} := by
  refine ⟨inOrder_create id, ?_, ?_, ?_, ?_, ?_⟩ <;>
    simp [UnifiedChannel.create, UnifiedChannel.held]

/-- The log notes what an operation publishes. -/
theorem mem_append_deletion {out : List Effect} (hmade : ∀ e, deletion e ∉ changesMade out)
    (hpub : log'.published = log.published ++ changesMade out) (e : ℕ) :
    deletion e ∈ log'.published ↔ deletion e ∈ log.published := by
  rw [hpub, List.mem_append, or_iff_left (hmade e)]

theorem Sane.quiet (h : Sane s log) (hq : Quiet s s' out) (horder : InOrder s' log')
    (hpub : log'.published = log.published ++ changesMade out) : Sane s' log' where
  order := horder
  held := by
    rw [hq.same.held, hq.same.objects]
    exact h.held
  inj := by
    rw [hq.same.held]
    exact h.inj
  writers e he := by
    rw [hq.writers] at he
    rw [hq.same.objects, (hq.same.names e).2, mem_append_deletion hq.made hpub]
    exact h.writers e he
  nodup := by
    rw [hq.writers]
    exact h.nodup
  deleted e he := by
    rw [hq.same.objects]
    exact h.deleted e ((mem_append_deletion hq.made hpub e).mp he)

/-- No deletion is published about the entry for a `NewEntryConf`. -/
theorem Sane.entryFor {e : ℕ} {s₁ : UnifiedChannel} (h : Sane s log)
    (hfor : s.entryFor msg = .ok (e, s₁)) : deletion e ∉ log.published := by
  rcases entryFor_cases hfor with ⟨he, -, -⟩ | ⟨rfl, -, -⟩
  · exact (h.writers e he).2.2
  · intro hmem
    exact absurd (h.deleted _ hmem) (Nat.lt_irrefl _)

/-- Holding the entry for a `NewEntryConf`, if no id has it. -/
theorem Sane.hold {e : ℕ} {s₁ : UnifiedChannel} (h : Sane s log)
    (hfor : s.entryFor msg = .ok (e, s₁)) (hnot : ∀ k, s.held k ≠ some e)
    (horder : InOrder (s₁.store msg.data0 e) log) : Sane (s₁.store msg.data0 e) log := by
  have hs₁ : s₁.held = s.held ∧ s.objects ≤ s₁.objects ∧ e < s₁.objects ∧
      s₁.writingClients = s.writingClients ∧ ∀ q, q < s.objects → s₁.obj q = s.obj q := by
    rcases entryFor_cases hfor with ⟨he, -, rfl⟩ | ⟨rfl, o, rfl⟩
    · exact ⟨rfl, Nat.le_refl _, (h.writers e he).1, rfl, fun _ _ => rfl⟩
    · exact ⟨rfl, Nat.le_succ _, Nat.lt_succ_self _, rfl,
        fun q hq => Function.update_of_ne (Nat.ne_of_lt hq) _ _⟩
  obtain ⟨hheld, hobj, hlt, hwr, hsame⟩ := hs₁
  refine ⟨horder, fun k q hk => ?_, fun k k' q hk hk' => ?_, fun q hq => ?_, ?_, fun q hq => ?_⟩
  · rw [held_store, hheld] at hk
    split at hk
    · rw [← Option.some.inj hk]
      exact hlt
    · exact Nat.lt_of_lt_of_le (h.held k q hk) hobj
  · rw [held_store, hheld] at hk hk'
    split at hk
    · rename_i hkeq
      split at hk'
      · rename_i hkeq'
        rw [hkeq, hkeq']
      · rw [← Option.some.inj hk] at hk'
        exact absurd hk' (hnot k')
    · split at hk'
      · rw [← Option.some.inj hk'] at hk
        exact absurd hk (hnot k)
      · exact h.inj k k' q hk hk'
  · have hq' : q ∈ s.writingClients := hwr ▸ hq
    obtain ⟨h₁, h₂, h₃⟩ := h.writers q hq'
    refine ⟨Nat.lt_of_lt_of_le h₁ hobj, ?_, h₃⟩
    change (s₁.obj q).isLocal = true
    rwa [hsame q h₁]
  · change s₁.writingClients.Nodup
    rw [hwr]
    exact h.nodup
  · exact Nat.lt_of_lt_of_le (h.deleted q hq) hobj

/-- Processing a command keeps an end sane, if the entry for a `NewEntryConf` is not held
under another id. -/
theorem Sane.processed (h : Sane s log) (hp : Processed msg s s' out)
    (hfresh : ∀ e s₁, msg.type = .newEntryConf → s.held msg.data0 = none →
      s.entryFor msg = .ok (e, s₁) → ∀ k, s.held k ≠ some e)
    (horder : InOrder s' log') (hpub : log'.published = log.published ++ changesMade out) :
    Sane s' log' := by
  cases hp with
  | quiet hconf hneeds hq => exact h.quiet hq horder hpub
  | hold e s₁ htype hfree hfor hq =>
    have hstore : InOrder (s₁.store msg.data0 e) log :=
      (entryFor_keeps h.order hfor).congr rfl rfl rfl
    exact (h.hold hfor (hfresh e s₁ htype hfree hfor) hstore).quiet hq horder hpub
  | invalidate e htype hheld hsame hmade hpassed hsent hwriters =>
    have hmem : ∀ q, deletion q ∈ log'.published ↔ deletion q ∈ log.published ∨ q = e := by
      intro q
      rw [hpub, hmade, List.mem_append, List.mem_singleton]
      exact or_congr Iff.rfl (by simp [deletion])
    have hsub : ∀ q ∈ s'.writingClients, q ∈ s.writingClients ∧ q ≠ e := by
      intro q hq
      rw [hwriters] at hq
      split at hq
      · exact ⟨List.mem_of_mem_erase hq, (List.Nodup.mem_erase_iff h.nodup).mp hq |>.1⟩
      · rename_i hlocal
        refine ⟨hq, ?_⟩
        rintro rfl
        exact hlocal (h.writers q hq).2.1
    refine ⟨horder, ?_, ?_, fun q hq => ?_, ?_, fun q hq => ?_⟩
    · rw [hsame.held, hsame.objects]
      exact h.held
    · rw [hsame.held]
      exact h.inj
    · obtain ⟨hq, hne⟩ := hsub q hq
      obtain ⟨h₁, h₂, h₃⟩ := h.writers q hq
      rw [hsame.objects, (hsame.names q).2, hmem]
      exact ⟨h₁, h₂, not_or.mpr ⟨h₃, hne⟩⟩
    · rw [hwriters]
      split
      · exact h.nodup.erase e
      · exact h.nodup
    · rw [hsame.objects]
      rcases (hmem q).mp hq with hq | rfl
      · exact h.deleted q hq
      · exact h.held _ _ hheld
  | clean e htype hheld hwalk =>
    rw [hwalk.made, List.append_nil] at hpub
    refine ⟨horder, ?_, ?_, fun q hq => ?_, ?_, ?_⟩
    · rw [hwalk.same.held, hwalk.same.objects]
      exact h.held
    · rw [hwalk.same.held]
      exact h.inj
    · rw [hwalk.writers] at hq
      rw [hwalk.same.objects, (hwalk.same.names q).2, hpub]
      exact h.writers q hq
    · rw [hwalk.writers]
      exact h.nodup
    · rw [hwalk.same.objects, hpub]
      exact h.deleted
  | delete htype hheld hout hs =>
    subst hs hout
    have hpub' : log'.published = log.published := hpub.trans (List.append_nil _)
    have hback : ∀ k q, ({ s with entries := s.entries.set msg.data0 none } :
        UnifiedChannel).held k = some q → s.held k = some q := by
      intro k q hk
      rw [held_set_none] at hk
      split at hk
      · cases hk
      · exact hk
    refine ⟨horder, fun k q hk => h.held k q (hback k q hk),
      fun k k' q hk hk' => h.inj k k' q (hback k q hk) (hback k' q hk'), fun q hq => ?_, h.nodup,
      fun q hq => h.deleted q (hpub' ▸ hq)⟩
    rw [hpub']
    exact h.writers q hq

/-- A new writer keeps an end sane. -/
theorem Sane.addWriteToken (h : Sane s log) (spec : WriteSpec)
    (horder : InOrder (s.addWriteToken spec).1 log) : Sane (s.addWriteToken spec).1 log := by
  refine ⟨horder, fun k q hk => Nat.lt_succ_of_lt (h.held k q hk), h.inj, fun q hq => ?_, ?_,
    fun q hq => Nat.lt_succ_of_lt (h.deleted q hq)⟩
  · rcases List.mem_append.mp hq with hq | hq
    · obtain ⟨h₁, h₂, h₃⟩ := h.writers q hq
      refine ⟨Nat.lt_succ_of_lt h₁, ?_, h₃⟩
      simp only [UnifiedChannel.addWriteToken, Function.update_of_ne (Nat.ne_of_lt h₁)]
      exact h₂
    · obtain rfl := List.mem_singleton.mp hq
      refine ⟨Nat.lt_succ_self _, ?_, fun hmem => absurd (h.deleted _ hmem) (Nat.lt_irrefl _)⟩
      simp only [UnifiedChannel.addWriteToken, Function.update_self]
  · refine List.nodup_append.mpr ⟨h.nodup, List.nodup_singleton _, fun q hq q' hq' => ?_⟩
    rw [List.mem_singleton.mp hq']
    exact Nat.ne_of_lt (h.writers q hq).1

/-! ### Outstanding deletions -/

/-- The counts of deletions after an operation. -/
theorem count_log {out : List Effect} (hpub : log'.published = log.published ++ changesMade out)
    (hpas : log'.passed = log.passed ++ changesPassed out) (e : ℕ) :
    log'.published.count (deletion e) =
        log.published.count (deletion e) + (changesMade out).count (deletion e) ∧
      log'.passed.count (deletion e) =
        log.passed.count (deletion e) + (changesPassed out).count (deletion e) := by
  rw [hpub, hpas, List.count_append, List.count_append]
  exact ⟨rfl, rfl⟩

theorem outstanding_quiet (hq : Quiet s s' out)
    (hpub : log'.published = log.published ++ changesMade out)
    (hpas : log'.passed = log.passed ++ changesPassed out) (h : ℕ) :
    outstanding h s' log' = outstanding h s log := by
  simp only [outstanding, hq.same.held]
  split
  · rfl
  · rename_i e _
    obtain ⟨h₁, h₂⟩ := count_log hpub hpas e
    rw [h₁, h₂, List.count_eq_zero_of_not_mem (hq.made e), hq.passed]
    rfl

/-- Cleaning has not passed more deletions than were published. -/
theorem Sane.passed_le (h : Sane s log) (e : ℕ) :
    log.passed.count (deletion e) ≤ log.published.count (deletion e) := by
  obtain ⟨pend, spare, hj⟩ := h.order
  have := hj.deletions (deletion e) rfl
  omega

theorem Sane.outstanding_hold {e : ℕ} {s₁ : UnifiedChannel} (h : Sane s log)
    (hfree : s.held msg.data0 = none) (hfor : s.entryFor msg = .ok (e, s₁)) (k : ℕ) :
    outstanding k (s₁.store msg.data0 e) log = outstanding k s log := by
  have hheld : s₁.held = s.held := by
    rcases entryFor_cases hfor with ⟨-, -, rfl⟩ | ⟨-, o, rfl⟩ <;> rfl
  simp only [outstanding, held_store, hheld]
  by_cases hk : k = msg.data0
  · subst hk
    rw [if_pos rfl, hfree]
    simp only [List.count_eq_zero_of_not_mem (h.entryFor hfor), Nat.zero_sub]
  · rw [if_neg hk]

/-- An `InvalidateEntryCmd` adds a deletion for its id. -/
theorem Sane.outstanding_invalidate {e : ℕ} (h : Sane s log) (hheld : s.held msg.data0 = some e)
    (hsame : SameEntries s s') (hpub : log'.published = log.published ++ [deletion e])
    (hpas : log'.passed = log.passed) (k : ℕ) :
    outstanding k s' log' = outstanding k s log + if k = msg.data0 then 1 else 0 := by
  simp only [outstanding, hsame.held, hpub, hpas]
  by_cases hk : k = msg.data0
  · subst hk
    have := h.passed_le e
    simp only [hheld, if_true, List.count_append, List.count_singleton_self]
    omega
  · rw [if_neg hk]
    split
    · rfl
    · rename_i q hq
      have hne : deletion e ≠ deletion q := by
        intro heq
        have : e = q := by simpa [deletion] using heq
        exact hk (h.inj k _ q hq (this ▸ hheld))
      rw [List.count_append, List.count_singleton]
      simp [hne]

/-- A `CleanEntryCmd` passes deletions, one of its entry for each confirmation. -/
theorem Sane.outstanding_clean {e : ℕ} (h' : Sane s' log') (hheld : s.held msg.data0 = some e)
    (hwalk : CleanWalk msg e s s' out)
    (hpub : log'.published = log.published ++ changesMade out)
    (hpas : log'.passed = log.passed ++ changesPassed out) (k : ℕ) :
    outstanding k s' log' + confirmations k (requestsSent out) ≤ outstanding k s log := by
  have hconf : confirmations k (requestsSent out) ≤
      if k = msg.data0 then (requestsSent out).length else 0 := by
    split
    · exact List.countP_le_length
    · rename_i hk
      refine Nat.le_of_eq (List.countP_eq_zero.mpr fun r hr => ?_)
      have := (hwalk.sent r hr).2
      simp only [Bool.and_eq_true, beq_iff_eq, not_and]
      intro heq
      exact absurd (heq.symm.trans this) hk
  simp only [outstanding, hwalk.same.held]
  by_cases hk : k = msg.data0
  · subst hk
    rw [if_pos rfl] at hconf
    obtain ⟨h₁, h₂⟩ := count_log hpub hpas e
    have hle := h'.passed_le e
    have hbound := hwalk.bound
    simp only [hheld]
    rw [hwalk.made, List.count_nil] at h₁
    omega
  · rw [if_neg hk] at hconf
    split
    · omega
    · rename_i q _
      obtain ⟨h₁, h₂⟩ := count_log hpub hpas q
      rw [hwalk.made, List.count_nil] at h₁
      omega

/-! ### From phase to phase -/

theorem confirmations_append (h : ℕ) (l l' : List UChannelCommRequest) :
    confirmations h (l ++ l') = confirmations h l + confirmations h l' :=
  List.countP_append

theorem confirmations_plain {l : List UChannelCommRequest} (hl : ∀ msg ∈ l, isPlain msg = true)
    (h : ℕ) : confirmations h l = 0 ∧
      ∀ msg ∈ l, ¬ (msg.data0 = h ∧ msg.type = .cleanEntryConf) := by
  have hnot : ∀ msg ∈ l, ¬ (msg.data0 = h ∧ msg.type = .cleanEntryConf) := by
    rintro msg hmsg ⟨-, htype⟩
    have := hl msg hmsg
    simp [isPlain, htype] at this
  refine ⟨List.countP_eq_zero.mpr fun msg hmsg => ?_, hnot⟩
  simpa using hnot msg hmsg

theorem pending_cons (h : ℕ) (msg : UChannelCommRequest) (rest : List UChannelCommRequest) :
    pending h (msg :: rest) =
      if msg.data0 = h ∧ (msg.type = .invalidateEntryCmd ∨ msg.type = .deleteEntryCmd)
      then msg.type :: pending h rest else pending h rest := by
  simp only [pending, List.filter_cons]
  by_cases hc : msg.data0 = h ∧ (msg.type = .invalidateEntryCmd ∨ msg.type = .deleteEntryCmd)
  · rw [if_pos hc, if_pos (by simpa using hc)]
    rfl
  · rw [if_neg hc, if_neg (by simpa using hc)]

/-- Confirmations make the id reported, if it was invalidated. -/
theorem foldl_trackLife_confirm {h : ℕ} (known : Option Bool) (msgs : List UChannelCommRequest)
    (hpos : 0 < confirmations h msgs) :
    (msgs.map Event.sent).foldl (trackLife h) known = known.map fun _ => true := by
  have htrue : ∀ msgs : List UChannelCommRequest,
      (msgs.map Event.sent).foldl (trackLife h) (known.map fun _ => true) =
        known.map fun _ => true := by
    intro msgs
    induction msgs with
    | nil => rfl
    | cons msg msgs ih =>
      rw [List.map_cons, List.foldl_cons, trackLife]
      split
      · rw [Option.map_map]
        exact ih
      · exact ih
  induction msgs with
  | nil => simp [confirmations] at hpos
  | cons msg msgs ih =>
    rw [List.map_cons, List.foldl_cons, trackLife]
    split
    · exact htrue msgs
    · rename_i hnot
      apply ih
      rw [confirmations, List.countP_cons_of_neg (by simpa using hnot)] at hpos
      exact hpos

variable {p p' : Participant} {c : Bool} {h : ℕ}

/-- An end processes the next command. -/
theorem receive_cases (hr : p.receive reg = .ok p') : p' = p ∨
    ∃ msg rest s' out, p.inbox = msg :: rest ∧
      p.channel.updateConfiguration reg msg = .ok (s', out) ∧
      p' = { p with
        channel := s'
        log := p.log.append out
        outbox := p.outbox ++ requestsSent out
        inbox := rest
        history := p.history ++ [.received msg] ++ (requestsSent out).map .sent } := by
  simp only [Participant.receive] at hr
  split at hr
  · cases hr
    exact .inl rfl
  · rename_i msg rest hinbox
    right
    simp only [Participant.respond, End.respond] at hr
    split at hr
    · cases hr
    · rename_i s' out hs
      cases hr
      exact ⟨msg, rest, s', out, hinbox, hs, rfl⟩

/-- A command that neither invalidates nor deletes id `h`, and its answer, if there is no
confirmation in it. -/
theorem InPhase.keep {rest : List UChannelCommRequest} (hp : InPhase c h p)
    (hinbox : p.inbox = msg :: rest)
    (hother : ¬ (msg.data0 = h ∧ (msg.type = .invalidateEntryCmd ∨ msg.type = .deleteEntryCmd)))
    (hsent : ∀ r ∈ requestsSent out, ¬ (r.data0 = h ∧ r.type = .cleanEntryConf))
    (hout : outstanding h s' (p.log.append out) = outstanding h p.channel p.log) :
    InPhase c h { p with
      channel := s'
      log := p.log.append out
      outbox := p.outbox ++ requestsSent out
      inbox := rest
      history := p.history ++ [.received msg] ++ (requestsSent out).map .sent } := by
  have hconf : confirmations h (requestsSent out) = 0 := by
    refine List.countP_eq_zero.mpr fun r hr => ?_
    simpa using hsent r hr
  have hlife : trackLife h (life h p.history) (.received msg) = life h p.history := by
    rw [trackLife, if_neg fun hc => hother ⟨hc.1, .inl hc.2⟩,
      if_neg fun hc => hother ⟨hc.1, .inr hc.2⟩]
  simp only [InPhase, hinbox, pending_cons, if_neg hother] at hp
  simp only [InPhase, confirmations_append, hconf, Nat.add_zero, hout, life_append,
    List.foldl_cons, List.foldl_nil, hlife, foldl_trackLife_sent _ _ hsent]
  exact hp

/-- The phase of an id after a command. -/
theorem InPhase.receive (hsane : Sane p.channel p.log) (hp : InPhase c h p)
    (hr : p.receive reg = .ok p') (hsane' : Sane p'.channel p'.log) : InPhase c h p' := by
  rcases receive_cases hr with rfl | ⟨msg, rest, s', out, hinbox, hs, rfl⟩
  · exact hp
  dsimp only at hsane'
  cases processed_of_ok hs with
  | quiet hconf hneeds hq =>
    refine hp.keep hinbox ?_ (confirmations_plain hq.sent h).2 (outstanding_quiet hq rfl rfl h)
    rintro ⟨-, htype | htype⟩ <;> simp [needsEntry, htype] at hneeds
  | hold e s₁ htype hfree hfor hq =>
    refine hp.keep hinbox ?_ (confirmations_plain hq.sent h).2 ?_
    · rintro ⟨-, htype' | htype'⟩ <;> rw [htype] at htype' <;> cases htype'
    · rw [outstanding_quiet hq rfl rfl h, hsane.outstanding_hold hfree hfor]
  | invalidate e htype hheld hsame hmade hpassed hsent hwriters =>
    have hout := hsane.outstanding_invalidate hheld hsame
      (show (p.log.append out).published = _ by rw [← hmade]; rfl)
      (by simp only [Log.append, hpassed, List.append_nil]) h
    by_cases hh : msg.data0 = h
    · -- the id was waiting for this command
      subst hh
      simp only [InPhase, hinbox, pending_cons, htype, true_or, and_true, if_true] at hp
      simp only [InPhase, hsent, List.append_nil, hout, if_true, life_append, List.foldl_cons,
        List.foldl_nil, List.map_nil, trackLife, htype, and_true]
      generalize pending msg.data0 rest = l at hp ⊢
      generalize confirmations msg.data0 p.outbox = n at hp ⊢
      generalize outstanding msg.data0 p.channel p.log = o at hp ⊢
      generalize life msg.data0 p.history = k at hp
      cases hp
      exact .dirty 1 (Nat.le_refl 1)
    · rw [if_neg (Ne.symm hh), Nat.add_zero] at hout
      refine hp.keep hinbox (fun hc => hh hc.1) ?_ hout
      rw [hsent]
      simp
  | clean e htype hheld hwalk =>
    have hout := hsane'.outstanding_clean hheld hwalk rfl rfl h
    have hother : ¬ (msg.data0 = h ∧
        (msg.type = .invalidateEntryCmd ∨ msg.type = .deleteEntryCmd)) := by
      rintro ⟨-, htype' | htype'⟩ <;> rw [htype] at htype' <;> cases htype'
    have hlife : trackLife h (life h p.history) (.received msg) = life h p.history := by
      rw [trackLife, if_neg fun hc => hother ⟨hc.1, .inl hc.2⟩,
        if_neg fun hc => hother ⟨hc.1, .inr hc.2⟩]
    simp only [InPhase, hinbox, pending_cons, if_neg hother] at hp
    simp only [InPhase, confirmations_append, life_append, List.foldl_cons, List.foldl_nil, hlife]
    -- a confirmation takes an outstanding deletion, and there is one at most
    have hsent : confirmations h (requestsSent out) = 0 →
        ((requestsSent out).map Event.sent).foldl (trackLife h) (life h p.history) =
          life h p.history := by
      intro hzero
      refine foldl_trackLife_sent _ _ fun r hr => ?_
      simpa using List.countP_eq_zero.mp hzero r hr
    have hconf := foldl_trackLife_confirm (h := h) (life h p.history) (requestsSent out)
    generalize ((requestsSent out).map Event.sent).foldl (trackLife h) (life h p.history) = k'
      at hsent hconf ⊢
    generalize confirmations h (requestsSent out) = n at hout hsent hconf ⊢
    generalize outstanding h s' (p.log.append out) = o' at hout ⊢
    generalize outstanding h p.channel p.log = o at hout hp
    generalize pending h rest = l at hp ⊢
    generalize confirmations h p.outbox = m at hp ⊢
    generalize life h p.history = k at hp hsent hconf
    cases hp with
    | dirty n' hn' =>
      rcases Nat.eq_zero_or_pos n with rfl | hpos
      · rw [hsent rfl]
        exact .dirty o' (by omega)
      · obtain ⟨rfl, rfl⟩ : n = 1 ∧ o' = 0 := by omega
        rw [hconf Nat.one_pos]
        exact .told
    | idle =>
      obtain ⟨rfl, rfl⟩ : n = 0 ∧ o' = 0 := by omega
      rw [hsent rfl]
      exact .idle
    | waiting =>
      obtain ⟨rfl, rfl⟩ : n = 0 ∧ o' = 0 := by omega
      rw [hsent rfl]
      exact .waiting
    | told =>
      obtain ⟨rfl, rfl⟩ : n = 0 ∧ o' = 0 := by omega
      rw [hsent rfl]
      exact .told
    | confirmed =>
      obtain ⟨rfl, rfl⟩ : n = 0 ∧ o' = 0 := by omega
      rw [hsent rfl]
      exact .confirmed
    | leaving =>
      obtain ⟨rfl, rfl⟩ : n = 0 ∧ o' = 0 := by omega
      rw [hsent rfl]
      exact .leaving
    | again =>
      obtain ⟨rfl, rfl⟩ : n = 0 ∧ o' = 0 := by omega
      rw [hsent rfl]
      exact .again
  | delete htype hheld hout hs' =>
    subst hs' hout
    by_cases hh : msg.data0 = h
    · -- the id was reported clean
      subst hh
      have hzero : outstanding msg.data0
          { p.channel with entries := p.channel.entries.set msg.data0 none } (p.log.append []) =
            0 := by
        simp only [outstanding, held_set_none, if_true]
      have hnil : requestsSent ([] : List Effect) = [] := rfl
      have hlife : trackLife msg.data0 (life msg.data0 p.history) (.received msg) = none := by
        rw [trackLife, if_neg (by simp [htype]), if_pos ⟨rfl, htype⟩]
      simp only [InPhase, hinbox, pending_cons, htype, or_true, and_true, if_true] at hp
      simp only [InPhase, hnil, List.append_nil, hzero, life_append, List.foldl_cons,
        List.foldl_nil, List.map_nil, hlife]
      generalize pending msg.data0 rest = l at hp ⊢
      generalize confirmations msg.data0 p.outbox = n at hp ⊢
      generalize outstanding msg.data0 p.channel p.log = o at hp
      generalize life msg.data0 p.history = k at hp
      cases hp with
      | leaving => exact .idle
      | again => exact .waiting
    · refine hp.keep hinbox (fun hc => hh hc.1) (by simp [requestsSent]) ?_
      simp only [outstanding, held_set_none, if_neg (Ne.symm hh), Log.append_nil]

/-- An end serves a call on a token. -/
theorem respond_cases {i : Input} (hr : p.respond reg i = .ok p') :
    ∃ s' out, End.respond reg p.channel i = .ok (s', out) ∧
      p' = { p with
        channel := s'
        log := (p.log.atInput p.channel i).append out
        outbox := p.outbox ++ requestsSent out
        history := p.history ++ (requestsSent out).map .sent } := by
  simp only [Participant.respond] at hr
  split at hr
  · cases hr
  · rename_i s' out hs
    cases hr
    exact ⟨s', out, hs, rfl⟩

theorem atInput_published (log : Log) (s : UnifiedChannel) (i : Input) (out : List Effect) :
    ((log.atInput s i).append out).published = log.published ++ changesMade out ∧
      ((log.atInput s i).append out).passed = log.passed ++ changesPassed out := by
  cases i <;> exact ⟨rfl, rfl⟩

/-- Serving an input keeps the change list in order. -/
theorem inOrder_respond {i : Input} {s' : UnifiedChannel} {out : List Effect}
    (h : InOrder s log) (hs : End.respond reg s i = .ok (s', out)) :
    InOrder s' ((log.atInput s i).append out) := by
  have hstep := InOrder.step (j := ⟨s, log⟩) reg h i
  rw [journalStep, hs] at hstep
  exact hstep

/-- A call on a token does not concern any id. -/
theorem InPhase.act {i : Input} (hp : InPhase c h p) (hconf : ∀ msg, i ≠ .updateConfiguration msg)
    (hr : p.respond reg i = .ok p') : InPhase c h p' := by
  obtain ⟨s', out, hs, rfl⟩ := respond_cases hr
  have hcalm : (∀ r ∈ requestsSent out, ¬ (r.data0 = h ∧ r.type = .cleanEntryConf)) ∧
      outstanding h s' ((p.log.atInput p.channel i).append out) =
        outstanding h p.channel p.log := by
    by_cases hwrite : ∃ spec, i = .addWriteToken spec
    · obtain ⟨spec, rfl⟩ := hwrite
      cases hs
      refine ⟨fun r hr => ?_, ?_⟩
      · obtain rfl : r = _ := List.mem_singleton.mp hr
        simp
      · simp only [Log.atInput, Log.append_send]
        rfl
    · have hq := respond_quiet hs hconf fun spec hspec => hwrite ⟨spec, hspec⟩
      obtain ⟨hpub, hpas⟩ := atInput_published p.log p.channel i out
      exact ⟨(confirmations_plain hq.sent h).2, outstanding_quiet hq hpub hpas h⟩
  have hzero : confirmations h (requestsSent out) = 0 := by
    refine List.countP_eq_zero.mpr fun r hr => ?_
    simpa using hcalm.1 r hr
  simp only [InPhase, confirmations_append, hzero, Nat.add_zero, hcalm.2, life_append,
    foldl_trackLife_sent _ _ hcalm.1]
  exact hp

/-- A call on a token keeps an end sane. -/
theorem Sane.act {i : Input} (hsane : Sane p.channel p.log)
    (hconf : ∀ msg, i ≠ .updateConfiguration msg) (hr : p.respond reg i = .ok p') :
    Sane p'.channel p'.log := by
  obtain ⟨s', out, hs, rfl⟩ := respond_cases hr
  have horder := inOrder_respond hsane.order hs
  by_cases hwrite : ∃ spec, i = .addWriteToken spec
  · obtain ⟨spec, rfl⟩ := hwrite
    cases hs
    simp only [Log.atInput, Log.append_send] at horder ⊢
    exact hsane.addWriteToken spec horder
  · exact hsane.quiet (respond_quiet hs hconf fun spec hspec => hwrite ⟨spec, hspec⟩) horder
      (atInput_published p.log p.channel i out).1

/-- A command keeps an end sane, if the entry for a `NewEntryConf` is not held. -/
theorem Sane.receive (hsane : Sane p.channel p.log) (hr : p.receive reg = .ok p')
    (hfresh : ∀ msg ∈ p.inbox.head?, ∀ e s₁, msg.type = .newEntryConf →
      p.channel.held msg.data0 = none → p.channel.entryFor msg = .ok (e, s₁) →
        ∀ k, p.channel.held k ≠ some e) : Sane p'.channel p'.log := by
  rcases receive_cases hr with rfl | ⟨msg, rest, s', out, hinbox, hs, rfl⟩
  · exact hsane
  have horder : InOrder s' (p.log.append out) :=
    inOrder_respond (i := .updateConfiguration msg) hsane.order hs
  exact hsane.processed (processed_of_ok hs) (hfresh msg (by rw [hinbox]; rfl)) horder rfl

/-- The ids an end will hold are those it would have held, and the rest of its commands
stay legal. -/
theorem Legal.receive (hr : p.receive reg = .ok p')
    (hl : Legal h (p.channel.held h).isSome p.inbox) :
    Legal h (p'.channel.held h).isSome p'.inbox ∧
      finalHeld h (p'.channel.held h).isSome p'.inbox =
        finalHeld h (p.channel.held h).isSome p.inbox := by
  rcases receive_cases hr with rfl | ⟨msg, rest, s', out, hinbox, hs, rfl⟩
  · exact ⟨hl, rfl⟩
  rw [hinbox] at hl ⊢
  dsimp only
  rw [(processed_of_ok hs).held h]
  exact ⟨hl.2, rfl⟩

/-- A call on a token leaves the ids that are held, and the queue of commands. -/
theorem held_act {i : Input} (hconf : ∀ msg, i ≠ .updateConfiguration msg)
    (hr : p.respond reg i = .ok p') : p'.channel.held = p.channel.held ∧ p'.inbox = p.inbox := by
  obtain ⟨s', out, hs, rfl⟩ := respond_cases hr
  refine ⟨?_, rfl⟩
  by_cases hwrite : ∃ spec, i = .addWriteToken spec
  · obtain ⟨spec, rfl⟩ := hwrite
    cases hs
    rfl
  · exact (respond_quiet hs hconf fun spec hspec => hwrite ⟨spec, hspec⟩).same.held

/-- An end confirms an id only for an outstanding deletion. -/
theorem Processed.confirmations_le (hproc : Processed msg s s' out) (h' : Sane s' (log.append out))
    (k : ℕ) : confirmations k (requestsSent out) ≤ outstanding k s log := by
  cases hproc with
  | quiet hconf hneeds hq =>
    rw [(confirmations_plain hq.sent k).1]
    exact Nat.zero_le _
  | hold e s₁ htype hfree hfor hq =>
    rw [(confirmations_plain hq.sent k).1]
    exact Nat.zero_le _
  | invalidate e htype hheld hsame hmade hpassed hsent hwriters =>
    rw [hsent]
    exact Nat.zero_le _
  | clean e htype hheld hwalk =>
    exact Nat.le_of_add_left_le (h'.outstanding_clean hheld hwalk rfl rfl k)
  | delete htype hheld hout hs =>
    rw [hout]
    exact Nat.zero_le _

theorem isConfirmed_iff : isConfirmed h p = true ↔
    pending h p.inbox = [] ∧ confirmations h p.outbox = 0 ∧ life h p.history = some true := by
  simp [isConfirmed, and_assoc]

/-- What an end writes keeps an id reported. -/
theorem foldl_trackLife_reported (h : ℕ) (msgs : List UChannelCommRequest) :
    (msgs.map Event.sent).foldl (trackLife h) (some true) = some true := by
  by_cases hpos : 0 < confirmations h msgs
  · rw [foldl_trackLife_confirm _ _ hpos]
    rfl
  · refine foldl_trackLife_sent _ _ fun r hr => ?_
    have := List.countP_eq_zero.mp (Nat.eq_zero_of_not_pos hpos) r hr
    simpa using this

/-- A confirmed id stays confirmed when the end processes a command. -/
theorem InPhase.confirmed_receive (hp : InPhase c h p) (hr : p.receive reg = .ok p')
    (hsane' : Sane p'.channel p'.log) (hc : isConfirmed h p = true) : isConfirmed h p' = true := by
  rcases receive_cases hr with rfl | ⟨msg, rest, s', out, hinbox, hs, rfl⟩
  · exact hc
  rw [isConfirmed_iff] at hc ⊢
  obtain ⟨hpend, hconf, hlife⟩ := hc
  have hzero : outstanding h p.channel p.log = 0 := by
    rw [InPhase, hpend, hconf, hlife] at hp
    generalize outstanding h p.channel p.log = o at hp
    cases hp
    rfl
  have hle := (processed_of_ok hs).confirmations_le hsane' h
  rw [hinbox, pending_cons] at hpend
  split at hpend
  · cases hpend
  · rename_i hother
    have hkeep : trackLife h (some true) (.received msg) = some true := by
      rw [trackLife, if_neg fun hc => hother ⟨hc.1, .inl hc.2⟩,
        if_neg fun hc => hother ⟨hc.1, .inr hc.2⟩]
    refine ⟨hpend, ?_, ?_⟩
    · rw [confirmations_append, hconf]
      omega
    · rw [life_append, life_append, hlife, List.foldl_cons, hkeep, List.foldl_nil,
        foldl_trackLife_reported]

/-- A confirmed id stays confirmed when the end serves a call. -/
theorem confirmed_act {i : Input} (hconf : ∀ msg, i ≠ .updateConfiguration msg)
    (hr : p.respond reg i = .ok p') (hc : isConfirmed h p = true) : isConfirmed h p' = true := by
  obtain ⟨s', out, hs, rfl⟩ := respond_cases hr
  rw [isConfirmed_iff] at hc ⊢
  obtain ⟨hpend, hzero, hlife⟩ := hc
  refine ⟨hpend, ?_, ?_⟩
  · rw [confirmations_append, hzero, Nat.zero_add]
    by_cases hwrite : ∃ spec, i = .addWriteToken spec
    · obtain ⟨spec, rfl⟩ := hwrite
      cases hs
      simp [confirmations, requestsSent]
    · exact (confirmations_plain
        (respond_quiet hs hconf fun spec hspec => hwrite ⟨spec, hspec⟩).sent h).1
  · rw [life_append, hlife, foldl_trackLife_reported]

end Dueca.Protocol
