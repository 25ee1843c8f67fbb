import Dueca.Dusime.Model

/-!
# Agreement on the simulation state

The commands to change state have increasing times. A module makes each of them at its first
check from that time on, and once all are made and the transitions are complete it is in the
state that the controller commanded.

The controller decides from a confirmed state that may be older than what it commanded, and a
request for the commanded state goes out as that state, without a transition. Hardware modules
refuse a change that is not consistent with the state they are in. `Agrees` says for which
requests this does not happen.
-/

namespace Dueca.Dusime

open Dueca.Lib SimulationState

/-! ### Times -/

theorem roundUpwards_spec (tgt : ℕ) {period : ℕ} (htgt : 0 < tgt) (hperiod : 0 < period)
    (hwrap : tgt + period < 2 ^ 32) :
    period ∣ roundUpwards tgt period ∧ tgt ≤ roundUpwards tgt period ∧
      roundUpwards tgt period < tgt + period := by
  have hsub : (tgt + 2 ^ 32 - 1) % 2 ^ 32 = tgt - 1 := by omega
  have hdiv := Nat.div_add_mod (tgt - 1) period
  have hmod := Nat.mod_lt (tgt - 1) hperiod
  have hmul : ((tgt - 1) / period + 1) * period = period * ((tgt - 1) / period) + period := by
    rw [Nat.succ_mul, Nat.mul_comm]
  have hround : roundUpwards tgt period = ((tgt - 1) / period + 1) * period := by
    rw [roundUpwards, hsub, Nat.mod_eq_of_lt (by omega)]
  rw [hround]
  exact ⟨Nat.dvd_mul_left _ _, by omega, by omega⟩

/-- The times for a request do not reach the end of the numbers of 32 bits. -/
structure NoWrap (settings : Settings) (now reqTime : ℕ) : Prop where
  reqTime_pos : 0 < reqTime
  reqTime_lt : reqTime + settings.minInterval < 2 ^ 32
  now_lt : now + settings.minNotification + settings.minInterval < 2 ^ 32

instance (settings : Settings) (now reqTime : ℕ) : Decidable (NoWrap settings now reqTime) :=
  decidable_of_iff (0 < reqTime ∧ reqTime + settings.minInterval < 2 ^ 32 ∧
      now + settings.minNotification + settings.minInterval < 2 ^ 32)
    ⟨fun ⟨h₁, h₂, h₃⟩ => ⟨h₁, h₂, h₃⟩, fun h => ⟨h.reqTime_pos, h.reqTime_lt, h.now_lt⟩⟩

/-- A request that `controlModel` grants. -/
def Granted (c : DusimeController) (modulesOn : Bool) (reqState : SimulationState)
    (reqTime : ℕ) : Prop :=
  c.earliestChange ≤ reqTime ∧ modulesOn = true ∧ c.newState reqState ≠ .undefined

instance (c : DusimeController) (on : Bool) (reqState : SimulationState) (reqTime : ℕ) :
    Decidable (Granted c on reqState reqTime) :=
  inferInstanceAs (Decidable (_ ∧ _))

section Control

variable {settings : Settings} {now reqTime : ℕ} {on : Bool} {c : DusimeController}
  {reqState : SimulationState}

/-- A request that is refused sends nothing, and changes nothing. -/
theorem controlModel_refused (h : ¬ Granted c on reqState reqTime) :
    c.controlModel settings now on reqState reqTime = (false, c, []) := by
  unfold DusimeController.controlModel
  by_cases hearly : reqTime < c.earliestChange
  · rw [if_pos hearly]
  · rw [if_neg hearly]
    by_cases hon : on = true
    · rw [if_neg (not_not.mpr hon), if_pos]
      by_contra hnew
      exact h ⟨Nat.not_lt.mp hearly, hon, hnew⟩
    · rw [if_pos hon]

/-- The command for a request that is granted. -/
theorem controlModel_granted (h : Granted c on reqState reqTime)
    (hinterval : 0 < settings.minInterval) (hwrap : NoWrap settings now reqTime) :
    ∃ time, settings.minInterval ∣ time ∧ c.earliestChange ≤ time ∧
      now + settings.minNotification ≤ time ∧
      c.controlModel settings now on reqState reqTime =
        (true,
          { c with
            commandedState := (c.newState reqState).transitionFinal
            confirmDivisor := 1
            earliestChange := time + 1
            stateHasChanged := true },
          [⟨now, time, .newState (c.newState reqState)⟩]) := by
  obtain ⟨hearly, hon, hnew⟩ := h
  obtain ⟨hpos, hreq, hnow⟩ := hwrap
  obtain ⟨hdvd, hle, hlt⟩ := roundUpwards_spec reqTime hpos hinterval hreq
  have hmod : (now + settings.minNotification) % 2 ^ 32 = now + settings.minNotification :=
    Nat.mod_eq_of_lt (by omega)
  have hcontrol (time : ℕ) (htime : time = if now + settings.minNotification >
        roundUpwards reqTime settings.minInterval
      then roundUpwards (now + settings.minNotification) settings.minInterval
      else roundUpwards reqTime settings.minInterval) (hsmall : time + 1 < 2 ^ 32) :
      c.controlModel settings now on reqState reqTime =
        (true,
          { c with
            commandedState := (c.newState reqState).transitionFinal
            confirmDivisor := 1
            earliestChange := time + 1
            stateHasChanged := true },
          [⟨now, time, .newState (c.newState reqState)⟩]) := by
    unfold DusimeController.controlModel
    rw [if_neg (Nat.not_lt.mpr hearly), if_neg (not_not.mpr hon), if_neg hnew]
    simp only [hmod, ← htime, Nat.mod_eq_of_lt hsmall]
  by_cases hlead : now + settings.minNotification > roundUpwards reqTime settings.minInterval
  · obtain ⟨hdvd', hle', hlt'⟩ :=
      roundUpwards_spec (now + settings.minNotification) (by omega) hinterval hnow
    exact ⟨_, hdvd', by omega, hle', hcontrol _ (if_pos hlead).symm (by omega)⟩
  · exact ⟨_, hdvd, Nat.le_trans hearly hle, Nat.not_lt.mp hlead,
      hcontrol _ (if_neg hlead).symm (by omega)⟩

end Control

/-! ### States -/

/-- The requests for which hardware modules that end up in the commanded state accept the new
state. A request for the commanded state is one only in replay. -/
def Agrees (commandedState confirmedState : SimulationState) : SimulationState → Prop
  | .advance | .replay | .inactive => commandedState = .holdCurrent ∨ commandedState = .replay
  | .calibrateHoldCurrent => commandedState = .holdCurrent
  | .holdCurrent => commandedState = confirmedState ∧ commandedState ≠ .holdCurrent
  | _ => False

instance (s o r : SimulationState) : Decidable (Agrees s o r) := by
  unfold Agrees
  split <;> infer_instance

/-- A state at the end of a transition, other than `neutral` and `undefined`. -/
def IsFinal (s : SimulationState) : Prop :=
  s = .holdCurrent ∨ s = .advance ∨ s = .replay ∨ s = .inactive

/-- The requests that agree are the ones for which the new state is accepted. -/
theorem agrees_iff {c : DusimeController} {reqState : SimulationState}
    (hfinal : IsFinal c.commandedState) (hnew : c.newState reqState ≠ .undefined) :
    Agrees c.commandedState c.confirmedState reqState ↔
      HardwareModule.consistent c.commandedState (c.newState reqState) = true := by
  unfold DusimeController.newState at hnew ⊢
  unfold IsFinal at hfinal
  generalize c.commandedState = s at *
  generalize c.confirmedState = o at *
  cases reqState <;> simp only [stateFor, Agrees] at hnew ⊢ <;>
    obtain rfl | rfl | rfl | rfl := hfinal <;>
    simp [HardwareModule.consistent] at hnew ⊢ <;> grind [HardwareModule.consistent]

/-! ### Commands -/

/-- The changes of state in a list of commands. -/
def newStates (cs : List Sent) : List StateChange :=
  cs.filterMap fun c =>
    match c.command with
    | .newState s => some ⟨c.time, s⟩
    | .confirmState _ => none

/-- The state after a list of changes, with their transitions. -/
def finalOf (s : SimulationState) (cs : List StateChange) : SimulationState :=
  cs.foldl (fun _ c => c.state.transitionFinal) s

/-- Each change is consistent with the state after the ones before it. -/
def Chained : SimulationState → List StateChange → Prop
  | _, [] => True
  | s, c :: cs => HardwareModule.consistent s c.state = true ∧ Chained c.state.transitionFinal cs

theorem newStates_append (cs ds : List Sent) :
    newStates (cs ++ ds) = newStates cs ++ newStates ds := List.filterMap_append

theorem finalOf_append (s : SimulationState) (cs ds : List StateChange) :
    finalOf s (cs ++ ds) = finalOf (finalOf s cs) ds := List.foldl_append

theorem chained_append {s : SimulationState} {cs ds : List StateChange} :
    Chained s (cs ++ ds) ↔ Chained s cs ∧ Chained (finalOf s cs) ds := by
  induction cs generalizing s with
  | nil => simp [Chained, finalOf]
  | cons c cs ih => simp only [List.cons_append, Chained, ih, and_assoc, finalOf, List.foldl_cons]

theorem newStates_take_prefix (cs : List Sent) (n : ℕ) :
    newStates (cs.take n) <+: newStates cs := (List.take_prefix n cs).filterMap _

theorem isFinal_stateFor (o r : SimulationState) (h : stateFor o r ≠ .undefined) :
    IsFinal (stateFor o r).transitionFinal := by
  cases r <;> simp only [stateFor] at h ⊢ <;> grind [IsFinal, transitionFinal]

/-- A new state is final after its transition. -/
theorem isFinal_newState {c : DusimeController} {reqState : SimulationState}
    (hfinal : IsFinal c.commandedState) (hnew : c.newState reqState ≠ .undefined) :
    IsFinal (c.newState reqState).transitionFinal := by
  unfold DusimeController.newState at hnew ⊢
  split
  · rename_i hsame
    obtain h | h | h | h := hfinal <;> rw [← hsame, h] <;> simp [IsFinal, transitionFinal]
  · rename_i hother
    rw [if_neg hother] at hnew
    exact isFinal_stateFor _ _ hnew

/-! ### The conditions on steps -/

/-- What is asked of a request, when it is granted: it agrees, if there is a hardware module. -/
def RequestMeets (settings : Settings) (sys : System) (reqState : SimulationState) (reqTime : ℕ)
    (on : Bool) : Prop :=
  Granted sys.controller on reqState reqTime →
    ((∃ m ∈ sys.members, m.module.isHardware = true) →
      Agrees sys.controller.commandedState sys.controller.confirmedState reqState) ∧
    NoWrap settings sys.now reqTime

instance (settings : Settings) (sys : System) (reqState : SimulationState) (reqTime : ℕ)
    (on : Bool) : Decidable (RequestMeets settings sys reqState reqTime on) :=
  inferInstanceAs (Decidable (_ → _))

/-- What is asked of a check: it is later than the one before, no second change is due, and a
hardware module for which one is due has completed its transition. -/
structure CheckMeets (m : DusimeModule) (ts : ℕ) : Prop where
  later : m.lastCheck < ts
  single : ∀ c ∈ m.futureStates.tail, ts < c.time
  complete : m.isHardware = true → ∀ c ∈ m.futureStates.head?, c.time ≤ ts →
    m.reportState.transitionFinal = m.reportState

instance (m : DusimeModule) (ts : ℕ) : Decidable (CheckMeets m ts) :=
  decidable_of_iff (m.lastCheck < ts ∧ (∀ c ∈ m.futureStates.tail, ts < c.time) ∧
      (m.isHardware = true → ∀ c ∈ m.futureStates.head?, c.time ≤ ts →
        m.reportState.transitionFinal = m.reportState))
    ⟨fun ⟨h₁, h₂, h₃⟩ => ⟨h₁, h₂, h₃⟩, fun h => ⟨h.later, h.single, h.complete⟩⟩

/-- What is asked of a step. A change is read before the module has checked at its time. -/
def Meets (settings : Settings) (sys : System) : Input → Prop
  | .request reqState on => RequestMeets settings sys reqState sys.now on
  | .applicationStateChange reqState validityStart on =>
    ¬ (reqState = .advance ∧ settings.blockAdvance = true) →
      RequestMeets settings sys reqState (max validityStart sys.now) on
  | .processEntityCommand i => ∀ m ∈ sys.members[i]?,
    ∀ c ∈ newStates sys.commands[m.read]?.toList, m.module.lastCheck < c.time
  | .getAndCheckState i ts _ => ∀ m ∈ sys.members[i]?, CheckMeets m.module ts
  | _ => True

instance (settings : Settings) (sys : System) (i : Input) : Decidable (Meets settings sys i) := by
  unfold Meets
  split <;> infer_instance

/-! ### What holds in the states that are reached -/

/-- The commands for new states. -/
structure Commanded (settings : Settings) (sys : System) : Prop where
  times : (newStates sys.commands).Pairwise fun c d => c.time < d.time
  before : ∀ c ∈ newStates sys.commands, c.time < sys.controller.earliestChange
  sent : ∀ c ∈ sys.commands, ∀ s, c.command = .newState s →
    settings.minInterval ∣ c.time ∧ c.sentAt + settings.minNotification ≤ c.time
  commanded : finalOf .inactive (newStates sys.commands) = sys.controller.commandedState
  final : IsFinal sys.controller.commandedState
  chained : (∃ m ∈ sys.members, m.module.isHardware = true) →
    Chained .inactive (newStates sys.commands)

/-- A module follows the commands that it has read. -/
structure Follows (commands : List Sent) (m : Member) : Prop where
  read_le : m.read ≤ commands.length
  planned : m.applied.map Applied.change ++ m.module.futureStates =
    newStates (commands.take m.read)
  accepted : ∀ a ∈ m.applied, a.accepted = true
  onTime : ∀ a ∈ m.applied, a.before < a.change.time ∧ a.change.time ≤ a.at_
  later : ∀ c ∈ m.module.futureStates, m.module.lastCheck < c.time
  report : m.module.reportState.transitionFinal =
    finalOf .inactive (m.applied.map Applied.change)
  current : m.module.currentState.transitionFinal =
    finalOf .inactive (m.applied.map Applied.change)
  simulation : m.module.isHardware = false →
    m.module.currentState.transitionFinal = m.module.currentState

/-- All that holds in the states that are reached. -/
structure Inv (settings : Settings) (sys : System) : Prop where
  commanded : Commanded settings sys
  follows : ∀ m ∈ sys.members, Follows sys.commands m

/-- A module does not depend on commands that it has not read. -/
theorem Follows.append {commands : List Sent} {m : Member} (h : Follows commands m)
    (sent : List Sent) : Follows (commands ++ sent) m where
  read_le := Nat.le_trans h.read_le (by simp)
  planned := by rw [List.take_append_of_le_length h.read_le, h.planned]
  accepted := h.accepted
  onTime := h.onTime
  later := h.later
  report := h.report
  current := h.current
  simulation := h.simulation

theorem Follows.applied_start {commands : List Sent} {m : Member} (h : Follows commands m) :
    m.applied.map Applied.change <+: newStates commands :=
  (List.prefix_append _ _).trans (h.planned ▸ newStates_take_prefix commands m.read)

section Steps

variable {settings : Settings} {sys : System}

/-- Commands that are not for new states change nothing. -/
theorem Inv.query (h : Inv settings sys) {c : DusimeController} {sent : List Sent}
    (hsent : newStates sent = []) (hcommanded : c.commandedState = sys.controller.commandedState)
    (hearliest : c.earliestChange = sys.controller.earliestChange) (published : List SimulationState) :
    Inv settings { sys with
      controller := c, commands := sys.commands ++ sent, published := published } := by
  have hstates : newStates (sys.commands ++ sent) = newStates sys.commands := by
    rw [newStates_append, hsent, List.append_nil]
  refine ⟨⟨?_, ?_, fun d hd s hs => ?_, ?_, ?_, ?_⟩, fun m hm => (h.follows m hm).append sent⟩
  · exact hstates ▸ h.commanded.times
  · intro d hd
    change d.time < c.earliestChange
    rw [hearliest]
    exact h.commanded.before d (hstates ▸ hd)
  · obtain hd | hd := List.mem_append.mp hd
    · exact h.commanded.sent d hd s hs
    · have hmem : (⟨d.time, s⟩ : StateChange) ∈ newStates sent :=
        List.mem_filterMap.mpr ⟨d, hd, by rw [hs]⟩
      rw [hsent] at hmem
      cases hmem
  · change finalOf _ (newStates (sys.commands ++ sent)) = c.commandedState
    rw [hstates, hcommanded, h.commanded.commanded]
  · exact (hcommanded ▸ h.commanded.final : IsFinal c.commandedState)
  · intro hhard
    change Chained _ (newStates (sys.commands ++ sent))
    rw [hstates]
    exact h.commanded.chained hhard

theorem DusimeController.query_spec (c : DusimeController) (now ts : ℕ) (valid : Bool) :
    newStates (c.query now ts valid).2 = [] ∧
      (c.query now ts valid).1.commandedState = c.commandedState ∧
      (c.query now ts valid).1.earliestChange = c.earliestChange := by
  unfold DusimeController.query
  split
  · dsimp only
    split <;> exact ⟨rfl, rfl, rfl⟩
  · split <;> exact ⟨rfl, rfl, rfl⟩

theorem DusimeController.refresh_spec (c : DusimeController) :
    c.refresh.1.commandedState = c.commandedState ∧
      c.refresh.1.earliestChange = c.earliestChange := by
  unfold DusimeController.refresh
  dsimp only
  split_ifs <;> exact ⟨rfl, rfl⟩

theorem Inv.sendQuery (h : Inv settings sys) (ts : ℕ) (valid : Bool) :
    Inv settings (sys.sendQuery ts valid) := by
  obtain ⟨hcommanded, hearliest⟩ := sys.controller.refresh_spec
  obtain ⟨hsent, hcommanded', hearliest'⟩ := sys.controller.refresh.1.query_spec sys.now ts valid
  exact h.query hsent (hcommanded'.trans hcommanded) (hearliest'.trans hearliest) _

/-- A request is granted or refused. -/
theorem Inv.control (h : Inv settings sys) (hinterval : 0 < settings.minInterval)
    {reqState : SimulationState} {reqTime : ℕ} {on : Bool}
    (hmeets : RequestMeets settings sys reqState reqTime on) :
    Inv settings (sys.control settings reqState reqTime on) := by
  unfold System.control
  by_cases hgranted : Granted sys.controller on reqState reqTime
  · obtain ⟨hagrees, hwrap⟩ := hmeets hgranted
    obtain ⟨time, hdvd, hearliest, hlead, hcontrol⟩ :=
      controlModel_granted hgranted hinterval hwrap
    have hnew := hgranted.2.2
    have hstates : newStates (sys.commands ++
        [⟨sys.now, time, .newState (sys.controller.newState reqState)⟩]) =
          newStates sys.commands ++ [⟨time, sys.controller.newState reqState⟩] :=
      newStates_append _ _
    rw [hcontrol]
    refine ⟨⟨?_, ?_, ?_, ?_, isFinal_newState h.commanded.final hnew, ?_⟩,
      fun m hm => (h.follows m hm).append _⟩
    · change (newStates (sys.commands ++ [_])).Pairwise _
      rw [hstates]
      refine List.pairwise_append.mpr ⟨h.commanded.times, List.pairwise_singleton _ _, ?_⟩
      intro c hc d hd
      obtain rfl := List.mem_singleton.mp hd
      exact Nat.lt_of_lt_of_le (h.commanded.before c hc) hearliest
    · intro c hc
      change c ∈ newStates (sys.commands ++ [_]) at hc
      rw [hstates] at hc
      obtain hc | hc := List.mem_append.mp hc
      · exact Nat.lt_succ_of_lt (Nat.lt_of_lt_of_le (h.commanded.before c hc) hearliest)
      · obtain rfl := List.mem_singleton.mp hc
        exact Nat.lt_succ_self _
    · intro c hc s hs
      obtain hc | hc := List.mem_append.mp hc
      · exact h.commanded.sent c hc s hs
      · obtain rfl := List.mem_singleton.mp hc
        exact ⟨hdvd, hlead⟩
    · change finalOf _ (newStates (sys.commands ++ [_])) = _
      rw [hstates, finalOf_append]
      rfl
    · intro hhard
      change Chained _ (newStates (sys.commands ++ [_]))
      rw [hstates, chained_append, h.commanded.commanded]
      exact ⟨h.commanded.chained hhard,
        (agrees_iff h.commanded.final hnew).mp (hagrees hhard), trivial⟩
  · rw [controlModel_refused hgranted]
    simpa using h

theorem DusimeModule.isHardware_check (m : DusimeModule) (ts : ℕ) (b : Bool) :
    (m.getAndCheckState ts b).1.isHardware = m.isHardware := by
  cases m <;> rfl

/-- A check at which nothing is due. -/
theorem DusimeModule.check_idle {m : DusimeModule} {ts : ℕ} (b : Bool)
    (h : ∀ c ∈ m.futureStates.head?, ts < c.time) :
    (m.getAndCheckState ts b).2 = none ∧
      (m.getAndCheckState ts b).1.lastCheck = ts ∧
      (m.getAndCheckState ts b).1.futureStates = m.futureStates ∧
      (m.getAndCheckState ts b).1.reportState = m.reportState ∧
      (m.getAndCheckState ts b).1.currentState = m.currentState := by
  cases m with
  | hardware m =>
    obtain ⟨s, last, fs⟩ := m
    cases fs with
    | nil => exact ⟨rfl, rfl, rfl, rfl, rfl⟩
    | cons f fs =>
      have hnot : ¬ f.time ≤ ts := Nat.not_le.mpr (h f rfl)
      simp [getAndCheckState, HardwareModule.getAndCheckState, hnot, lastCheck, futureStates,
        reportState, currentState]
  | simulation m =>
    obtain ⟨s, r, last, fs⟩ := m
    cases fs with
    | nil => exact ⟨rfl, rfl, rfl, rfl, rfl⟩
    | cons f fs =>
      have hnot : ¬ f.time ≤ ts := Nat.not_le.mpr (h f rfl)
      simp [getAndCheckState, SimulationModule.getAndCheckState, hnot, lastCheck, futureStates,
        reportState, currentState]

/-- A check at which a change is due. A hardware module makes it when it is consistent. -/
theorem DusimeModule.check_due {m : DusimeModule} {ts : ℕ} (b : Bool) {f : StateChange}
    {fs : List StateChange} (hfs : m.futureStates = f :: fs) (hdue : f.time ≤ ts)
    (hcons : m.isHardware = true → HardwareModule.consistent m.currentState f.state = true) :
    (m.getAndCheckState ts b).2 = some (f, true) ∧
      (m.getAndCheckState ts b).1.lastCheck = ts ∧
      (m.getAndCheckState ts b).1.futureStates = fs ∧
      (m.getAndCheckState ts b).1.reportState.transitionFinal = f.state.transitionFinal ∧
      (m.getAndCheckState ts b).1.currentState.transitionFinal = f.state.transitionFinal ∧
      (m.isHardware = false →
        (m.getAndCheckState ts b).1.currentState = f.state.transitionFinal) := by
  cases m with
  | hardware m =>
    obtain ⟨s, last, fs'⟩ := m
    obtain rfl : fs' = f :: fs := hfs
    have hs : HardwareModule.consistent s f.state = true := hcons rfl
    simp [getAndCheckState, HardwareModule.getAndCheckState, hdue, hs, lastCheck, futureStates,
      reportState, currentState, isHardware]
  | simulation m =>
    obtain ⟨s, r, last, fs'⟩ := m
    obtain rfl : fs' = f :: fs := hfs
    cases b <;> simp [getAndCheckState, SimulationModule.getAndCheckState, hdue, lastCheck,
      futureStates, reportState, currentState, isHardware, SimulationModule.transitionComplete]

/-- A hardware module that has completed its transition accepts the next change. -/
theorem Follows.consistent {commands : List Sent} {m : Member} (h : Follows commands m)
    (hchained : Chained .inactive (newStates commands)) {f : StateChange} {fs : List StateChange}
    (hfs : m.module.futureStates = f :: fs) (hhard : m.module.isHardware = true)
    (hcomplete : m.module.reportState.transitionFinal = m.module.reportState) :
    HardwareModule.consistent m.module.currentState f.state = true := by
  have hsame : m.module.currentState = m.module.reportState := by
    cases hm : m.module with
    | hardware m => rfl
    | simulation m =>
      rw [hm] at hhard
      cases hhard
  have hplanned : newStates (commands.take m.read) <+: newStates commands :=
    newStates_take_prefix commands m.read
  obtain ⟨rest, hrest⟩ := hplanned
  rw [← hrest, ← h.planned, hfs, List.append_assoc, List.cons_append, chained_append] at hchained
  rw [hsame, ← hcomplete, h.report]
  exact hchained.2.1

/-- A module checks its state. -/
theorem Follows.check {commands : List Sent} {m : Member} (h : Follows commands m)
    (hchained : m.module.isHardware = true → Chained .inactive (newStates commands)) {ts : ℕ}
    (hmeets : CheckMeets m.module ts) (b : Bool) : Follows commands (m.check ts b) := by
  have hsingle := hmeets.single
  by_cases hidle : ∀ c ∈ m.module.futureStates.head?, ts < c.time
  · obtain ⟨hnone, hlast, hfuture, hreport, hcurrent⟩ := DusimeModule.check_idle b hidle
    have happlied : (m.check ts b).applied = m.applied := by
      change m.applied ++ _ = _
      rw [hnone]
      exact List.append_nil _
    refine ⟨h.read_le, ?_, ?_, ?_, fun c hc => ?_, ?_, ?_, fun hsim => ?_⟩
    · rw [happlied]
      exact (congrArg (_ ++ ·) hfuture).trans h.planned
    · exact happlied ▸ h.accepted
    · exact happlied ▸ h.onTime
    · change (m.module.getAndCheckState ts b).1.lastCheck < c.time
      change c ∈ (m.module.getAndCheckState ts b).1.futureStates at hc
      rw [hfuture] at hc
      rw [hlast]
      cases hfs : m.module.futureStates with
      | nil =>
        rw [hfs] at hc
        cases hc
      | cons f fs =>
        rw [hfs] at hc hsingle hidle
        obtain rfl | hc := List.mem_cons.mp hc
        · exact hidle c rfl
        · exact hsingle c hc
    · rw [happlied]
      exact (congrArg transitionFinal hreport).trans h.report
    · rw [happlied]
      exact (congrArg transitionFinal hcurrent).trans h.current
    · change (m.module.getAndCheckState ts b).1.currentState.transitionFinal =
        (m.module.getAndCheckState ts b).1.currentState
      rw [hcurrent]
      exact h.simulation ((m.module.isHardware_check ts b).symm.trans hsim)
  · cases hfs : m.module.futureStates with
    | nil =>
      rw [hfs] at hidle
      exact absurd (fun c hc => nomatch hc) hidle
    | cons f fs =>
      have hdue : f.time ≤ ts := by
        by_contra hlater
        refine hidle fun c hc => ?_
        rw [hfs] at hc
        obtain rfl := Option.some.inj hc
        exact Nat.not_le.mp hlater
      have hcons (hhard : m.module.isHardware = true) :
          HardwareModule.consistent m.module.currentState f.state = true :=
        h.consistent (hchained hhard) hfs hhard
          (hmeets.complete hhard f (by rw [hfs]; rfl) hdue)
      obtain ⟨hsome, hlast, hfuture, hreport, hcurrent, hfinal⟩ :=
        DusimeModule.check_due b hfs hdue hcons
      have happlied : (m.check ts b).applied =
          m.applied ++ [⟨m.module.lastCheck, ts, f, true⟩] := by
        change m.applied ++ _ = _
        rw [hsome]
        rfl
      have hchanges : (m.check ts b).applied.map Applied.change =
          m.applied.map Applied.change ++ [f] := by
        rw [happlied, List.map_append]
        rfl
      have hplanned := h.planned
      rw [hfs] at hplanned
      refine ⟨h.read_le, ?_, fun a ha => ?_, fun a ha => ?_, fun c hc => ?_, ?_, ?_,
        fun hsim => ?_⟩
      · rw [hchanges, List.append_assoc]
        exact (congrArg (fun l => _ ++ ([f] ++ l)) hfuture).trans hplanned
      · rw [happlied] at ha
        obtain ha | ha := List.mem_append.mp ha
        · exact h.accepted a ha
        · obtain rfl := List.mem_singleton.mp ha
          rfl
      · rw [happlied] at ha
        obtain ha | ha := List.mem_append.mp ha
        · exact h.onTime a ha
        · obtain rfl := List.mem_singleton.mp ha
          exact ⟨h.later f (by rw [hfs]; exact List.mem_cons_self), hdue⟩
      · change (m.module.getAndCheckState ts b).1.lastCheck < c.time
        change c ∈ (m.module.getAndCheckState ts b).1.futureStates at hc
        rw [hfuture] at hc
        rw [hfs] at hsingle
        rw [hlast]
        exact hsingle c hc
      · rw [hchanges, finalOf_append]
        exact hreport
      · rw [hchanges, finalOf_append]
        exact hcurrent
      · change (m.module.getAndCheckState ts b).1.currentState.transitionFinal =
          (m.module.getAndCheckState ts b).1.currentState
        rw [hfinal ((m.module.isHardware_check ts b).symm.trans hsim), transitionFinal_idem]

/-- A module reads a command. -/
theorem Follows.process {commands : List Sent} {m : Member} (h : Follows commands m) {c : Sent}
    (hc : commands[m.read]? = some c)
    (hmeets : ∀ d ∈ newStates [c], m.module.lastCheck < d.time) :
    Follows commands (m.process c) := by
  obtain ⟨hlt, hget⟩ := List.getElem?_eq_some_iff.mp hc
  have htake : commands.take (m.read + 1) = commands.take m.read ++ [c] := by
    rw [List.take_add_one, hc]
    rfl
  cases hcommand : c.command with
  | newState s =>
    have hcommand' : newStates [c] = [⟨c.time, s⟩] := by
      simp only [newStates, List.filterMap_cons, hcommand, List.filterMap_nil]
    have hstates : newStates (commands.take (m.read + 1)) =
        newStates (commands.take m.read) ++ [⟨c.time, s⟩] := by
      rw [htake, newStates_append, hcommand']
    have hprocess : m.process c =
        { m with module := m.module.plan ⟨c.time, s⟩, read := m.read + 1 } := by
      simp only [Member.process, hcommand]
    have hfuture : (m.module.plan ⟨c.time, s⟩).futureStates =
        m.module.futureStates ++ [⟨c.time, s⟩] := by
      cases m.module <;> rfl
    have hlast : (m.module.plan ⟨c.time, s⟩).lastCheck = m.module.lastCheck := by
      cases m.module <;> rfl
    have hreport : (m.module.plan ⟨c.time, s⟩).reportState = m.module.reportState := by
      cases m.module <;> rfl
    have hcurrent : (m.module.plan ⟨c.time, s⟩).currentState = m.module.currentState := by
      cases m.module <;> rfl
    have hkind : (m.module.plan ⟨c.time, s⟩).isHardware = m.module.isHardware := by
      cases m.module <;> rfl
    rw [hprocess]
    refine ⟨hlt, ?_, h.accepted, h.onTime, fun d hd => ?_, ?_, ?_, fun hsim => ?_⟩
    · change _ ++ (m.module.plan ⟨c.time, s⟩).futureStates = newStates (commands.take (m.read + 1))
      rw [hfuture, ← List.append_assoc, h.planned, hstates]
    · change (m.module.plan ⟨c.time, s⟩).lastCheck < d.time
      change d ∈ (m.module.plan ⟨c.time, s⟩).futureStates at hd
      rw [hfuture] at hd
      rw [hlast]
      obtain hd | hd := List.mem_append.mp hd
      · exact h.later d hd
      · obtain rfl := List.mem_singleton.mp hd
        exact hmeets _ (hcommand' ▸ List.mem_singleton_self _)
    · exact (congrArg transitionFinal hreport).trans h.report
    · exact (congrArg transitionFinal hcurrent).trans h.current
    · change (m.module.plan ⟨c.time, s⟩).currentState.transitionFinal =
        (m.module.plan ⟨c.time, s⟩).currentState
      rw [hcurrent]
      exact h.simulation (hkind.symm.trans hsim)
  | confirmState s =>
    have hstates : newStates (commands.take (m.read + 1)) = newStates (commands.take m.read) := by
      rw [htake, newStates_append]
      simp only [newStates, List.filterMap_cons, hcommand, List.filterMap_nil, List.append_nil]
    have hprocess : m.process c =
        { m with
          read := m.read + 1
          confirms := m.confirms ++ [⟨m.module.reportState, m.module.lastCheck⟩] } := by
      simp only [Member.process, hcommand]
    rw [hprocess]
    exact ⟨hlt, h.planned.trans hstates.symm, h.accepted, h.onTime, h.later, h.report, h.current,
      h.simulation⟩

/-- A module completes its transition. -/
theorem Follows.complete {commands : List Sent} {m : Member} (h : Follows commands m) :
    Follows commands { m with module := m.module.transitionComplete } := by
  have hreport : m.module.transitionComplete.reportState = m.module.reportState.transitionFinal := by
    cases m.module <;> rfl
  have hcurrent : m.module.transitionComplete.currentState.transitionFinal =
      m.module.currentState.transitionFinal := by
    cases m.module with
    | hardware m => exact transitionFinal_idem _
    | simulation m => rfl
  refine ⟨h.read_le, ?_, h.accepted, h.onTime, ?_, ?_, hcurrent.trans h.current, fun hsim => ?_⟩
  · refine Eq.trans ?_ h.planned
    cases m.module <;> rfl
  · have hlater := h.later
    cases hm : m.module <;> rw [hm] at hlater <;> exact hlater
  · change m.module.transitionComplete.reportState.transitionFinal = _
    rw [hreport, transitionFinal_idem]
    exact h.report
  · have hfinal := h.simulation
    cases hm : m.module with
    | hardware m =>
      rw [hm] at hsim
      cases hsim
    | simulation m =>
      rw [hm] at hfinal
      exact hfinal rfl

/-- Something happens to one module, that remains of its kind. -/
theorem Inv.atMember (h : Inv settings sys) {i : ℕ} {m m' : Member} {c : DusimeController}
    (hm : sys.members[i]? = some m) (hfollows : Follows sys.commands m')
    (hkind : m'.module.isHardware = m.module.isHardware)
    (hcommanded : c.commandedState = sys.controller.commandedState)
    (hearliest : c.earliestChange = sys.controller.earliestChange) :
    Inv settings { sys with controller := c, members := sys.members.set i m' } := by
  refine ⟨⟨h.commanded.times, fun d hd => ?_, h.commanded.sent, ?_, ?_, ?_⟩, fun n hn => ?_⟩
  · exact hearliest ▸ h.commanded.before d hd
  · exact h.commanded.commanded.trans hcommanded.symm
  · exact (hcommanded ▸ h.commanded.final : IsFinal c.commandedState)
  · rintro ⟨n, hn, hhard⟩
    obtain hn | rfl := List.mem_or_eq_of_mem_set hn
    · exact h.commanded.chained ⟨n, hn, hhard⟩
    · exact h.commanded.chained ⟨m, List.mem_of_getElem? hm, hkind ▸ hhard⟩
  · obtain hn | rfl := List.mem_or_eq_of_mem_set hn
    · exact h.follows n hn
    · exact hfollows

/-- What happens to a module. -/
theorem atMember_eq_ok {i : ℕ} {f : Member → Except Fault (System × Member)} {t : System} :
    sys.atMember i f = .ok t ↔ ∃ m sys' m', sys.members[i]? = some m ∧ f m = .ok (sys', m') ∧
      t = { sys' with members := sys'.members.set i m' } := by
  unfold System.atMember
  cases hm : sys.members[i]? with
  | none => simp
  | some m =>
    cases hf : f m with
    | error e => simp [hf, bind, Except.bind]
    | ok x =>
      obtain ⟨sys', m'⟩ := x
      simp [hf, bind, Except.bind, pure, Except.pure, eq_comm]

/-- Every step that meets the condition keeps the invariant. -/
theorem Inv.step (h : Inv settings sys) (hinterval : 0 < settings.minInterval) {i : Input}
    (hmeets : Meets settings sys i) {t : System} (hstep : step settings sys i = .ok t) :
    Inv settings t := by
  cases i with
  | advance ticks =>
    cases hstep
    exact ⟨⟨h.commanded.times, h.commanded.before, h.commanded.sent, h.commanded.commanded,
      h.commanded.final, h.commanded.chained⟩, h.follows⟩
  | request reqState on =>
    cases hstep
    exact h.control hinterval hmeets
  | applicationStateChange reqState validityStart on =>
    change (if _ then _ else _) = _ at hstep
    split at hstep
    · cases hstep
      exact h
    · rename_i hfree
      cases hstep
      exact h.control hinterval (hmeets hfree)
  | sendQuery ts valid =>
    cases hstep
    exact h.sendQuery ts valid
  | processConfirm i =>
    obtain ⟨m, sys', m', hm, hf, rfl⟩ := atMember_eq_ok.mp hstep
    split at hf
    · cases hf
    · cases hf
      have hfollows := h.follows m (List.mem_of_getElem? hm)
      refine h.atMember hm ?_ rfl rfl rfl
      exact ⟨hfollows.read_le, hfollows.planned, hfollows.accepted, hfollows.onTime,
        hfollows.later, hfollows.report, hfollows.current, hfollows.simulation⟩
  | processEntityCommand i =>
    obtain ⟨m, sys', m', hm, hf, rfl⟩ := atMember_eq_ok.mp hstep
    split at hf
    · cases hf
    · rename_i c hc
      cases hf
      have hlate := hmeets m hm
      rw [hc] at hlate
      refine h.atMember hm ((h.follows m (List.mem_of_getElem? hm)).process hc hlate) ?_ rfl rfl
      cases hcommand : c.command with
      | newState s =>
        simp only [Member.process, hcommand]
        cases m.module <;> rfl
      | confirmState s => simp only [Member.process, hcommand]
  | getAndCheckState i ts b =>
    obtain ⟨m, sys', m', hm, hf, rfl⟩ := atMember_eq_ok.mp hstep
    cases hf
    have hmem := List.mem_of_getElem? hm
    exact h.atMember hm ((h.follows m hmem).check
      (fun hhard => h.commanded.chained ⟨m, hmem, hhard⟩) (hmeets m hm) b)
      (m.module.isHardware_check ts b) rfl rfl
  | transitionComplete i =>
    obtain ⟨m, sys', m', hm, hf, rfl⟩ := atMember_eq_ok.mp hstep
    cases hf
    refine h.atMember hm (h.follows m (List.mem_of_getElem? hm)).complete ?_ rfl rfl
    cases m.module <;> rfl

end Steps

/-! ### Runs -/

/-- The modules follow the commands.

The times of the commands increase, lie on the grid, and are some time ahead. Each module makes
the changes in the order of the commands, each once, and each at its first check from its time
on. When a module has made all, and has completed the last one, it is in the commanded state.
A request that is refused sends nothing. -/
structure InStep (settings : Settings) (sys : System) : Prop where
  times : (newStates sys.commands).Pairwise fun c d => c.time < d.time
  sent : ∀ c ∈ sys.commands, ∀ s, c.command = .newState s →
    settings.minInterval ∣ c.time ∧ c.sentAt + settings.minNotification ≤ c.time
  inOrder : ∀ m ∈ sys.members, m.applied.map Applied.change <+: newStates sys.commands
  accepted : ∀ m ∈ sys.members, ∀ a ∈ m.applied, a.accepted = true
  onTime : ∀ m ∈ sys.members, ∀ a ∈ m.applied, a.before < a.change.time ∧ a.change.time ≤ a.at_
  made : ∀ m ∈ sys.members, ∀ c ∈ newStates (sys.commands.take m.read),
    c.time ≤ m.module.lastCheck → c ∈ m.applied.map Applied.change
  settled : ∀ m ∈ sys.members, m.applied.map Applied.change = newStates sys.commands →
    m.module.reportState.transitionFinal = m.module.reportState →
      m.module.reportState = sys.controller.commandedState ∧
        m.module.currentState = sys.controller.commandedState
  refused : ∀ reqState reqTime on c sent,
    sys.controller.controlModel settings sys.now on reqState reqTime = (false, c, sent) →
      sent = [] ∧ c.commandedState = sys.controller.commandedState ∧
        c.earliestChange = sys.controller.earliestChange

/-- The invariant gives what is asked for. -/
theorem Inv.inStep {settings : Settings} {sys : System} (h : Inv settings sys) :
    InStep settings sys where
  times := h.commanded.times
  sent := h.commanded.sent
  inOrder m hm := (h.follows m hm).applied_start
  accepted m hm := (h.follows m hm).accepted
  onTime m hm := (h.follows m hm).onTime
  made m hm c hc hlast := by
    rw [← (h.follows m hm).planned] at hc
    obtain hc | hc := List.mem_append.mp hc
    · exact hc
    · exact absurd ((h.follows m hm).later c hc) (Nat.not_lt.mpr hlast)
  settled m hm hall hcomplete := by
    have hreport := (h.follows m hm).report
    have hcurrent := (h.follows m hm).current
    have hsimulation := (h.follows m hm).simulation
    rw [hall, h.commanded.commanded] at hreport hcurrent
    refine ⟨hcomplete.symm.trans hreport, ?_⟩
    cases hmodule : m.module with
    | hardware n =>
      rw [hmodule] at hreport hcomplete
      exact hcomplete.symm.trans hreport
    | simulation n =>
      rw [hmodule] at hsimulation hcurrent
      exact (hsimulation rfl).symm.trans hcurrent
  refused reqState reqTime on c sent hcontrol := by
    by_cases hgranted : Granted sys.controller on reqState reqTime
    · unfold DusimeController.controlModel at hcontrol
      rw [if_neg (Nat.not_lt.mpr hgranted.1), if_neg (not_not.mpr hgranted.2.1),
        if_neg hgranted.2.2] at hcontrol
      cases hcontrol
    · rw [controlModel_refused hgranted] at hcontrol
      cases hcontrol
      exact ⟨rfl, rfl, rfl⟩

/-- New modules, of any kinds. -/
def Fresh (modules : List DusimeModule) : Prop :=
  ∀ m ∈ modules, m = .hardware .new ∨ m = .simulation .new

instance (modules : List DusimeModule) : Decidable (Fresh modules) :=
  inferInstanceAs (Decidable (∀ _ ∈ _, _))

theorem inv_start (settings : Settings) {modules : List DusimeModule} (h : Fresh modules) :
    Inv settings (.start modules) := by
  refine ⟨⟨.nil, fun c hc => (nomatch hc), fun c hc => (nomatch hc), rfl,
    .inr (.inr (.inr rfl)), fun _ => trivial⟩, fun m hm => ?_⟩
  obtain ⟨module, hmodule, rfl⟩ := List.mem_map.mp hm
  obtain rfl | rfl := h module hmodule
  · exact ⟨Nat.zero_le _, rfl, fun a ha => (nomatch ha), fun a ha => (nomatch ha),
      fun c hc => (nomatch hc), rfl, rfl, fun hsim => (nomatch hsim)⟩
  · exact ⟨Nat.zero_le _, rfl, fun a ha => (nomatch ha), fun a ha => (nomatch ha),
      fun c hc => (nomatch hc), rfl, rfl, fun _ => rfl⟩

/-- The modules follow the commands in every run of which the steps meet the condition. -/
theorem inStep_of_run {settings : Settings} (hinterval : 0 < settings.minInterval)
    {modules : List DusimeModule} (hmodules : Fresh modules) {inputs : List Input} {sys : System}
    (hmeets : Allowed (step settings) (Meets settings) (.start modules) inputs)
    (hrun : exec (step settings) (.start modules) inputs = .ok sys) : InStep settings sys :=
  (exec_invariant (fun _ _ _ hinv hok hstep => Inv.step hinv hinterval hok hstep)
    (inv_start settings hmodules) hmeets hrun).inStep

/-- A hardware and a simulation module report their state, and are then brought to hold. -/
def sampleInputs : List Input :=
  [.advance 5, .sendQuery 5 true, .processEntityCommand 0, .processEntityCommand 1,
    .processConfirm 0, .processConfirm 1, .sendQuery 5 true, .request .holdCurrent true,
    .processEntityCommand 0, .processEntityCommand 1, .getAndCheckState 0 30 false,
    .getAndCheckState 1 35 true, .transitionComplete 0]

theorem inStep_sample :
    ∃ sys, exec (step ⟨10, 20, true⟩) (.start [.hardware .new, .simulation .new]) sampleInputs =
        .ok sys ∧ InStep ⟨10, 20, true⟩ sys ∧
      sys.members.map (·.module.currentState) = [.holdCurrent, .holdCurrent] := by
  obtain ⟨sys, hrun, hend⟩ := exists_of_endsIn (step ⟨10, 20, true⟩)
    (.start [.hardware .new, .simulation .new]) sampleInputs
    (fun sys => sys.members.map (·.module.currentState) = [.holdCurrent, .holdCurrent])
    (by decide)
  have hmeets : Allowed (step ⟨10, 20, true⟩) (Meets ⟨10, 20, true⟩)
      (.start [.hardware .new, .simulation .new]) sampleInputs :=
    allowed_of_checks (fun _ _ => of_decide_eq_true) (by decide)
  exact ⟨sys, hrun, inStep_of_run (by decide) (by decide) hmeets hrun, of_decide_eq_true hend⟩

/-- The request to hold is repeated before the module has confirmed it. The second command is
for the state itself, which a hardware module does not accept. -/
theorem not_inStep_repeated :
    ∃ sys, exec (step ⟨10, 20, true⟩) (.start [.hardware .new])
        [.advance 5, .sendQuery 5 true, .processEntityCommand 0, .processConfirm 0,
          .sendQuery 5 true, .request .holdCurrent true, .advance 26, .request .holdCurrent true,
          .processEntityCommand 0, .processEntityCommand 0, .getAndCheckState 0 30 false,
          .transitionComplete 0, .getAndCheckState 0 60 false] = .ok sys ∧
      ¬ InStep ⟨10, 20, true⟩ sys := by
  obtain ⟨sys, hrun, hend⟩ := exists_of_endsIn (step ⟨10, 20, true⟩) (.start [.hardware .new])
    [.advance 5, .sendQuery 5 true, .processEntityCommand 0, .processConfirm 0,
      .sendQuery 5 true, .request .holdCurrent true, .advance 26, .request .holdCurrent true,
      .processEntityCommand 0, .processEntityCommand 0, .getAndCheckState 0 30 false,
      .transitionComplete 0, .getAndCheckState 0 60 false]
    (fun sys => sys.members.any fun m => m.applied.any fun a => !a.accepted) (by decide)
  refine ⟨sys, hrun, fun h => ?_⟩
  obtain ⟨m, hm, ha⟩ := List.any_eq_true.mp hend
  obtain ⟨a, ha, hrefused⟩ := List.any_eq_true.mp ha
  rw [h.accepted m hm a ha] at hrefused
  cases hrefused

end Dueca.Dusime
