import Dueca.Activity.Model

/-!
# A critical activity works only when allowed

What a critical activity is for, as a guard that watches its log: the work callback
is called between the start of the work that was permitted and the end that was asked
for, and never once an error was seen; a refused request changes nothing; and each span
is divided over the callbacks, with the safe part first. The condition is on the
requests and the spans: the source does not return from a refused `switchSafe`, sets
the state to work after the first work callback whatever happened in it, and gives the
last cycle to the work callback as a whole.
-/

namespace Dueca.Activity

open Dueca.Lib CriticalActivity

/-- What the guard knows: the work that was permitted and when it is to end, the end of
the last span given to the work, that of the last span despatched, and whether an error
was seen. -/
structure Guard where
  workOn : Option ℕ := none
  workOff : Option ℕ := none
  workEnd : ℕ := 0
  clock : ℕ := 0
  errorSeen : Bool := false
  deriving DecidableEq, Repr

/-- The callbacks together were given the span, the safe one first; an idle activity
gives it to none. -/
def Shares (idle : Bool) (t : TimeSpec) : List (Mode × TimeSpec) → Bool
  | [] => idle
  | [(_, u)] => u == t
  | [(.safe, u), (.work, v)] =>
    u.validityStart == t.validityStart && u.validityEnd == v.validityStart &&
      v.validityEnd == t.validityEnd
  | _ => false

/-- The guard sees an event. It lets none pass that breaks a promise: a switch to work
while not running safe, the end of a work that was not permitted or is over already, a
refusal that changes something, a work callback outside the permitted time or after an
error, and a span that is not shared out. -/
def Guard.watch (g : Guard) : Event → Option Guard
  | .permitted was workOn =>
    if was = .running then some { g with workOn := workOn, workOff := none, workEnd := 0 }
    else none
  | .withdrawn workOff =>
    match g.workOn, g.workOff with
    | none, _ => none
    | some _, some _ => some g
    | some _, none => if g.workEnd ≤ workOff then some { g with workOff := workOff } else none
  | .refused unchanged => if unchanged then some g else none
  | .called .safe _ => some g
  | .called .work t =>
    if !g.errorSeen && g.workOn.any (fun on => on ≤ t.validityStart) &&
        g.workOff.all (fun off => t.validityEnd ≤ off) then
      some { g with workEnd := t.validityEnd }
    else none
  | .markedUnsafe => some { g with errorSeen := true }
  | .despatched idle t calls =>
    if Shares idle t calls then some { g with clock := t.validityEnd } else none

/-- What the guard knows after a log that it lets pass. -/
def watchAll (log : List Event) : Option Guard := log.foldlM Guard.watch {}

/-- The activity works only when allowed, over a whole run. -/
def WorksWhenAllowed (ins : List ActivityInput) : Prop :=
  ∀ a, exec activityStep {} ins = .ok a → (watchAll a.log).isSome

/-- The end of the last span given to the work callback since work was permitted. -/
def workEnd (log : List Event) : ℕ :=
  log.foldl (fun last e => match e with
    | .permitted _ _ => 0
    | .called .work t => t.validityEnd
    | _ => last) 0

/-- The end of the last span despatched. -/
def clock (log : List Event) : ℕ :=
  log.foldl (fun last e => match e with
    | .despatched _ t _ => t.validityEnd
    | _ => last) 0

/-- The condition on a request. A `switchSafe` comes while the activity is at work, or
after an error; it is not for a time before the end of what was worked already, nor for
a later one than an earlier `switchSafe`. -/
def CarefulRequest (a : CriticalActivity) : Request → Prop
  | .switchSafe time =>
    a.stoppedByError = true ∨
      ¬ a.runState < .readyWork ∧ time ≤ a.workOff ∧ workEnd a.log ≤ time
  | .switchOn _ | .switchOff _ | .switchWork _ | .criticalError | .criticalErrorNodeWide => True

/-- The condition on the requests of a callback. -/
def CarefulRequests : CriticalActivity → List Request → Prop
  | _, [] => True
  | a, r :: rs => CarefulRequest a r ∧ CarefulRequests (a.request r) rs

/-- The requests a callback makes are careful. -/
def CarefulCall (a : CriticalActivity) (mode : Mode) (t : TimeSpec) (f : Callback) : Prop :=
  CarefulRequests (a.note (.called mode t)) f.requests

/-- The first work callback may throw, but does not flag an error itself. -/
def CarefulStart (a : CriticalActivity) (t : TimeSpec) (fwork : Callback) : Prop :=
  CarefulCall a .work t fwork ∧ (fwork.throws = true ∨ .criticalError ∉ fwork.requests)

/-- The condition on the callbacks for a span. A span for the work does not go beyond
its end, and not before its start when `switchSafe` was called before the work started.
When the span straddles the start of the work, the safe callback does not throw, and
flags no error. -/
def CarefulInvoke (a : CriticalActivity) (t : TimeSpec) (fsafe fwork : Callback) : Prop :=
  if a.runState < .firstWork then CarefulCall a .safe t fsafe
  else if .firstWork < a.runState then
    (a.runState ≠ .runningWork → a.workOn ≤ t.validityStart) ∧ t.validityEnd ≤ a.workOff ∧
      CarefulCall a .work t fwork
  else if t.validityStart < a.workOn then
    let before : TimeSpec := ⟨t.validityStart, a.workOn⟩
    let a' := a.call .safe before fsafe
    CarefulCall a .safe before fsafe ∧ fsafe.throws = false ∧
      .criticalError ∉ fsafe.requests ∧ .criticalErrorNodeWide ∉ fsafe.requests ∧
      t.validityEnd ≤ a'.workOff ∧ CarefulStart a' ⟨a'.workOn, t.validityEnd⟩ fwork
  else t.validityEnd ≤ a.workOff ∧ CarefulStart a t fwork

/-- The condition on a step. Spans are ordered. -/
def Careful (a : CriticalActivity) : ActivityInput → Prop
  | .request r => CarefulRequest a r
  | .despatch t fsafe fwork =>
    clock a.log ≤ t.validityStart ∧ t.validityStart ≤ t.validityEnd ∧
      match a.nodeReaction.transition t with
      | .error _ => True
      | .ok a' => CarefulInvoke a' t fsafe fwork

/-! ### The guard keeps up with the activity -/

variable {a a' : CriticalActivity} {g : Guard} {c : ℕ} {r : Request} {t : TimeSpec}
variable {fsafe fwork f : Callback}

/-- The guard has let the log pass, and what it knows agrees with the activity. While
the activity is at work, no later than `c`, the work is permitted. -/
structure Guarded (c : ℕ) (a : CriticalActivity) (g : Guard) : Prop where
  log : watchAll a.log = some g
  error : g.errorSeen = (a.stoppedByError || !a.nodeSafe)
  workEnd : g.workEnd = workEnd a.log
  clock : g.clock = clock a.log
  work : RunState.running < a.runState → a.stoppedByError = false ∧
    g.workOn = some a.workOn ∧ ∀ off, g.workOff = some off → a.workOff ≤ off
  started : a.runState = .firstWork ∨ a.runState = .runningWork → a.workOn ≤ c

theorem lt_iff_rank {s s' : RunState} : s < s' ↔ s.rank < s'.rank := Iff.rfl

theorem watchAll_concat {log : List Event} {e : Event} {g' : Guard} (h : watchAll log = some g)
    (he : g.watch e = some g') : watchAll (log ++ [e]) = some g' := by
  rw [watchAll] at h
  rw [watchAll, List.foldlM_append, h]
  simpa using he

theorem workEnd_concat (log : List Event) (e : Event) :
    workEnd (log ++ [e]) = match e with
      | .permitted _ _ => 0
      | .called .work t => t.validityEnd
      | _ => workEnd log :=
  List.foldl_append ..

theorem clock_concat (log : List Event) (e : Event) :
    clock (log ++ [e]) = match e with
      | .despatched _ t _ => t.validityEnd
      | _ => clock log :=
  List.foldl_append ..

theorem running_lt_of_started (h : a.runState = .firstWork ∨ a.runState = .runningWork) :
    RunState.running < a.runState := by
  obtain h | h := h <;> exact h ▸ by decide

/-- An activity that is no longer at work has nothing to agree on with the guard but
errors. -/
theorem Guarded.rests (h : Guarded c a g) (hlog : a'.log = a.log)
    (hstopped : (a'.stoppedByError || !a'.nodeSafe) = (a.stoppedByError || !a.nodeSafe))
    (hrests : ¬ RunState.running < a'.runState) : Guarded c a' g where
  log := hlog ▸ h.log
  error := hstopped ▸ h.error
  workEnd := hlog ▸ h.workEnd
  clock := hlog ▸ h.clock
  work := fun hw => absurd hw hrests
  started := fun hs => absurd (running_lt_of_started hs) hrests

theorem not_running_lt_backToSafe (a : CriticalActivity) :
    ¬ RunState.running < a.backToSafe.runState := by
  simp only [backToSafe]
  split
  · decide
  · split
    · decide
    · assumption

theorem Guarded.marked (h : Guarded c a g) (hlog : a'.log = a.log ++ [.markedUnsafe])
    (hstopped : (a'.stoppedByError || !a'.nodeSafe) = true)
    (hwork : RunState.running < a'.runState → a'.runState = a.runState ∧
      a'.stoppedByError = a.stoppedByError ∧ a'.workOn = a.workOn ∧ a'.workOff = a.workOff) :
    Guarded c a' { g with errorSeen := true } where
  log := hlog ▸ watchAll_concat h.log rfl
  error := hstopped.symm
  workEnd := by rw [hlog, workEnd_concat]; exact h.workEnd
  clock := by rw [hlog, clock_concat]; exact h.clock
  work := by
    intro hw
    obtain ⟨hstate, hstop, hon, hoff⟩ := hwork hw
    rw [hstop, hon, hoff]
    exact h.work (hstate ▸ hw)
  started := by
    intro hs
    obtain ⟨hstate, -, hon, -⟩ := hwork (running_lt_of_started hs)
    rw [hon]
    exact h.started (hstate ▸ hs)

theorem Guarded.criticalError (h : Guarded c a g) : ∃ g', Guarded c a.criticalError g' := by
  simp only [CriticalActivity.criticalError]
  split
  · exact ⟨g, h⟩
  · exact ⟨_, h.marked rfl rfl fun hw => absurd hw (not_running_lt_backToSafe a)⟩

theorem Guarded.nodeUnsafe (h : Guarded c a g) : ∃ g', Guarded c a.nodeUnsafe g' :=
  ⟨_, h.marked rfl (Bool.or_true _) fun _ => ⟨rfl, rfl, rfl, rfl⟩⟩

/-- An event that the guard only lets pass: a refused request that leaves the state
alone, or a call of the safe callback. -/
theorem Guarded.noted (h : Guarded c a g) {e : Event}
    (he : e = .refused true ∨ ∃ t, e = .called .safe t) : Guarded c (a.note e) g where
  log := watchAll_concat h.log (by obtain rfl | ⟨t, rfl⟩ := he <;> rfl)
  error := h.error
  workEnd := by
    rw [note, workEnd_concat]
    obtain rfl | ⟨t, rfl⟩ := he <;> exact h.workEnd
  clock := by
    rw [note, clock_concat]
    obtain rfl | ⟨t, rfl⟩ := he <;> exact h.clock
  work := h.work
  started := h.started

theorem Guarded.switchWork (h : Guarded c a g) (time : ℕ) :
    ∃ g', Guarded c (a.switchWork time) g' := by
  simp only [CriticalActivity.switchWork]
  split
  · exact ⟨g, h.noted (.inl rfl)⟩
  · rename_i hrunning
    split
    · exact ⟨g, h⟩
    · rename_i hstopped
      refine ⟨{ g with workOn := time, workOff := none, workEnd := 0 }, ?_⟩
      have hwatch : g.watch (.permitted a.runState time) =
          some { g with workOn := time, workOff := none, workEnd := 0 } :=
        if_pos (not_not.mp hrunning)
      exact
        { log := watchAll_concat h.log hwatch
          error := h.error
          workEnd := (workEnd_concat a.log (.permitted a.runState time)).symm
          clock := (clock_concat ..).symm ▸ h.clock
          work := fun _ => ⟨Bool.not_eq_true _ ▸ hstopped, rfl, nofun⟩
          started := fun hs => hs.elim nofun nofun }

theorem Guarded.switchSafe (h : Guarded c a g) {time : ℕ}
    (hr : CarefulRequest a (.switchSafe time)) : ∃ g', Guarded c (a.switchSafe time) g' := by
  simp only [CriticalActivity.switchSafe]
  by_cases hstopped : a.stoppedByError = true
  · simp only [hstopped, if_true, decide_true]
    split
    · exact ⟨g, h.noted (.inl rfl)⟩
    · exact ⟨g, h⟩
  · obtain ⟨hstate, htime, hend⟩ := hr.resolve_left hstopped
    have hstopped : a.stoppedByError = false := by simpa using hstopped
    have hwork : RunState.running < a.runState := by
      rw [lt_iff_rank] at hstate ⊢
      exact Nat.lt_of_lt_of_le (by decide) (Nat.not_lt.mp hstate)
    obtain ⟨-, hon, hoff⟩ := h.work hwork
    simp only [hstopped, Bool.false_eq_true, if_false, if_neg hstate]
    -- the guard keeps the first end that was asked for
    have hwatch : ∃ off, time ≤ off ∧
        g.watch (.withdrawn time) = some { g with workOff := some off } := by
      simp only [Guard.watch, hon]
      cases hgoff : g.workOff with
      | none => exact ⟨time, Nat.le_refl _, if_pos (h.workEnd ▸ hend)⟩
      | some off => exact ⟨off, Nat.le_trans htime (hoff off hgoff), by simp only [← hgoff, ← hon]⟩
    obtain ⟨off, hle, hwatch⟩ := hwatch
    refine ⟨{ g with workOff := some off }, ?_⟩
    exact
      { log := watchAll_concat h.log hwatch
        error := hstopped ▸ h.error
        workEnd := (workEnd_concat ..).symm ▸ h.workEnd
        clock := (clock_concat ..).symm ▸ h.clock
        work := fun _ => ⟨rfl, hon, fun off' hoff' => Option.some.inj hoff' ▸ hle⟩
        started := fun hs => hs.elim nofun nofun }

/-- A careful request is let pass. -/
theorem Guarded.request (h : Guarded c a g) (hr : CarefulRequest a r) :
    ∃ g', Guarded c (a.request r) g' := by
  cases r with
  | switchOn time => exact ⟨g, h.rests rfl rfl (show ¬ RunState.running < .ready by decide)⟩
  | switchOff time => exact ⟨g, h.rests rfl rfl (show ¬ RunState.running < .braking by decide)⟩
  | switchWork time => exact h.switchWork time
  | switchSafe time => exact h.switchSafe hr
  | criticalError => exact h.criticalError
  | criticalErrorNodeWide =>
    simp only [CriticalActivity.request]
    split
    · exact h.nodeUnsafe
    · exact ⟨g, h⟩

theorem Guarded.requests {rs : List Request} (h : Guarded c a g) (hrs : CarefulRequests a rs) :
    ∃ g', Guarded c (rs.foldl CriticalActivity.request a) g' := by
  induction rs generalizing a g with
  | nil => exact ⟨g, h⟩
  | cons r rs ih =>
    obtain ⟨g', h'⟩ := h.request hrs.1
    exact ih h' hrs.2

/-! ### Calls of the callbacks -/

theorem Guarded.callSafe (h : Guarded c a g) (hf : CarefulCall a .safe t f) :
    ∃ g', Guarded c (a.call .safe t f) g' :=
  (h.noted (.inr ⟨t, rfl⟩)).requests hf

/-- The work callback is called in the permitted time, and before any error. -/
theorem Guarded.noteWork (h : Guarded c a g) (hstopped : a.stoppedByError = false)
    (hsafe : a.nodeSafe = true) (hgon : g.workOn = some a.workOn)
    (hon : a.workOn ≤ t.validityStart)
    (hoff : ∀ off, g.workOff = some off → t.validityEnd ≤ off) :
    Guarded c (a.note (.called .work t)) { g with workEnd := t.validityEnd } := by
  have herror : g.errorSeen = false := by
    rw [h.error, hstopped, hsafe]
    rfl
  have hwatch : g.watch (.called .work t) = some { g with workEnd := t.validityEnd } := by
    refine if_pos ?_
    rw [herror, hgon]
    cases hgoff : g.workOff with
    | none => simpa using hon
    | some off => simpa using ⟨hon, hoff off hgoff⟩
  exact
    { log := watchAll_concat h.log hwatch
      error := h.error
      workEnd := (workEnd_concat a.log (.called .work t)).symm
      clock := (clock_concat ..).symm ▸ h.clock
      work := h.work
      started := h.started }

theorem Guarded.runSafe (h : Guarded c a g) (hf : CarefulCall a .safe t f) :
    ∃ g', Guarded c (a.runSafe t f) g' := by
  obtain ⟨g', h'⟩ := h.callSafe hf
  simp only [CriticalActivity.runSafe]
  split
  · exact h'.nodeUnsafe
  · split
    · exact ⟨g', h'.rests rfl rfl (show ¬ RunState.running < .running by decide)⟩
    · exact ⟨g', h'⟩

theorem Guarded.runWork (h : Guarded c a g) (hwork : RunState.running < a.runState)
    (hsafe : a.nodeSafe = true) (hon : a.workOn ≤ t.validityStart)
    (hoff : t.validityEnd ≤ a.workOff) (hf : CarefulCall a .work t f) :
    ∃ g', Guarded c (a.runWork t f) g' := by
  obtain ⟨hstopped, hgon, hgoff⟩ := h.work hwork
  have hnote := h.noteWork hstopped hsafe hgon hon fun off h => Nat.le_trans hoff (hgoff off h)
  obtain ⟨g', h'⟩ := hnote.requests hf
  simp only [CriticalActivity.runWork]
  split
  · exact h'.criticalError
  · split
    · exact ⟨g', h'.rests rfl rfl (show ¬ RunState.running < .running by decide)⟩
    · exact ⟨g', h'⟩

/-! ### The first work -/

/-- What holds in the callbacks with which the work starts, in whatever run state they
leave the activity: the work is permitted from `on`, and no error was flagged here. -/
structure Starting (on : ℕ) (a : CriticalActivity) (g : Guard) : Prop where
  state : a.runState ≠ .running
  stopped : a.stoppedByError = false
  workOn : a.workOn = on
  permitted : g.workOn = some on
  workOff : ∀ off, g.workOff = some off → a.workOff ≤ off

theorem Starting.request {on : ℕ} (hs : Starting on a g) (h : Guarded c a g) (hr : CarefulRequest a r)
    (herror : r ≠ .criticalError) :
    ∃ g', Guarded c (a.request r) g' ∧ Starting on (a.request r) g' := by
  obtain ⟨hstate, hstopped, hon, hgon, hoff⟩ := hs
  cases r with
  | switchOn time =>
    exact ⟨g, h.rests rfl rfl (show ¬ RunState.running < .ready by decide), nofun, hstopped, hon,
      hgon, hoff⟩
  | switchOff time =>
    exact ⟨g, h.rests rfl rfl (show ¬ RunState.running < .braking by decide), nofun, hstopped, hon,
      hgon, hoff⟩
  | switchWork time =>
    simp only [CriticalActivity.request, CriticalActivity.switchWork, ne_eq, hstate,
      not_false_eq_true, if_true]
    exact ⟨g, h.noted (.inl rfl), hstate, hstopped, hon, hgon, hoff⟩
  | switchSafe time =>
    obtain ⟨g', h'⟩ := h.switchSafe hr
    obtain ⟨hwork, -⟩ := hr.resolve_left (by simp [hstopped])
    have hbraking : (a.switchSafe time).runState = .brakingWork ∧
        (a.switchSafe time).workOn = on := by
      simp only [CriticalActivity.switchSafe, hstopped, if_neg hwork]
      exact ⟨rfl, hon⟩
    obtain ⟨hstopped', hon', hoff'⟩ := h'.work (hbraking.1 ▸ by decide)
    exact ⟨g', h', by simp [CriticalActivity.request, hbraking.1], hstopped', hbraking.2,
      hbraking.2 ▸ hon', hoff'⟩
  | criticalError => exact absurd rfl herror
  | criticalErrorNodeWide =>
    simp only [CriticalActivity.request]
    split
    · exact ⟨_, h.marked rfl (Bool.or_true _) fun _ => ⟨rfl, rfl, rfl, rfl⟩, hstate, hstopped, hon,
        hgon, hoff⟩
    · exact ⟨g, h, hstate, hstopped, hon, hgon, hoff⟩

theorem Starting.requests {on : ℕ} {rs : List Request} (hs : Starting on a g) (h : Guarded c a g)
    (hrs : CarefulRequests a rs) (herror : .criticalError ∉ rs) :
    ∃ g', Guarded c (rs.foldl CriticalActivity.request a) g' ∧
      Starting on (rs.foldl CriticalActivity.request a) g' := by
  induction rs generalizing a g with
  | nil => exact ⟨g, h, hs⟩
  | cons r rs ih =>
    obtain ⟨hr, hrest⟩ := hrs
    obtain ⟨hne, hnot⟩ := not_or.mp (mt List.mem_cons.mpr herror)
    obtain ⟨g', h', hs'⟩ := hs.request h hr (Ne.symm hne)
    exact ih hs' h' hrest hnot

theorem nodeSafe_request (hr : r ≠ .criticalErrorNodeWide) :
    (a.request r).nodeSafe = a.nodeSafe := by
  cases r with
  | switchOn time | switchOff time => rfl
  | switchWork time =>
    simp only [CriticalActivity.request, CriticalActivity.switchWork]
    split
    · rfl
    · split <;> rfl
  | switchSafe time =>
    simp only [CriticalActivity.request, CriticalActivity.switchSafe]
    split <;> split <;> rfl
  | criticalError =>
    simp only [CriticalActivity.request, CriticalActivity.criticalError]
    split <;> rfl
  | criticalErrorNodeWide => exact absurd rfl hr

theorem nodeSafe_requests {rs : List Request} (hrs : .criticalErrorNodeWide ∉ rs) :
    (rs.foldl CriticalActivity.request a).nodeSafe = a.nodeSafe := by
  induction rs generalizing a with
  | nil => rfl
  | cons r rs ih =>
    obtain ⟨hne, hnot⟩ := not_or.mp (mt List.mem_cons.mpr hrs)
    exact (ih hnot).trans (nodeSafe_request (Ne.symm hne))

/-- The first work callback leaves the activity at work, or stopped by an error. -/
theorem Starting.startWork {on : ℕ} (hs : Starting on a g) (h : Guarded c a g)
    (hsafe : a.nodeSafe = true) (hon : on ≤ t.validityStart)
    (hoff : ∀ off, g.workOff = some off → t.validityEnd ≤ off) (hc : on ≤ c)
    (hf : CarefulStart a t f) : ∃ g', Guarded c (a.startWork t f) g' := by
  obtain ⟨hstate, hstopped, haon, hgon, hgoff⟩ := hs
  have hnote := h.noteWork hstopped hsafe (haon ▸ hgon) (haon ▸ hon) hoff
  simp only [CriticalActivity.startWork]
  split
  · obtain ⟨g', h'⟩ := hnote.requests hf.1
    exact h'.criticalError
  · rename_i hthrows
    have hstart : Starting on (a.note (.called .work t)) { g with workEnd := t.validityEnd } :=
      ⟨hstate, hstopped, haon, hgon, hgoff⟩
    obtain ⟨g', h', -, hstopped', haon', hgon', hgoff'⟩ :=
      hstart.requests hnote hf.1 (hf.2.resolve_left hthrows)
    exact ⟨g', h'.log, h'.error, h'.workEnd, h'.clock,
      fun _ => ⟨hstopped', hgon'.trans (congrArg some haon'.symm), hgoff'⟩,
      fun _ => Nat.le_trans (Nat.le_of_eq haon') hc⟩

/-! ### A despatch -/

theorem Guarded.nodeReaction (h : Guarded c a g) : Guarded c a.nodeReaction g := by
  simp only [CriticalActivity.nodeReaction]
  split
  · rename_i hnode
    simp only [Bool.and_eq_true, Bool.not_eq_true'] at hnode
    refine h.rests rfl ?_ (not_running_lt_backToSafe a)
    rw [hnode.1, hnode.2]
    rfl
  · exact h

/-- After the reaction to the node an activity at work is on a node that is safe. -/
theorem nodeSafe_nodeReaction (h : Guarded c a g)
    (hwork : RunState.running < a.nodeReaction.runState) : a.nodeReaction.nodeSafe = true := by
  simp only [CriticalActivity.nodeReaction] at hwork ⊢
  split at hwork
  · exact absurd hwork (not_running_lt_backToSafe a)
  · rename_i hnode
    rw [if_neg hnode]
    have hstopped := (h.work hwork).1
    simpa [hstopped] using hnode

theorem Guarded.mono (h : Guarded c a g) {c' : ℕ} (hc : c ≤ c') : Guarded c' a g :=
  { h with started := fun hs => Nat.le_trans (h.started hs) hc }

/-- What the callbacks for a span preserve; together they are given the span. -/
theorem Guarded.invoke (h : Guarded t.validityEnd a g)
    (hsafe : RunState.running < a.runState → a.nodeSafe = true)
    (hrunning : a.runState = .runningWork → a.workOn ≤ t.validityStart)
    (hf : CarefulInvoke a t fsafe fwork) (idle : Bool) :
    ∃ g', Guarded t.validityEnd (a.invoke t fsafe fwork).1 g' ∧
      Shares idle t (a.invoke t fsafe fwork).2 = true := by
  simp only [CarefulInvoke] at hf
  simp only [CriticalActivity.invoke]
  split
  · rename_i hlow
    rw [if_pos hlow] at hf
    obtain ⟨g', h'⟩ := h.runSafe hf
    exact ⟨g', h', by simp [Shares]⟩
  · rename_i hlow
    rw [if_neg hlow] at hf
    split
    · rename_i hhigh
      rw [if_pos hhigh] at hf
      obtain ⟨hon, hoff, hcall⟩ := hf
      have hwork : RunState.running < a.runState := Nat.lt_trans (by decide) hhigh
      have hon' : a.workOn ≤ t.validityStart := by
        by_cases hs : a.runState = .runningWork
        · exact hrunning hs
        · exact hon hs
      obtain ⟨g', h'⟩ := h.runWork hwork (hsafe hwork) hon' hoff hcall
      exact ⟨g', h', by simp [Shares]⟩
    · rename_i hhigh
      rw [if_neg hhigh] at hf
      have hfirst : a.runState = .firstWork := by
        rw [lt_iff_rank] at hlow hhigh
        revert hlow hhigh
        cases a.runState <;> simp [RunState.rank]
      have hwork : RunState.running < a.runState := hfirst ▸ by decide
      obtain ⟨hstopped, hgon, hgoff⟩ := h.work hwork
      have hstate : a.runState ≠ .running := by simp [hfirst]
      have hstart : Starting a.workOn a g := ⟨hstate, hstopped, rfl, hgon, hgoff⟩
      split
      · -- the span straddles the start of the work
        rename_i hstraddles
        rw [if_pos hstraddles] at hf
        obtain ⟨hcall, hthrows, herror, hnode, hoff, hwcall⟩ := hf
        have hnote := h.noted (.inr ⟨⟨t.validityStart, a.workOn⟩, rfl⟩)
        have hnoted : Starting a.workOn
            (a.note (.called .safe ⟨t.validityStart, a.workOn⟩)) g := ⟨hstate, hstopped, rfl, hgon, hgoff⟩
        obtain ⟨g', h', hs'⟩ := hnoted.requests hnote hcall herror
        have hsafe' := (nodeSafe_requests (a := a.note (.called .safe ⟨t.validityStart, a.workOn⟩))
          hnode).trans (hsafe hwork)
        rw [if_neg (by simp [hthrows])]
        have hon' : (a.call .safe ⟨t.validityStart, a.workOn⟩ fsafe).workOn = a.workOn := hs'.workOn
        rw [hon'] at hwcall ⊢
        obtain ⟨g'', h''⟩ := hs'.startWork (t := ⟨a.workOn, t.validityEnd⟩) h' hsafe'
          (Nat.le_refl _) (fun off hgoff' => Nat.le_trans hoff (hs'.workOff off hgoff'))
          (h.started (.inl hfirst)) hwcall
        refine ⟨g'', h'', ?_⟩
        simp [Shares]
      · rename_i hstraddles
        rw [if_neg hstraddles] at hf
        obtain ⟨g', h'⟩ := hstart.startWork h (hsafe hwork) (Nat.not_lt.mp hstraddles)
          (fun off hgoff' => Nat.le_trans hf.1 (hgoff off hgoff')) (h.started (.inl hfirst)) hf.2
        exact ⟨g', h', by simp [Shares]⟩

/-- What the run state becomes for a span, or that no callback is due. -/
theorem transition_cases (a : CriticalActivity) (t : TimeSpec) :
    (∃ s, a.transition t = .error { a with runState := s } ∧ a.Idle t ∧
      ¬ RunState.running < s) ∨
    ∃ s, a.transition t = .ok { a with runState := s } ∧
      (s = a.runState ∨ s = .last ∨ s = .firstWork ∧ a.runState = .readyWork ∧
        (a.workOn ≤ t.validityStart ∨ a.workOn < t.validityEnd) ∨
        s = .lastWork ∧ a.runState = .brakingWork) := by
  have hlast : ∃ s, a.lastCycle t = { a with runState := s } ∧ (s = a.runState ∨ s = .last) := by
    simp only [lastCycle]
    split
    · exact ⟨_, rfl, .inr rfl⟩
    · exact ⟨_, rfl, .inl rfl⟩
  obtain ⟨s, hs, hcase⟩ := hlast
  simp only [transition]
  cases hstate : a.runState with
  | off => exact .inl ⟨_, rfl, .inl hstate, by decide⟩
  | last => exact .inl ⟨_, rfl, .inr (.inl hstate), by decide⟩
  | ready =>
    simp only
    split
    · rename_i hearly
      exact .inl ⟨a.runState, rfl, .inr (.inr ⟨hstate, hearly⟩), hstate ▸ by decide⟩
    · exact .inr ⟨s, by rw [hs], hcase.elim (fun h => .inl (h.trans hstate)) fun h => .inr (.inl h)⟩
  | braking =>
    exact .inr ⟨s, by rw [hs], hcase.elim (fun h => .inl (h.trans hstate)) fun h => .inr (.inl h)⟩
  | readyWork =>
    simp only
    split
    · rename_i hstarts
      exact .inr ⟨_, rfl, .inr (.inr (.inl ⟨rfl, trivial, hstarts⟩))⟩
    · exact .inr ⟨a.runState, rfl, .inl hstate⟩
  | brakingWork =>
    simp only
    split
    · exact .inr ⟨_, rfl, .inr (.inr (.inr ⟨rfl, trivial⟩))⟩
    · exact .inr ⟨a.runState, rfl, .inl hstate⟩
  | running | firstWork | runningWork | lastWork => exact .inr ⟨a.runState, rfl, .inl hstate⟩

/-- A careful despatch is let pass, up to its end. -/
theorem Guarded.despatch (h : Guarded g.clock a g)
    (hf : Careful a (.despatch t fsafe fwork)) :
    ∃ g', Guarded g'.clock (a.despatch t fsafe fwork) g' := by
  obtain ⟨hordered, hspan, hinvoke⟩ := hf
  rw [← h.clock] at hordered
  have hreact := h.nodeReaction
  have hsafe := nodeSafe_nodeReaction h
  have hend : g.clock ≤ t.validityEnd := Nat.le_trans hordered hspan
  simp only [CriticalActivity.despatch]
  generalize a.nodeReaction = b at *
  -- the span goes into the log last
  have hdone : ∀ (b' : CriticalActivity) (g' : Guard) (calls : List (Mode × TimeSpec)),
      Guarded t.validityEnd b' g' → Shares (decide (b.Idle t)) t calls = true →
      ∃ g'', Guarded g''.clock (b'.note (.despatched (decide (b.Idle t)) t calls)) g'' := by
    intro b' g' calls h' hshares
    refine ⟨{ g' with clock := t.validityEnd }, ?_⟩
    exact
      { log := watchAll_concat h'.log (if_pos hshares)
        error := h'.error
        workEnd := (workEnd_concat ..).symm ▸ h'.workEnd
        clock := (clock_concat b'.log (.despatched (decide (b.Idle t)) t calls)).symm
        work := h'.work
        started := h'.started }
  obtain ⟨s, htransition, hidle, hrests⟩ | ⟨s, htransition, hstate⟩ := transition_cases b t
  · rw [htransition]
    exact hdone _ g _ ((hreact.mono hend).rests rfl rfl hrests) (decide_eq_true hidle)
  · rw [htransition] at hinvoke ⊢
    have hs : Guarded t.validityEnd { b with runState := s } g ∧
        (RunState.running < s → b.nodeSafe = true) ∧
        (s = .runningWork → b.workOn ≤ t.validityStart) := by
      obtain rfl | rfl | ⟨rfl, hready, hstarts⟩ | ⟨rfl, hbraking⟩ := hstate
      · exact ⟨hreact.mono hend, hsafe, fun hs =>
          Nat.le_trans (hreact.started (.inr hs)) hordered⟩
      · exact ⟨(hreact.mono hend).rests rfl rfl (show ¬ RunState.running < RunState.last by decide),
          fun hs => absurd hs (by decide), nofun⟩
      · have hwork := hreact.work (hready ▸ by decide)
        have hon : b.workOn ≤ t.validityEnd := by omega
        exact ⟨{ hreact with work := fun _ => hwork, started := fun _ => hon },
          fun _ => hsafe (hready ▸ by decide), nofun⟩
      · have hwork := hreact.work (hbraking ▸ by decide)
        exact ⟨{ hreact with work := fun _ => hwork, started := fun hs => hs.elim nofun nofun },
          fun _ => hsafe (hbraking ▸ by decide), nofun⟩
    obtain ⟨hguarded, hnode, hrunning⟩ := hs
    obtain ⟨g', h', hshares⟩ := hguarded.invoke hnode hrunning hinvoke (decide (b.Idle t))
    exact hdone _ g' _ h' hshares

/-- A request is no despatch. -/
theorem clock_request (a : CriticalActivity) (r : Request) :
    Activity.clock (a.request r).log = Activity.clock a.log := by
  cases r with
  | switchOn time | switchOff time => rfl
  | switchWork time =>
    simp only [CriticalActivity.request, CriticalActivity.switchWork]
    split
    · exact clock_concat ..
    · split
      · rfl
      · exact clock_concat ..
  | switchSafe time =>
    simp only [CriticalActivity.request, CriticalActivity.switchSafe]
    split <;> split <;> first | rfl | exact clock_concat ..
  | criticalError =>
    simp only [CriticalActivity.request, CriticalActivity.criticalError]
    split
    · rfl
    · exact clock_concat ..
  | criticalErrorNodeWide =>
    simp only [CriticalActivity.request]
    split
    · exact clock_concat ..
    · rfl

theorem Guarded.step (h : Guarded g.clock a g) {i : ActivityInput} (hi : Careful a i)
    (hstep : activityStep a i = .ok a') : ∃ g', Guarded g'.clock a' g' := by
  cases i with
  | request r =>
    obtain rfl := Except.ok.inj hstep
    obtain ⟨g', h'⟩ := h.request hi
    have hclock : g'.clock = g.clock := by rw [h'.clock, clock_request, h.clock]
    exact ⟨g', hclock ▸ h'⟩
  | despatch t fsafe fwork =>
    obtain rfl := Except.ok.inj hstep
    exact h.despatch hi

/-! ### The claim -/

/-- Over every careful run the activity works only when allowed, and never after an
error. -/
theorem worksWhenAllowed_of_run (ins : List ActivityInput)
    (hok : Allowed activityStep Careful {} ins) : WorksWhenAllowed ins := by
  intro a ha
  have hstart : ∃ g : Guard, Guarded g.clock {} g :=
    ⟨{}, rfl, rfl, rfl, rfl, fun hw => absurd hw (by decide), fun hs => hs.elim nofun nofun⟩
  obtain ⟨g, hg⟩ := exec_invariant (I := fun a => ∃ g : Guard, Guarded g.clock a g)
    (fun _ _ _ hI hi hs => hI.elim fun _ hg => hg.step hi hs) hstart hok ha
  exact Option.isSome_of_eq_some hg.log

/-- Switched on, at work from tick 15 to tick 40, and back to safe. -/
theorem worksWhenAllowed_one_stretch :
    WorksWhenAllowed [.request (.switchOn 0), .despatch ⟨0, 10⟩ {} {}, .request (.switchWork 15),
      .despatch ⟨10, 20⟩ {} {}, .despatch ⟨20, 30⟩ {} {}, .request (.switchSafe 40),
      .despatch ⟨30, 40⟩ {} {}, .despatch ⟨40, 50⟩ {} {}] := by
  apply worksWhenAllowed_of_run
  refine (allowed_cons_ok rfl).mpr ⟨trivial, ?_⟩
  refine (allowed_cons_ok rfl).mpr ⟨⟨by decide, by decide, trivial⟩, ?_⟩
  refine (allowed_cons_ok rfl).mpr ⟨trivial, ?_⟩
  -- the span straddles the start of the work
  refine (allowed_cons_ok rfl).mpr ⟨⟨by decide, by decide, ⟨trivial, rfl, nofun, nofun, by decide,
    trivial, .inr nofun⟩⟩, ?_⟩
  refine (allowed_cons_ok rfl).mpr ⟨⟨by decide, by decide, ⟨fun _ => by decide, by decide,
    trivial⟩⟩, ?_⟩
  refine (allowed_cons_ok rfl).mpr ⟨.inr ⟨by decide, by decide, by decide⟩, ?_⟩
  refine (allowed_cons_ok rfl).mpr ⟨⟨by decide, by decide, ⟨fun _ => by decide, by decide,
    trivial⟩⟩, ?_⟩
  exact (allowed_cons_ok rfl).mpr ⟨⟨by decide, by decide, trivial⟩, trivial⟩

/-- A refused `switchSafe` sends an activity that runs safe to work, and one that is off
as well. An error flagged in the first work callback does not stop the work, nor does
one in the safe part of a span that straddles its start. -/
theorem not_worksWhenAllowed_refused :
    ¬ WorksWhenAllowed [.request (.switchOn 0), .despatch ⟨0, 10⟩ {} {},
      .request (.switchSafe 20), .despatch ⟨10, 20⟩ {} {}] ∧
    ¬ WorksWhenAllowed [.request (.switchOn 0), .despatch ⟨0, 10⟩ {} {},
      .request (.switchWork 10), .despatch ⟨10, 20⟩ {} ⟨[.criticalError], false⟩,
      .despatch ⟨20, 30⟩ {} {}] ∧
    ¬ WorksWhenAllowed [.request (.switchOn 0), .despatch ⟨0, 10⟩ {} {},
      .request (.switchWork 15), .despatch ⟨10, 20⟩ ⟨[.criticalError], false⟩ {}] ∧
    ¬ WorksWhenAllowed [.request (.switchOn 0), .despatch ⟨0, 10⟩ {} {},
      .request (.switchWork 50), .request (.switchSafe 60), .despatch ⟨10, 20⟩ {} {}] := by
  refine ⟨?_, ?_, ?_, ?_⟩ <;>
    (intro h
     exact absurd (h _ rfl) (by decide))

end Dueca.Activity
