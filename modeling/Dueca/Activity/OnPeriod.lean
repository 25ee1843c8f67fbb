import Dueca.Activity.Callback

/-!
# On-periods of an activity

An activity ought to run in its on-periods only, and in each of them for all that is triggered in
it. A trigger tests and cuts its span by the on-period at that time, a despatch tests by the one
in force later. So a span that is still scheduled when the activity is switched on again may reach
over the new start, one that is scheduled when the activity is switched off may reach over the new
end and is then dropped as a whole, and a second `switchOff` starts a stopped activity again.

Nothing of this happens if the activity is switched when what is scheduled does not reach over the
time at which it is switched.
-/

namespace Dueca.Activity

open Dueca.Lib
open Dueca.Trigger (DataTimeSpec PeriodicTimeSpec Kind Fault toTick ending grid jumpEnd Near)

namespace OnPeriod

/-- The spans passed to the callback. -/
def passed (p : OnPeriod) : List DataTimeSpec := p.calls.map Call.ts

/-- The triggered spans, cut to the period. -/
def parts (p : OnPeriod) : List DataTimeSpec := p.triggered.filterMap (cut p.start p.stop)

/-- No call threw. -/
def Fine (p : OnPeriod) : Prop := ∀ c ∈ p.calls, c.threw = false

/-- Each span is in the period in force; after one that reaches the end, or for which the callback
threw, there is none. -/
structure Proper (p : OnPeriod) : Prop where
  within : ∀ c ∈ p.calls, c.switchOn = p.start ∧ c.ts.validityStart ≤ c.ts.validityEnd ∧
    c.switchOn ≤ c.ts.validityStart ∧ c.ts.validityEnd ≤ c.switchOff
  ends : p.calls.Pairwise fun c c' =>
    c.threw = false ∧ c.ts.validityEnd < c.switchOff ∧ c.ts.validityEnd < c'.switchOff

/-- The spans passed to the callback are the triggered ones, cut to the period. -/
def Complete (p : OnPeriod) : Prop := p.Fine → p.passed = p.parts

end OnPeriod

/-- The calls as they ought to be. -/
structure RunsInPeriods (a : ActivityCallback) : Prop where
  proper : ∀ p ∈ a.finished ++ [a.period], p.Proper
  complete : a.timeSpec = none → ∀ p ∈ a.finished, p.Complete
  passed : a.timeSpec = none → a.period.Fine → a.period.passed <+: a.period.parts
  done : a.timeSpec = none → a.queue = [] → a.period.Complete

/-- Spans are triggered one after another. -/
def InOrder (a : ActivityCallback) : CallbackInput → Prop
  | .switchOn t => t ≤ maxTimetick
  | .switchOff t => t ≤ maxTimetick
  | .trigger t => a.lastEnd ≤ t.validityStart ∧ t.validityStart ≤ t.validityEnd ∧
      t.validityEnd ≤ maxTimetick
  | .despatch _ => True

/-- A span does not reach over this time, and is no event at it. -/
def BesideOf (t : ℕ) (x : DataTimeSpec) : Prop :=
  x.validityStart < t ∧ x.validityEnd ≤ t ∨ t ≤ x.validityStart ∧ t < x.validityEnd

/-- `switchOn`: without a periodic time specification all that is scheduled is before the new
start, and nothing of it would still have been run. With one, its spans are before the new start or
after it, unless the activity is switched on in the first period. -/
def TimelyOn (a : ActivityCallback) (t : ℕ) : Prop :=
  (a.timeSpec = none →
    (∀ x ∈ a.queue, x.validityStart < t ∧ x.validityEnd ≤ t) ∧
    (a.period.ended = true ∨
      ∀ x ∈ a.queue, x.validityStart < a.switchOnTime ∨ a.switchOffTime < x.validityEnd)) ∧
  ∀ ts ∈ a.timeSpec, Near ts.validityEnd ts.period t ∧
    (t < ts.period → ∀ x ∈ a.queue, x.validityStart < t → x.validityEnd ≤ t)

/-- `switchOff`: after the period is over nothing that is scheduled, or is still to come, is before
the new end. Otherwise what is scheduled from before the period is not, and without a periodic time
specification no span of the period reaches over the new end, or is cut by an earlier one. -/
def TimelyOff (a : ActivityCallback) (t : ℕ) : Prop :=
  (a.period.ended = true →
    (∀ x ∈ a.queue, t < x.validityEnd) ∧ (t ≤ a.lastEnd ∨ t ≤ a.switchOnTime)) ∧
  (a.period.ended = false →
    (∀ x ∈ a.queue, x.validityStart < a.switchOnTime → t < x.validityEnd) ∧
    (a.timeSpec = none →
      (∀ x ∈ a.period.passed, x.validityStart < t ∧ x.validityEnd ≤ t) ∧
      (∀ x ∈ a.queue, a.switchOnTime ≤ x.validityStart → BesideOf t x) ∧
      (a.switchOffTime < t → ∀ x ∈ a.period.triggered,
        x.validityStart < a.switchOffTime ∧ x.validityEnd ≤ a.switchOffTime)))

/-- The activity is switched at a good time. A trigger does not end with the tick that stands for
no end, and its sums do not exceed a tick. If the callback throws, no event at tick zero is
scheduled. -/
def Timely (a : ActivityCallback) : CallbackInput → Prop
  | .switchOn t => TimelyOn a t
  | .switchOff t => TimelyOff a t
  | .trigger t => t.validityEnd < maxTimetick ∧
      ∀ ts ∈ a.timeSpec, Kind.regular.NoWrap ts.validityEnd ts.period t.validityEnd
  | .despatch throws => throws = true → ∀ x ∈ a.queue.tail, 0 < x.validityEnd

instance (t : ℕ) (x : DataTimeSpec) : Decidable (BesideOf t x) :=
  inferInstanceAs (Decidable (_ ∨ _))

instance (a : ActivityCallback) (t : ℕ) : Decidable (TimelyOn a t) :=
  inferInstanceAs (Decidable (_ ∧ _))

instance (a : ActivityCallback) (t : ℕ) : Decidable (TimelyOff a t) :=
  inferInstanceAs (Decidable (_ ∧ _))

instance (a : ActivityCallback) : DecidablePred (InOrder a)
  | .switchOn _ | .switchOff _ => inferInstanceAs (Decidable (_ ≤ _))
  | .trigger _ => inferInstanceAs (Decidable (_ ∧ _ ∧ _))
  | .despatch _ => inferInstanceAs (Decidable True)

instance (a : ActivityCallback) : DecidablePred (Timely a)
  | .switchOn t => inferInstanceAs (Decidable (TimelyOn a t))
  | .switchOff t => inferInstanceAs (Decidable (TimelyOff a t))
  | .trigger t => inferInstanceAs (Decidable (t.validityEnd < maxTimetick ∧
      ∀ ts ∈ a.timeSpec, Kind.regular.NoWrap ts.validityEnd ts.period t.validityEnd))
  | .despatch throws =>
    inferInstanceAs (Decidable (throws = true → ∀ x ∈ a.queue.tail, 0 < x.validityEnd))

/-! ### Between the inputs -/

/-- The spans of the calls, and those scheduled. -/
def ActivityCallback.spans (a : ActivityCallback) : List DataTimeSpec := a.period.passed ++ a.queue

/-- What is scheduled and will be run. -/
def ActivityCallback.due (a : ActivityCallback) : List DataTimeSpec :=
  a.queue.filter fun x =>
    decide (a.switchOnTime ≤ x.validityStart ∧ x.validityEnd ≤ a.switchOffTime)

/-- Spans of a periodic time specification. -/
structure OnGrid (spans : List DataTimeSpec) (ts : PeriodicTimeSpec) : Prop where
  eq_ending : ts = ending ts.validityEnd ts.period
  pos : 0 < ts.period
  le : ts.period ≤ ts.validityEnd
  lt : ts.validityEnd < 2 ^ 32
  items : ∀ x ∈ spans, x.validityStart + ts.period = x.validityEnd ∧
    ∃ k, x.validityEnd + k * ts.period = ts.validityEnd

/-- What holds in all states. -/
structure Base (a : ActivityCallback) : Prop where
  start : a.period.start = a.switchOnTime
  small : a.lastEnd < maxTimetick
  ordered : ∀ x ∈ a.spans, x.validityStart ≤ x.validityEnd ∧ x.validityEnd ≤ a.lastEnd
  sorted : a.spans.Pairwise fun x y => x.validityEnd ≤ y.validityStart
  triggered : ∀ x ∈ a.period.triggered, x.validityStart ≤ x.validityEnd
  onGrid : ∀ ts, a.timeSpec = some ts → OnGrid a.spans ts
  proper : a.period.Proper
  finished : ∀ p ∈ a.finished, p.Proper ∧ (a.timeSpec = none → p.Complete)

/-- The period is over. -/
structure Done (a : ActivityCallback) : Prop where
  ended : a.period.ended = true
  rests : a.runState = .off ∨ a.runState = .last ∨ a.runState = .braking ∧
    (∀ x ∈ a.queue, a.switchOffTime < x.validityEnd) ∧
    (a.switchOffTime ≤ a.lastEnd ∨ a.switchOffTime ≤ a.switchOnTime)
  complete : a.timeSpec = none → a.period.Fine → a.period.passed = a.period.parts ∧
    (a.period.stop ≤ a.lastEnd ∨ a.period.stop ≤ a.period.start)

/-- The run state, and what is scheduled from before the period. -/
inductive Stage (a : ActivityCallback) : Prop
  | ready (hstate : a.runState = .ready) (hoff : a.switchOffTime = maxTimetick)
      (hstale : ∀ x ∈ a.queue, x.validityStart < a.switchOnTime → x.validityEnd ≤ a.switchOnTime)
  | running (hstate : a.runState = .running) (hoff : a.switchOffTime = maxTimetick)
      (hon : a.switchOnTime ≤ a.lastEnd) (hfresh : ∀ x ∈ a.queue, a.switchOnTime ≤ x.validityStart)
  | braking (hstate : a.runState = .braking)
      (hstale : ∀ x ∈ a.queue, x.validityStart < a.switchOnTime → a.switchOffTime < x.validityEnd)

/-- The period is not over. -/
structure Live (a : ActivityCallback) : Prop where
  ended : a.period.ended = false
  stop : a.period.stop = a.switchOffTime
  calls : ∀ c ∈ a.period.calls, c.threw = false ∧ c.ts.validityEnd < c.switchOff
  stage : Stage a
  onGrid : ∀ ts, a.timeSpec = some ts → a.switchOnTime ≤ ts.validityEnd
  complete : a.timeSpec = none → a.period.passed ++ a.due = a.period.parts
  besides : a.timeSpec = none → ∀ x ∈ a.queue, a.switchOnTime ≤ x.validityStart →
    BesideOf a.switchOffTime x
  source : a.timeSpec = none → ∀ x ∈ a.queue, a.switchOnTime ≤ x.validityStart →
    ∃ t ∈ a.period.triggered, x.validityEnd ≤ t.validityEnd

/-- What holds between the inputs of a run. -/
def Inv (a : ActivityCallback) : Prop := Base a ∧ (Done a ∨ Live a)

variable {a : ActivityCallback} {t x : DataTimeSpec} {rest : List DataTimeSpec} {throws : Bool}
variable {time : ℕ}

/-! ### Despatch -/

theorem OnGrid.sublist {spans spans' : List DataTimeSpec} {ts : PeriodicTimeSpec}
    (h : OnGrid spans ts) (hsub : spans' ⊆ spans) : OnGrid spans' ts :=
  { h with items := fun x hx => h.items x (hsub hx) }

theorem despatch_none (hqueue : a.queue = t :: rest)
    (h : ({ a with queue := rest } : ActivityCallback).transition t = none) :
    a.despatch throws = { a with queue := rest } := by
  simp only [ActivityCallback.despatch, hqueue, h]

theorem despatch_some {a' : ActivityCallback} (hqueue : a.queue = t :: rest)
    (h : ({ a with queue := rest } : ActivityCallback).transition t = some a') :
    a.despatch throws = a'.invoke t throws := by
  simp only [ActivityCallback.despatch, hqueue, h]

theorem due_cons (hqueue : a.queue = t :: rest) :
    a.due = if a.switchOnTime ≤ t.validityStart ∧ t.validityEnd ≤ a.switchOffTime then
      t :: ({ a with queue := rest } : ActivityCallback).due
    else ({ a with queue := rest } : ActivityCallback).due := by
  simp only [ActivityCallback.due, hqueue, List.filter_cons, decide_eq_true_eq]

/-- The first span is taken from the queue. -/
theorem Base.take (h : Base a) (hqueue : a.queue = t :: rest) (r : RunState) (ended : Bool) :
    Base { a with queue := rest, runState := r, period := { a.period with ended := ended } } := by
  have hsub : (a.period.passed ++ rest).Sublist a.spans := by
    rw [ActivityCallback.spans, hqueue]
    exact (List.sublist_cons_self t rest).append_left _
  exact
    { h with
      ordered := fun x hx => h.ordered x (hsub.subset hx)
      sorted := h.sorted.sublist hsub
      onGrid := fun ts hts => (h.onGrid ts hts).sublist hsub.subset
      proper := ⟨h.proper.within, h.proper.ends⟩ }

/-- A span that is called does not follow one that reaches its end. -/
theorem Live.before (h : Live a) (hb : Base a) (hqueue : a.queue = t :: rest)
    (hstart : a.switchOnTime ≤ t.validityStart) (hend : t.validityEnd ≤ a.switchOffTime) :
    ∀ c ∈ a.period.calls, c.ts.validityEnd < a.switchOffTime := by
  intro c hc
  have hmem : t ∈ a.queue := hqueue ▸ List.mem_cons_self
  have hcall : c.ts ∈ a.period.passed := List.mem_map_of_mem hc
  have hle : c.ts.validityEnd ≤ t.validityStart :=
    (List.pairwise_append.mp hb.sorted).2.2 c.ts hcall t hmem
  cases hts : a.timeSpec with
  | none =>
    have hbeside := h.besides hts t hmem hstart
    unfold BesideOf at hbeside
    omega
  | some ts =>
    have hgrid := hb.onGrid ts hts
    have hspan := (hgrid.items t (List.mem_append_right _ hmem)).1
    have hpos := hgrid.pos
    omega

/-- The period with one more call. -/
def ActivityCallback.called (a : ActivityCallback) (t : DataTimeSpec) (throws ended : Bool) :
    OnPeriod :=
  { a.period with
    ended := ended
    calls := a.period.calls ++ [⟨t, a.switchOnTime, a.switchOffTime, throws⟩] }

theorem passed_called (ended : Bool) :
    (a.called t throws ended).passed = a.period.passed ++ [t] := by
  simp only [OnPeriod.passed, ActivityCallback.called, List.map_append, List.map_cons, List.map_nil]

theorem fine_called (ended : Bool) :
    (a.called t throws ended).Fine ↔ a.period.Fine ∧ throws = false := by
  simp only [OnPeriod.Fine, ActivityCallback.called, List.mem_append, List.mem_singleton, or_imp,
    forall_and, forall_eq]

theorem Base.call (hb : Base a) (h : Live a) (hqueue : a.queue = t :: rest)
    (hstart : a.switchOnTime ≤ t.validityStart) (hend : t.validityEnd ≤ a.switchOffTime)
    (r : RunState) (off : ℕ) (ended : Bool) :
    Base { a with
      queue := rest, runState := r, switchOffTime := off, period := a.called t throws ended } := by
  have hspans : (a.called t throws ended).passed ++ rest = a.spans := by
    rw [passed_called, ActivityCallback.spans, hqueue, List.append_assoc, List.singleton_append]
  have hle := (hb.ordered t (List.mem_append_right _ (hqueue ▸ List.mem_cons_self))).1
  exact
    { hb with
      ordered := by
        rw [ActivityCallback.spans, hspans]
        exact hb.ordered
      sorted := by
        rw [ActivityCallback.spans, hspans]
        exact hb.sorted
      onGrid := by
        rw [ActivityCallback.spans, hspans]
        exact hb.onGrid
      proper :=
        { within := by
            intro c hc
            rcases List.mem_append.mp hc with hc | hc
            · exact hb.proper.within c hc
            · rw [List.mem_singleton.mp hc]
              exact ⟨hb.start.symm, hle, hstart, hend⟩
          ends := by
            refine List.pairwise_append.mpr ⟨hb.proper.ends, List.pairwise_singleton .., ?_⟩
            intro c hc c' hc'
            rw [List.mem_singleton.mp hc']
            exact ⟨(h.calls c hc).1, (h.calls c hc).2, h.before hb hqueue hstart hend c hc⟩ } }

/-- A callback that throws ends the period. -/
theorem Live.thrown (h : Live a) (hb : Base a) (hqueue : a.queue = t :: rest)
    (hstart : a.switchOnTime ≤ t.validityStart) (hend : t.validityEnd ≤ a.switchOffTime)
    (hrest : ∀ x ∈ rest, 0 < x.validityEnd) :
    Inv { a with
      queue := rest, runState := .braking, switchOffTime := 0, period := a.called t true true } :=
  ⟨hb.call h hqueue hstart hend _ _ _,
    .inl
      { ended := rfl
        rests := .inr (.inr ⟨rfl, hrest, .inl (Nat.zero_le _)⟩)
        complete := fun _ hfine => absurd ((fine_called true).mp hfine).2 nofun }⟩

/-- A call before the end of the period. -/
theorem Live.call (h : Live a) (hb : Base a) (hqueue : a.queue = t :: rest)
    (hstart : a.switchOnTime ≤ t.validityStart) (hend : t.validityEnd < a.switchOffTime) :
    Live { a with
      queue := rest
      runState := if a.runState = .ready then .running else a.runState
      period := a.called t false false } where
  ended := rfl
  stop := h.stop
  calls := by
    intro c hc
    rcases List.mem_append.mp hc with hc | hc
    · exact h.calls c hc
    · rw [List.mem_singleton.mp hc]
      exact ⟨rfl, hend⟩
  stage := by
    have hmem : ∀ x ∈ rest, x ∈ a.queue := fun x hx => hqueue ▸ List.mem_cons_of_mem t hx
    have hfresh : ∀ x ∈ rest, a.switchOnTime ≤ x.validityStart := by
      have hsorted := (List.pairwise_append.mp hb.sorted).2.1
      rw [hqueue] at hsorted
      intro x hx
      have hle := (hb.ordered t (List.mem_append_right _ (hqueue ▸ List.mem_cons_self))).1
      exact hstart.trans (hle.trans ((List.pairwise_cons.mp hsorted).1 x hx))
    have hbound := hb.ordered t (List.mem_append_right _ (hqueue ▸ List.mem_cons_self))
    cases h.stage with
    | ready hstate hoff hstale =>
      exact .running (by simp only [hstate, if_true]) hoff
        (hstart.trans (hbound.1.trans hbound.2)) hfresh
    | running hstate hoff hon hall =>
      exact .running (by rw [hstate]; rfl) hoff hon hfresh
    | braking hstate hstale =>
      exact .braking (by rw [hstate]; rfl) fun x hx => hstale x (hmem x hx)
  onGrid := h.onGrid
  complete := by
    intro hts
    have hparts := h.complete hts
    rw [due_cons hqueue, if_pos ⟨hstart, hend.le⟩] at hparts
    rw [passed_called, List.append_assoc]
    exact hparts
  besides := fun hts x hx => h.besides hts x (hqueue ▸ List.mem_cons_of_mem t hx)
  source := fun hts x hx => h.source hts x (hqueue ▸ List.mem_cons_of_mem t hx)

/-- From the end of the period on nothing is due. -/
theorem Live.due_eq_nil (h : Live a) (hb : Base a) (hqueue : a.queue = t :: rest)
    (hts : a.timeSpec = none) (hend : a.switchOffTime ≤ t.validityEnd) :
    ({ a with queue := rest } : ActivityCallback).due = [] := by
  have hsorted := (List.pairwise_append.mp hb.sorted).2.1
  rw [hqueue] at hsorted
  refine List.filter_eq_nil_iff.mpr fun x hx => ?_
  rw [decide_eq_true_eq]
  rintro ⟨(hon : a.switchOnTime ≤ x.validityStart), (hoff : x.validityEnd ≤ a.switchOffTime)⟩
  have hle := (List.pairwise_cons.mp hsorted).1 x hx
  have hbeside := h.besides hts x (hqueue ▸ List.mem_cons_of_mem t hx) hon
  unfold BesideOf at hbeside
  omega

/-- The call that reaches the end of the period. -/
theorem Live.lastCall (h : Live a) (hb : Base a) (hqueue : a.queue = t :: rest)
    (hstart : a.switchOnTime ≤ t.validityStart) (hend : t.validityEnd = a.switchOffTime) :
    Done { a with queue := rest, runState := .last, period := a.called t false true } where
  ended := rfl
  rests := .inr (.inl rfl)
  complete := by
    intro hts _
    have hbound := hb.ordered t (List.mem_append_right _ (hqueue ▸ List.mem_cons_self))
    refine ⟨?_, .inl ?_⟩
    · have hparts := h.complete hts
      rw [due_cons hqueue, if_pos ⟨hstart, hend.le⟩, h.due_eq_nil hb hqueue hts hend.ge] at hparts
      rw [passed_called]
      exact hparts
    · exact h.stop.trans_le (hend ▸ hbound.2)

/-- A span that ends after the period is not called. -/
theorem Live.late (h : Live a) (hb : Base a) (hqueue : a.queue = t :: rest)
    (hend : a.switchOffTime < t.validityEnd) :
    Done { a with
      queue := rest, runState := .last, period := { a.period with ended := true } } where
  ended := rfl
  rests := .inr (.inl rfl)
  complete := by
    intro hts _
    have hbound := hb.ordered t (List.mem_append_right _ (hqueue ▸ List.mem_cons_self))
    refine ⟨?_, .inl (h.stop.trans_le (hend.le.trans hbound.2))⟩
    have hparts := h.complete hts
    rw [due_cons hqueue, if_neg (by omega), h.due_eq_nil hb hqueue hts hend.le,
      List.append_nil] at hparts
    exact hparts

/-- A span from before the period is skipped. -/
theorem Live.skip (h : Live a) (hqueue : a.queue = t :: rest)
    (hstart : t.validityStart < a.switchOnTime) : Live { a with queue := rest } := by
  have hmem : ∀ x ∈ rest, x ∈ a.queue := fun x hx => hqueue ▸ List.mem_cons_of_mem t hx
  exact
    { h with
      stage := by
        cases h.stage with
        | ready hstate hoff hstale => exact .ready hstate hoff fun x hx => hstale x (hmem x hx)
        | running hstate hoff hon hall =>
          exact .running hstate hoff hon fun x hx => hall x (hmem x hx)
        | braking hstate hstale => exact .braking hstate fun x hx => hstale x (hmem x hx)
      complete := by
        intro hts
        have hparts := h.complete hts
        rw [due_cons hqueue, if_neg (by omega)] at hparts
        exact hparts
      besides := fun hts x hx => h.besides hts x (hmem x hx)
      source := fun hts x hx => h.source hts x (hmem x hx) }

/-- After the period a span is dropped. -/
theorem Done.despatch (h : Done a) (hb : Base a) (hqueue : a.queue = t :: rest) :
    Inv (a.despatch throws) := by
  have hidle : a.runState = .off ∨ a.runState = .last → Inv (a.despatch throws) := by
    intro hstate
    have htrans : ({ a with queue := rest } : ActivityCallback).transition t = none := by
      rcases hstate with hstate | hstate <;> simp only [ActivityCallback.transition, hstate]
    rw [despatch_none hqueue htrans]
    exact ⟨hb.take hqueue _ _, .inl { h with rests := hstate.imp_right .inl }⟩
  obtain hstate | hstate | ⟨hstate, hlate, -⟩ := h.rests
  · exact hidle (.inl hstate)
  · exact hidle (.inr hstate)
  · have hlt := hlate t (hqueue ▸ List.mem_cons_self)
    have htrans : ({ a with queue := rest } : ActivityCallback).transition t = some
        { a with queue := rest, runState := .last, period := { a.period with ended := true } } := by
      simp only [ActivityCallback.transition, hstate, ActivityCallback.lastCycle, hlt.le, if_true]
    rw [despatch_some hqueue htrans, ActivityCallback.invoke, if_neg (not_le.mpr hlt)]
    exact ⟨hb.take hqueue _ _, .inl ⟨rfl, .inr (.inl rfl), h.complete⟩⟩

/-- In the period a span is called, or it is skipped or the last one. -/
theorem Live.despatch (h : Live a) (hb : Base a) (hqueue : a.queue = t :: rest)
    (hrest : throws = true → ∀ x ∈ rest, 0 < x.validityEnd) : Inv (a.despatch throws) := by
  have hmem : t ∈ a.queue := hqueue ▸ List.mem_cons_self
  have hbound := hb.ordered t (List.mem_append_right _ hmem)
  have hsmall := hb.small
  -- a call that does not reach the end
  have hcall : a.switchOnTime ≤ t.validityStart → t.validityEnd < a.switchOffTime →
      Inv (({ a with queue := rest } : ActivityCallback).invoke t throws) := by
    intro hstart hend
    simp only [ActivityCallback.invoke, hend.le, if_true]
    cases throws with
    | true => exact h.thrown hb hqueue hstart hend.le (hrest rfl)
    | false =>
      have hinv : Inv { a with
          queue := rest
          runState := if a.runState = .ready then .running else a.runState
          period := a.called t false false } :=
        ⟨hb.call h hqueue hstart hend.le _ _ _, .inr (h.call hb hqueue hstart hend)⟩
      rw [if_neg Bool.false_ne_true]
      split <;> rename_i hstate
      · simpa only [ActivityCallback.called, hstate, if_true, ← h.ended] using hinv
      · simpa only [ActivityCallback.called, hstate, if_false, ← h.ended] using hinv
  have hlast : a.switchOffTime ≤ t.validityEnd →
      ({ a with queue := rest } : ActivityCallback).lastCycle t =
        { a with queue := rest, runState := .last, period := { a.period with ended := true } } :=
    fun hend => if_pos hend
  have hself : t.validityEnd < a.switchOffTime →
      ({ a with queue := rest } : ActivityCallback).lastCycle t = { a with queue := rest } :=
    fun hend => if_neg (not_le.mpr hend)
  cases h.stage with
  | ready hstate hoff hstale =>
    have hend : t.validityEnd < a.switchOffTime := by omega
    by_cases hskip : t.validityStart < a.switchOnTime ∧ t.validityEnd ≤ a.switchOnTime
    · have htrans : ({ a with queue := rest } : ActivityCallback).transition t = none := by
        simp only [ActivityCallback.transition, hstate]
        rw [if_pos hskip]
      rw [despatch_none hqueue htrans]
      exact ⟨hb.take hqueue _ _, .inr (h.skip hqueue hskip.1)⟩
    · have htrans : ({ a with queue := rest } : ActivityCallback).transition t =
          some (({ a with queue := rest } : ActivityCallback).lastCycle t) := by
        simp only [ActivityCallback.transition, hstate]
        rw [if_neg hskip]
      rw [despatch_some hqueue htrans, hself hend]
      refine hcall ?_ hend
      by_contra hlt
      exact hskip ⟨not_le.mp hlt, hstale t hmem (not_le.mp hlt)⟩
  | running hstate hoff hon hfresh =>
    have htrans : ({ a with queue := rest } : ActivityCallback).transition t =
        some { a with queue := rest } := by
      simp only [ActivityCallback.transition, hstate]
    rw [despatch_some hqueue htrans]
    exact hcall (hfresh t hmem) (by omega)
  | braking hstate hstale =>
    have htrans : ({ a with queue := rest } : ActivityCallback).transition t =
        some (({ a with queue := rest } : ActivityCallback).lastCycle t) := by
      simp only [ActivityCallback.transition, hstate]
    have hfresh : t.validityEnd ≤ a.switchOffTime → a.switchOnTime ≤ t.validityStart := by
      intro hend
      by_contra hstart
      exact absurd (hstale t hmem (not_le.mp hstart)) (not_lt.mpr hend)
    rw [despatch_some hqueue htrans]
    rcases lt_trichotomy t.validityEnd a.switchOffTime with hlt | heq | hgt
    · rw [hself hlt]
      exact hcall (hfresh hlt.le) hlt
    · rw [hlast heq.ge, ActivityCallback.invoke, if_pos heq.le]
      cases throws with
      | true => exact h.thrown hb hqueue (hfresh heq.le) heq.le (hrest rfl)
      | false =>
        exact ⟨hb.call h hqueue (hfresh heq.le) heq.le _ _ _,
          .inl (h.lastCall hb hqueue (hfresh heq.le) heq)⟩
    · rw [hlast hgt.le, ActivityCallback.invoke, if_neg (not_le.mpr hgt)]
      exact ⟨hb.take hqueue _ _, .inl (h.late hb hqueue hgt)⟩

theorem Inv.despatch (h : Inv a)
    (hrest : throws = true → ∀ x ∈ a.queue.tail, 0 < x.validityEnd) : Inv (a.despatch throws) := by
  cases hqueue : a.queue with
  | nil =>
    have hsame : a.despatch throws = a := by simp only [ActivityCallback.despatch, hqueue]
    rwa [hsame]
  | cons t rest =>
    rw [hqueue, List.tail_cons] at hrest
    obtain ⟨hb, h | h⟩ := h
    · exact h.despatch hb hqueue
    · exact h.despatch hb hqueue hrest

/-! ### Switching off -/

theorem Base.switchOff (h : Base a) (time : ℕ) : Base (a.switchOff time) :=
  { h with proper := ⟨h.proper.within, h.proper.ends⟩ }

theorem Done.switchOff (h : Done a) (hqueue : ∀ x ∈ a.queue, time < x.validityEnd)
    (hend : time ≤ a.lastEnd ∨ time ≤ a.switchOnTime) : Done (a.switchOff time) where
  ended := h.ended
  rests := .inr (.inr ⟨rfl, hqueue, hend⟩)
  complete := by
    have hstop : (a.switchOff time).period = a.period := by
      simp only [ActivityCallback.switchOff, h.ended, if_true]
      rw [← h.ended]
    rw [hstop]
    exact h.complete

/-- An earlier end cuts what was cut before. -/
theorem Live.parts_earlier (h : Live a) (hb : Base a) (hts : a.timeSpec = none)
    (hpassed : ∀ x ∈ a.period.passed, x.validityStart < time ∧ x.validityEnd ≤ time)
    (hqueue : ∀ x ∈ a.queue, a.switchOnTime ≤ x.validityStart → BesideOf time x)
    (hle : time ≤ a.switchOffTime) :
    a.period.passed ++ (a.switchOff time).due =
      a.period.triggered.filterMap (cut a.period.start time) := by
  have hcut : a.period.triggered.filterMap (cut a.period.start time) =
      a.period.parts.filterMap (cut a.period.start time) := by
    rw [OnPeriod.parts, List.filterMap_filterMap, h.stop]
    exact List.filterMap_congr fun x hx => (cut_cut (hb.triggered x hx) hle).symm
  rw [hcut, ← h.complete hts, List.filterMap_append]
  congr 1
  · rw [List.filterMap_congr (g := some), List.filterMap_some]
    intro x hx
    obtain ⟨c, hc, rfl⟩ := List.mem_map.mp hx
    obtain ⟨hon, hordered, hstart, -⟩ := hb.proper.within c hc
    obtain ⟨hlt, hend⟩ := hpassed _ hx
    exact cut_self (hon ▸ hstart) hordered hlt hend
  · rw [ActivityCallback.due, ActivityCallback.due, List.filterMap_filter,
      ← List.filterMap_eq_filter]
    refine List.filterMap_congr fun x hx => ?_
    have hordered := (hb.ordered x (List.mem_append_right _ hx)).1
    simp only [Option.guard, decide_eq_true_eq, hb.start, ActivityCallback.switchOff]
    by_cases hstart : a.switchOnTime ≤ x.validityStart
    · obtain ⟨hlt, hend⟩ | ⟨hge, hgt⟩ := hqueue x hx hstart
      · rw [if_pos ⟨hstart, hend⟩, if_pos ⟨hstart, hend.trans hle⟩,
          cut_self hstart hordered hlt hend]
      · rw [if_neg (by omega), cut_eq_none (.inl hge), ite_self]
    · rw [if_neg (by omega), if_neg (by omega)]

/-- A later end does not change what was not cut. -/
theorem Live.parts_later (h : Live a) (hts : a.timeSpec = none)
    (htriggered : ∀ x ∈ a.period.triggered,
      x.validityStart < a.switchOffTime ∧ x.validityEnd ≤ a.switchOffTime)
    (hlt : a.switchOffTime < time) :
    a.period.passed ++ (a.switchOff time).due =
      a.period.triggered.filterMap (cut a.period.start time) := by
  have hcut : a.period.triggered.filterMap (cut a.period.start time) = a.period.parts := by
    rw [OnPeriod.parts, h.stop]
    refine List.filterMap_congr fun x hx => ?_
    obtain ⟨hstart, hend⟩ := htriggered x hx
    exact cut_later hstart hend hlt.le
  have hdue : (a.switchOff time).due = a.due := by
    refine List.filter_congr fun x hx => ?_
    refine decide_eq_decide.mpr (and_congr_right fun hstart => ?_)
    change x.validityEnd ≤ time ↔ x.validityEnd ≤ a.switchOffTime
    obtain ⟨s, hs, hle⟩ := h.source hts x hx hstart
    have hend := (htriggered s hs).2
    omega
  rw [hcut, hdue, h.complete hts]

theorem Live.switchOff (h : Live a) (hb : Base a)
    (hstale : ∀ x ∈ a.queue, x.validityStart < a.switchOnTime → time < x.validityEnd)
    (hplain : a.timeSpec = none →
      (∀ x ∈ a.period.passed, x.validityStart < time ∧ x.validityEnd ≤ time) ∧
      (∀ x ∈ a.queue, a.switchOnTime ≤ x.validityStart → BesideOf time x) ∧
      (a.switchOffTime < time → ∀ x ∈ a.period.triggered,
        x.validityStart < a.switchOffTime ∧ x.validityEnd ≤ a.switchOffTime)) :
    Live (a.switchOff time) := by
  have hstop : (a.switchOff time).period = { a.period with stop := time } := by
    simp only [ActivityCallback.switchOff, h.ended, Bool.false_eq_true, if_false]
  exact
    { ended := h.ended
      stop := by rw [hstop]; rfl
      calls := h.calls
      stage := .braking rfl hstale
      onGrid := h.onGrid
      complete := by
        intro hts
        obtain ⟨hpassed, hqueue, hlater⟩ := hplain hts
        rw [hstop]
        rcases le_or_gt time a.switchOffTime with hle | hlt
        · exact h.parts_earlier hb hts hpassed hqueue hle
        · exact h.parts_later hts (hlater hlt) hlt
      besides := fun hts => (hplain hts).2.1
      source := h.source }

theorem Inv.switchOff (h : Inv a) (htime : TimelyOff a time) :
    Inv (a.switchOff time) := by
  obtain ⟨hb, h | h⟩ := h
  · obtain ⟨hqueue, hend⟩ := htime.1 h.ended
    exact ⟨hb.switchOff time, .inl (h.switchOff hqueue hend)⟩
  · obtain ⟨hstale, hplain⟩ := htime.2 h.ended
    exact ⟨hb.switchOff time, .inr (h.switchOff hb hstale hplain)⟩

/-! ### Triggers -/

/-- The activity with a span triggered, and for it others scheduled. -/
def ActivityCallback.extended (a : ActivityCallback) (t : DataTimeSpec)
    (timeSpec : Option PeriodicTimeSpec) (xs : List DataTimeSpec) : ActivityCallback :=
  { a with
    lastEnd := t.validityEnd
    timeSpec := timeSpec
    queue := a.queue ++ xs
    period := { a.period with triggered := a.period.triggered ++ [t] } }

variable {timeSpec : Option PeriodicTimeSpec} {xs : List DataTimeSpec}

theorem spans_extended : (a.extended t timeSpec xs).spans = a.spans ++ xs :=
  (List.append_assoc ..).symm

theorem due_extended : (a.extended t timeSpec xs).due = a.due ++ xs.filter fun x =>
    decide (a.switchOnTime ≤ x.validityStart ∧ x.validityEnd ≤ a.switchOffTime) :=
  List.filter_append ..

theorem parts_extended : (a.extended t timeSpec xs).period.parts =
    a.period.parts ++ (cut a.period.start a.period.stop t).toList := by
  rw [OnPeriod.parts, OnPeriod.parts, ActivityCallback.extended, List.filterMap_append]
  congr 1

/-- The spans go on from the last one. -/
theorem OnGrid.extend {spans : List DataTimeSpec} {ts : PeriodicTimeSpec} {n last : ℕ}
    (h : OnGrid spans ts) (hlast : last < 2 ^ 32)
    (hreached : 0 < n → ts.validityEnd + n * ts.period ≤ last) :
    OnGrid (spans ++ grid ts.validityEnd ts.period n)
      (ending (ts.validityEnd + n * ts.period) ts.period) where
  eq_ending := rfl
  pos := h.pos
  le := h.le.trans (Nat.le_add_right _ _)
  lt := by
    rcases Nat.eq_zero_or_pos n with rfl | hn
    · rw [Nat.zero_mul]
      exact h.lt
    · exact (hreached hn).trans_lt hlast
  items := by
    intro x hx
    rcases List.mem_append.mp hx with hx | hx
    · obtain ⟨hspan, k, hk⟩ := h.items x hx
      refine ⟨hspan, k + n, ?_⟩
      change x.validityEnd + (k + n) * ts.period = ts.validityEnd + n * ts.period
      rw [← hk]
      ring
    · obtain ⟨i, hi, rfl⟩ := Dueca.Trigger.mem_grid.mp hx
      refine ⟨(Dueca.Trigger.span_of_mem_grid hx).symm, n - (i + 1), ?_⟩
      change ts.validityEnd + (i + 1) * ts.period + (n - (i + 1)) * ts.period =
        ts.validityEnd + n * ts.period
      rw [Nat.add_assoc, ← Nat.add_mul, Nat.add_sub_cancel' hi]

/-- More spans are scheduled, if any. -/
theorem Base.extended (h : Base a)
    (hlast : a.lastEnd ≤ t.validityStart) (hle : t.validityStart ≤ t.validityEnd)
    (hlt : t.validityEnd < maxTimetick) (hnone : timeSpec = none → a.timeSpec = none)
    (hxs : ∀ x ∈ xs, x.validityStart ≤ x.validityEnd ∧ x.validityEnd ≤ t.validityEnd)
    (hsorted : (a.spans ++ xs).Pairwise fun x y => x.validityEnd ≤ y.validityStart)
    (hgrid : ∀ ts, timeSpec = some ts → OnGrid (a.spans ++ xs) ts) :
    Base (a.extended t timeSpec xs) where
  start := h.start
  small := hlt
  ordered := by
    rw [spans_extended]
    intro x hx
    rcases List.mem_append.mp hx with hx | hx
    · exact ⟨(h.ordered x hx).1, (h.ordered x hx).2.trans (hlast.trans hle)⟩
    · exact hxs x hx
  sorted := by
    rw [spans_extended]
    exact hsorted
  triggered := by
    intro x hx
    rcases List.mem_append.mp hx with hx | hx
    · exact h.triggered x hx
    · exact List.mem_singleton.mp hx ▸ hle
  onGrid := by
    rw [spans_extended]
    exact hgrid
  proper := ⟨h.proper.within, h.proper.ends⟩
  finished := fun p hp => ⟨(h.finished p hp).1, fun hts => (h.finished p hp).2 (hnone hts)⟩

/-- After the period nothing is scheduled. -/
theorem Done.trigger (h : Done a) (hb : Base a) (hlast : a.lastEnd ≤ t.validityStart)
    (hle : t.validityStart ≤ t.validityEnd) (hlt : t.validityEnd < maxTimetick) :
    ∃ a', a.trigger t = .ok a' ∧ Inv a' := by
  refine ⟨a.extended t a.timeSpec [], ?_, ?_, .inl ?_⟩
  · rw [ActivityCallback.extended, List.append_nil]
    refine if_neg ?_
    obtain hstate | hstate | ⟨hstate, -, hpast⟩ := h.rests
    · rw [hstate]
      rintro (hrun | ⟨hrun, -⟩) <;> exact hrun (by decide)
    · rw [hstate]
      rintro (hrun | ⟨hrun, -⟩) <;> exact hrun (by decide)
    · rw [hstate]
      rintro (hrun | ⟨-, hin⟩)
      · exact hrun (by decide)
      · rw [isInRunPeriod_iff hle hlt,
          cut_eq_none (hpast.imp_left fun h => h.trans hlast)] at hin
        cases hin
  · refine hb.extended hlast hle hlt id (fun x hx => absurd hx List.not_mem_nil) ?_ ?_
    · rw [List.append_nil]
      exact hb.sorted
    · rw [List.append_nil]
      exact hb.onGrid
  · exact
      { ended := h.ended
        rests := by
          refine h.rests.imp_right (Or.imp_right fun ⟨hstate, hqueue, hpast⟩ => ?_)
          refine ⟨hstate, ?_, hpast.imp_left fun h => h.trans (hlast.trans hle)⟩
          rw [ActivityCallback.extended, List.append_nil]
          exact hqueue
        complete := by
          intro hts hfine
          obtain ⟨hpassed, hstop⟩ := h.complete hts hfine
          rw [parts_extended, cut_eq_none (hstop.imp_left fun h => h.trans hlast)]
          refine ⟨?_, hstop.imp_left fun h => h.trans (hlast.trans hle)⟩
          exact hpassed.trans (List.append_nil _).symm }

/-- In the period more spans are scheduled; without a periodic time specification that is the
part of the trigger in the period. -/
theorem Live.extended (h : Live a) (hb : Base a) (hlast : a.lastEnd ≤ t.validityStart)
    (hle : t.validityStart ≤ t.validityEnd)
    (hxs : ∀ x ∈ xs, a.switchOnTime ≤ x.validityStart)
    (hplain : timeSpec = none →
      a.timeSpec = none ∧ xs = (cut a.switchOnTime a.switchOffTime t).toList)
    (hgrid : ∀ ts, timeSpec = some ts → a.switchOnTime ≤ ts.validityEnd) :
    Live (a.extended t timeSpec xs) := by
  -- what a part of the trigger satisfies
  have hpart : timeSpec = none → ∀ x ∈ xs, cut a.switchOnTime a.switchOffTime t = some x :=
    fun hts x hx => Option.mem_toList.mp ((hplain hts).2 ▸ hx)
  exact
    { ended := h.ended
      stop := h.stop
      calls := h.calls
      stage := by
        cases h.stage with
        | ready hstate hoff hstale =>
          refine .ready hstate hoff fun x hx hlt => ?_
          rcases List.mem_append.mp hx with hx | hx
          · exact hstale x hx hlt
          · exact absurd (hxs x hx) (not_le.mpr hlt)
        | running hstate hoff hon hfresh =>
          refine .running hstate hoff (hon.trans (hlast.trans hle)) fun x hx => ?_
          rcases List.mem_append.mp hx with hx | hx
          · exact hfresh x hx
          · exact hxs x hx
        | braking hstate hstale =>
          refine .braking hstate fun x hx hlt => ?_
          rcases List.mem_append.mp hx with hx | hx
          · exact hstale x hx hlt
          · exact absurd (hxs x hx) (not_le.mpr hlt)
      onGrid := hgrid
      complete := by
        intro hts
        obtain ⟨hnone, heq⟩ := hplain hts
        have hdue : xs.filter (fun x =>
            decide (a.switchOnTime ≤ x.validityStart ∧ x.validityEnd ≤ a.switchOffTime)) = xs := by
          refine List.filter_eq_self.mpr fun x hx => decide_eq_true ?_
          obtain ⟨⟨hstart, -, hend⟩, -⟩ := cut_bounds hle (hpart hts x hx)
          exact ⟨hstart, hend⟩
        rw [due_extended, hdue, parts_extended, ← h.complete hnone, hb.start, h.stop, ← heq,
          List.append_assoc]
        rfl
      besides := by
        intro hts x hx hstart
        rcases List.mem_append.mp hx with hx | hx
        · exact h.besides (hplain hts).1 x hx hstart
        · obtain ⟨⟨-, hlt, hend⟩, -⟩ := cut_bounds hle (hpart hts x hx)
          exact .inl ⟨hlt, hend⟩
      source := by
        intro hts x hx hstart
        rcases List.mem_append.mp hx with hx | hx
        · obtain ⟨s, hs, hsle⟩ := h.source (hplain hts).1 x hx hstart
          exact ⟨s, List.mem_append_left _ hs, hsle⟩
        · obtain ⟨-, -, -, hend⟩ := cut_bounds hle (hpart hts x hx)
          exact ⟨t, List.mem_append_right _ (List.mem_singleton_self t), hend⟩ }

/-- In the period a trigger passes the tests if some of it is in the period. -/
theorem Live.scheduled_iff (h : Live a) (hlast : a.lastEnd ≤ t.validityStart)
    (hle : t.validityStart ≤ t.validityEnd) (hlt : t.validityEnd < maxTimetick) :
    (¬ a.runState < .running ∨
      ¬ a.runState < .ready ∧ isInRunPeriod a.switchOnTime a.switchOffTime t = true) ↔
      (cut a.switchOnTime a.switchOffTime t).isSome := by
  rw [isInRunPeriod_iff hle hlt]
  cases h.stage with
  | ready hstate =>
    rw [hstate]
    refine ⟨fun hrun => ?_, fun hin => .inr ⟨by decide, hin⟩⟩
    exact hrun.elim (fun hrun => absurd (by decide) hrun) And.right
  | running hstate hoff hon =>
    rw [hstate]
    refine ⟨fun _ => ?_, fun _ => .inl (by decide)⟩
    rw [cut, if_pos (by omega)]
    rfl
  | braking hstate =>
    rw [hstate]
    refine ⟨fun hrun => ?_, fun hin => .inr ⟨by decide, hin⟩⟩
    exact hrun.elim (fun hrun => absurd (by decide) hrun) And.right

theorem Live.trigger (h : Live a) (hb : Base a) (hlast : a.lastEnd ≤ t.validityStart)
    (hle : t.validityStart ≤ t.validityEnd) (hlt : t.validityEnd < maxTimetick)
    (hwrap : ∀ ts ∈ a.timeSpec, Kind.regular.NoWrap ts.validityEnd ts.period t.validityEnd) :
    ∃ a', a.trigger t = .ok a' ∧ Inv a' := by
  have hsched := h.scheduled_iff hlast hle hlt
  unfold ActivityCallback.trigger
  cases hts : a.timeSpec with
  | none =>
    -- the part in the period is scheduled
    set xs := (cut a.switchOnTime a.switchOffTime t).toList with hxs
    have hpart : ∀ x ∈ xs, cut a.switchOnTime a.switchOffTime t = some x :=
      fun x hx => Option.mem_toList.mp hx
    have hinv : Inv (a.extended t none xs) := by
      refine ⟨hb.extended hlast hle hlt (fun _ => hts) ?_ ?_ nofun,
        .inr (h.extended hb hlast hle ?_ ?_ nofun)⟩
      · intro x hx
        exact (cut_bounds hle (hpart x hx)).2.2
      · refine List.pairwise_append.mpr ⟨hb.sorted, ?_, fun x hx y hy => ?_⟩
        · rw [hxs]
          cases cut a.switchOnTime a.switchOffTime t with
          | none => exact List.Pairwise.nil
          | some x => exact List.pairwise_singleton ..
        · exact (hb.ordered x hx).2.trans (hlast.trans (cut_bounds hle (hpart y hy)).2.1)
      · exact fun x hx => (cut_bounds hle (hpart x hx)).1.1
      · exact fun _ => ⟨hts, rfl⟩
    refine ⟨_, ?_, hinv⟩
    split_ifs with hrun
    · obtain ⟨x, hx⟩ := Option.isSome_iff_exists.mp (hsched.mp hrun)
      rw [hxs, hx, ← cut_eq_some hx, ActivityCallback.extended]
      rfl
    · rw [hsched, Option.not_isSome_iff_eq_none] at hrun
      rw [hxs, hrun, ActivityCallback.extended, Option.toList_none, List.append_nil]
  | some ts =>
    have hgrid := hb.onGrid ts hts
    have hon := h.onGrid ts hts
    have htrim : (trimToRunPeriod a.switchOnTime a.switchOffTime t).validityEnd ≤ t.validityEnd := by
      rw [trimToRunPeriod_eq]
      exact min_le_right ..
    have hwrap' := hwrap ts hts
    obtain ⟨n, hall, hreached⟩ := scheduleAll_eq (t := trimToRunPeriod a.switchOnTime
      a.switchOffTime t) hgrid.pos ⟨hwrap'.1, (Nat.add_le_add_right htrim _).trans_lt hwrap'.2⟩
    rw [← hgrid.eq_ending] at hall
    split_ifs with hrun
    · simp only [hall]
      refine ⟨_, rfl, hb.extended hlast hle hlt nofun ?_ ?_ ?_,
        .inr (h.extended hb hlast hle ?_ nofun ?_)⟩
      · intro x hx
        have hspan := Dueca.Trigger.span_of_mem_grid hx
        have hend := Dueca.Trigger.end_le_of_mem_grid hx
        have hn : 0 < n := by
          rcases Nat.eq_zero_or_pos n with rfl | hn
          · cases hx
          · exact hn
        have := hreached hn
        omega
      · refine List.pairwise_append.mpr ⟨hb.sorted, Dueca.Trigger.pairwise_grid, ?_⟩
        intro x hx y hy
        obtain ⟨k, hk⟩ := (hgrid.items x hx).2
        have hstart := Dueca.Trigger.le_of_mem_grid hy
        omega
      · rintro _ ⟨⟩
        exact hgrid.extend (lt_of_le_of_lt (htrim.trans hlt.le) (by decide)) hreached
      · intro x hx
        exact hon.trans (Dueca.Trigger.le_of_mem_grid hx)
      · rintro _ ⟨⟩
        exact hon.trans (Nat.le_add_right _ _)
    · refine ⟨a.extended t (some ts) [], ?_,
        hb.extended hlast hle hlt nofun (fun x hx => absurd hx List.not_mem_nil) ?_ ?_,
        .inr (h.extended hb hlast hle (fun x hx => absurd hx List.not_mem_nil) nofun ?_)⟩
      · rw [ActivityCallback.extended, List.append_nil]
      · rw [List.append_nil]
        exact hb.sorted
      · rw [List.append_nil]
        exact hts ▸ hb.onGrid
      · exact hts ▸ h.onGrid

/-! ### Switching on -/

/-- Where a periodic time specification goes on. -/
theorem jumpEnd_eq {e p t : ℕ} (hpe : p ≤ e) (hpt : p ≤ t) :
    jumpEnd e p t = e + (t - e) / p * p := by
  unfold jumpEnd
  split_ifs with het
  · rfl
  · omega
  · rw [Nat.sub_eq_zero_of_le (not_le.mp het).le, Nat.zero_div, Nat.zero_mul, Nat.add_zero]

/-- With a periodic time specification its spans are before the new start, or after it. -/
theorem startAt_eq {spans : List DataTimeSpec} {ts : PeriodicTimeSpec} (h : OnGrid spans ts)
    (htime : time ≤ maxTimetick) (hnear : Near ts.validityEnd ts.period time) :
    ∃ ts' start, ActivityCallback.startAt (some ts) time = .ok (some ts', start) ∧
      OnGrid spans ts' ∧ start ≤ ts'.validityEnd ∧
      ((time < ts.period → ∀ x ∈ spans, x.validityStart < time → x.validityEnd ≤ time) →
        ∀ x ∈ spans, x.validityStart < start → x.validityEnd ≤ start) := by
  have hlt : time < 2 ^ 32 := Nat.lt_succ_of_le htime
  obtain ⟨heq, hpos, hle, hend, hitems⟩ := h
  by_cases hperiod : ts.period ≤ time
  · set n := (time - ts.validityEnd) / ts.period with hn
    have hjump := Dueca.Trigger.forceAdvance_eq hpos hend hlt hnear
    rw [← heq, jumpEnd_eq hle hperiod, ← hn] at hjump
    have hsum : ts.validityEnd + n * ts.period < 2 ^ 32 := by
      have hle := Nat.div_mul_le_self (time - ts.validityEnd) ts.period
      rw [← hn] at hle
      omega
    have hstart : (ending (ts.validityEnd + n * ts.period) ts.period).validityStart =
        ts.validityEnd + n * ts.period - ts.period :=
      (Dueca.Trigger.toTick_sub hsum (hnear.1.trans (by decide))).trans
        (if_pos (hle.trans (Nat.le_add_right _ _)))
    refine ⟨ending (ts.validityEnd + n * ts.period) ts.period,
      (ending (ts.validityEnd + n * ts.period) ts.period).validityStart, ?_,
      ⟨rfl, hpos, hle.trans (Nat.le_add_right _ _), hsum, ?_⟩, ?_, ?_⟩
    · simp only [ActivityCallback.startAt, hperiod, if_true, hjump]
    · intro x hx
      obtain ⟨hspan, k, hk⟩ := hitems x hx
      refine ⟨hspan, k + n, ?_⟩
      change x.validityEnd + (k + n) * ts.period = ts.validityEnd + n * ts.period
      rw [← hk]
      ring
    · rw [hstart]
      exact Nat.sub_le ..
    · rw [hstart]
      intro _ x hx hbefore
      obtain ⟨hspan, k, hk⟩ := hitems x hx
      -- the span is one of those that end before the start, or it is after all of them
      rcases Nat.eq_zero_or_pos (k + n) with hzero | hmore
      · obtain ⟨rfl, hn0⟩ := Nat.add_eq_zero_iff.mp hzero
        rw [hn0] at hbefore
        omega
      · have hmul := Nat.le_mul_of_pos_left ts.period hmore
        rw [Nat.add_mul] at hmul
        omega
  · refine ⟨ts, time, ?_, ⟨heq, hpos, hle, hend, hitems⟩, by omega, fun h => h (not_le.mp hperiod)⟩
    simp only [ActivityCallback.startAt, hperiod, if_false]

/-- The period in force is complete, if nothing of it would still be run. -/
theorem Inv.complete (h : Inv a) (hts : a.timeSpec = none)
    (hqueue : a.period.ended = true ∨ a.due = []) : a.period.Complete := by
  intro hfine
  obtain ⟨hb, h | h⟩ := h
  · exact (h.complete hts hfine).1
  · have hdue := hqueue.resolve_left (by rw [h.ended]; exact Bool.false_ne_true)
    rw [← h.complete hts, hdue, List.append_nil]

/-- The activity with a new period. -/
def ActivityCallback.begun (a : ActivityCallback) (timeSpec : Option PeriodicTimeSpec)
    (start : ℕ) : ActivityCallback :=
  { a with
    timeSpec := timeSpec
    switchOnTime := start
    switchOffTime := maxTimetick
    runState := .ready
    period := { start := start, stop := maxTimetick, ended := false }
    finished := a.finished ++ [a.period] }

theorem switchOn_eq {start : ℕ}
    (h : ActivityCallback.startAt a.timeSpec time = .ok (timeSpec, start)) :
    a.switchOn time = .ok (a.begun timeSpec start) := by
  rw [ActivityCallback.switchOn, h]
  rfl

theorem Base.begun (hb : Base a) {start : ℕ}
    (hnone : timeSpec = none → a.timeSpec = none ∧ a.period.Complete)
    (hgrid : ∀ ts, timeSpec = some ts → OnGrid a.queue ts) :
    Base (a.begun timeSpec start) where
  start := rfl
  small := hb.small
  ordered := fun x hx => hb.ordered x (List.mem_append_right _ hx)
  sorted := (List.pairwise_append.mp hb.sorted).2.1
  triggered := fun x hx => absurd hx List.not_mem_nil
  onGrid := hgrid
  proper := ⟨fun c hc => absurd hc List.not_mem_nil, List.Pairwise.nil⟩
  finished := by
    intro p hp
    rcases List.mem_append.mp hp with hp | hp
    · exact ⟨(hb.finished p hp).1, fun hts => (hb.finished p hp).2 (hnone hts).1⟩
    · rw [List.mem_singleton.mp hp]
      exact ⟨hb.proper, fun hts => (hnone hts).2⟩

theorem Inv.switchOn (h : Inv a) (hlt : time ≤ maxTimetick) (htime : TimelyOn a time) :
    ∃ a', a.switchOn time = .ok a' ∧ Inv a' := by
  have hb := h.1
  cases hts : a.timeSpec with
  | none =>
    obtain ⟨hbefore, hqueue⟩ := htime.1 hts
    have hcomplete : a.period.Complete := by
      refine h.complete hts (hqueue.imp_right fun hqueue => List.filter_eq_nil_iff.mpr ?_)
      intro x hx
      have := hqueue x hx
      rw [decide_eq_true_eq]
      omega
    have hstale : ∀ x ∈ a.queue, ¬ time ≤ x.validityStart := fun x hx =>
      not_le.mpr (hbefore x hx).1
    refine ⟨a.begun none time, switchOn_eq (by rw [hts]; rfl),
      hb.begun (fun _ => ⟨hts, hcomplete⟩) nofun, .inr ?_⟩
    exact
      { ended := rfl
        stop := rfl
        calls := fun c hc => absurd hc List.not_mem_nil
        stage := .ready rfl rfl fun x hx _ => (hbefore x hx).2
        onGrid := nofun
        complete := by
          intro _
          refine List.filter_eq_nil_iff.mpr fun x hx => ?_
          rw [decide_eq_true_eq]
          exact fun hin => hstale x hx hin.1
        besides := fun _ x hx hstart => absurd hstart (hstale x hx)
        source := fun _ x hx hstart => absurd hstart (hstale x hx) }
  | some ts =>
    obtain ⟨hnear, hfirst⟩ := htime.2 ts hts
    have hgrid := (hb.onGrid ts hts).sublist (List.subset_append_right a.period.passed a.queue)
    obtain ⟨ts', start, hstart, hgrid', hle, hqueue⟩ := startAt_eq hgrid hlt hnear
    refine ⟨a.begun (some ts') start, switchOn_eq (hts ▸ hstart),
      hb.begun nofun fun ts hts => Option.some.inj hts ▸ hgrid', .inr ?_⟩
    exact
      { ended := rfl
        stop := rfl
        calls := fun c hc => absurd hc List.not_mem_nil
        stage := .ready rfl rfl (hqueue hfirst)
        onGrid := fun ts hts => Option.some.inj hts ▸ hle
        complete := nofun
        besides := nofun
        source := nofun }

/-! ### Runs -/

theorem inv_init {spec : Option DataTimeSpec}
    (hspec : ∀ ts ∈ spec, ts.validityStart < ts.validityEnd ∧ ts.validityEnd ≤ maxTimetick) :
    Inv (.init spec) := by
  have hdone : ∀ timeSpec : Option PeriodicTimeSpec,
      (∀ ts, timeSpec = some ts → OnGrid [] ts) → Inv { timeSpec := timeSpec } := by
    intro timeSpec hgrid
    refine ⟨?_, .inl ⟨rfl, .inl rfl, fun _ _ => ⟨rfl, .inl (Nat.zero_le _)⟩⟩⟩
    exact
      { start := rfl
        small := (by decide : 0 < maxTimetick)
        ordered := fun x hx => absurd hx List.not_mem_nil
        sorted := List.Pairwise.nil
        triggered := fun x hx => absurd hx List.not_mem_nil
        onGrid := hgrid
        proper := ⟨fun c hc => absurd hc List.not_mem_nil, List.Pairwise.nil⟩
        finished := fun p hp => absurd hp List.not_mem_nil }
  cases spec with
  | none => exact hdone none nofun
  | some ts =>
    obtain ⟨hlt, hmax⟩ := hspec ts rfl
    refine hdone _ fun ts' hts' => ?_
    obtain rfl := Option.some.inj hts'
    unfold maxTimetick at hmax
    have hspan : ts.getValiditySpan = ts.validityEnd - ts.validityStart := by
      unfold DataTimeSpec.getValiditySpan toTick
      omega
    rw [hspan]
    have hend : (PeriodicTimeSpec.make ts.validityStart
        (ts.validityEnd - ts.validityStart)).validityEnd = ts.validityEnd := by
      simp only [PeriodicTimeSpec.make, toTick]
      omega
    refine ⟨?_, Nat.sub_pos_of_lt hlt, ?_, ?_, fun x hx => absurd hx List.not_mem_nil⟩
    · rw [hend, PeriodicTimeSpec.make, ending, PeriodicTimeSpec.mk.injEq]
      refine ⟨?_, hend, rfl⟩
      change _ = toTick (_ - ((ts.validityEnd - ts.validityStart : ℕ) : ℤ))
      unfold toTick
      omega
    · rw [hend]
      exact Nat.sub_le ..
    · rw [hend]
      omega

theorem Inv.runsInPeriods (h : Inv a) : RunsInPeriods a where
  proper := by
    intro p hp
    rcases List.mem_append.mp hp with hp | hp
    · exact (h.1.finished p hp).1
    · exact List.mem_singleton.mp hp ▸ h.1.proper
  complete := fun hts p hp => (h.1.finished p hp).2 hts
  passed := by
    intro hts hfine
    obtain ⟨-, hdone | hlive⟩ := h
    · exact (hdone.complete hts hfine).1 ▸ List.prefix_rfl
    · exact ⟨_, hlive.complete hts⟩
  done := fun hts hqueue => h.complete hts (.inr (by rw [ActivityCallback.due, hqueue]; rfl))

end Dueca.Activity
