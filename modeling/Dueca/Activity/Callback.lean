import Dueca.Activity.Model
import Dueca.Trigger.Regulator

/-!
# Activities with a callback

An `ActivityCallback` is switched on and off by time. A trigger schedules the part of its span
that is in the period from `switch_on` to `switch_off`, or, with a periodic time specification,
the spans of that specification up to the end of this part. Scheduled spans are despatched later,
in the order in which they were scheduled; by then the activity may have been switched off, or on
again.

The spans come from the activity's manager, which runs them one by one; here it is a queue. Calls
of `switchOn` and `switchOff` from within the callback are left out.

The records of the on-period in force and of those before it are not in the source, nothing in the
model reads them. `lastEnd` is the end of the last trigger.
-/

namespace Dueca.Activity

open Dueca.Trigger (DataTimeSpec PeriodicTimeSpec Regulator Kind Fault toTick ending grid)

/-- Test whether activation is appropriate. -/
def isInRunPeriod (switchOn switchOff : ℕ) (ts : DataTimeSpec) : Bool :=
  switchOn < switchOff && ts.validityStart < switchOff &&
    (switchOn < ts.validityEnd || ts.getValiditySpan == 0 && switchOn ≤ ts.validityEnd)

/-- Trim a time spec to the run period. -/
def trimToRunPeriod (switchOn switchOff : ℕ) (ts : DataTimeSpec) : DataTimeSpec :=
  ⟨if switchOn < ts.validityStart then ts.validityStart else switchOn,
    if ts.validityEnd < switchOff then ts.validityEnd else switchOff⟩

/-- A call of the callback: its span, the on-period in force, and whether the callback threw. -/
structure Call where
  ts : DataTimeSpec
  switchOn : ℕ
  switchOff : ℕ
  threw : Bool
  deriving DecidableEq, Repr

/-- The record of an on-period. It is over with a span that reaches its end, or with a callback
that throws; its end is that of the last `switchOff` before. -/
structure OnPeriod where
  start : ℕ := maxTimetick
  stop : ℕ := 0
  ended : Bool := true
  triggered : List DataTimeSpec := []
  calls : List Call := []
  deriving DecidableEq, Repr

/-- The activity, with its queue. -/
structure ActivityCallback where
  runState : RunState := .off
  switchOnTime : ℕ := maxTimetick
  switchOffTime : ℕ := 0
  timeSpec : Option PeriodicTimeSpec := none
  queue : List DataTimeSpec := []
  lastEnd : ℕ := 0
  period : OnPeriod := {}
  finished : List OnPeriod := []
  deriving DecidableEq, Repr

namespace ActivityCallback

/-- `setTimeSpec`. -/
def setTimeSpec (a : ActivityCallback) (ts : DataTimeSpec) : ActivityCallback :=
  { a with timeSpec := some (.make ts.validityStart ts.getValiditySpan) }

/-- The constructor, and `setTimeSpec` if there is a periodic time specification. -/
def init : Option DataTimeSpec → ActivityCallback
  | none => {}
  | some ts => ({} : ActivityCallback).setTimeSpec ts

/-- The loop in `trigger`, which is that of a regulator, with the spans to schedule. -/
def scheduleAll (timeSpec : PeriodicTimeSpec) (tsched : DataTimeSpec) :
    Except Fault (PeriodicTimeSpec × List DataTimeSpec) :=
  match ({ ts := timeSpec } : Regulator).pullAll (maxTimetick + 1) .regular tsched with
  | .error e => .error e
  | .ok r => .ok (r.ts, r.emitted)

/-- A span from the channels. -/
def trigger (a : ActivityCallback) (t : DataTimeSpec) : Except Fault ActivityCallback :=
  let a' := { a with
    lastEnd := t.validityEnd
    period := { a.period with triggered := a.period.triggered ++ [t] } }
  if ¬ a.runState < .running ∨
      ¬ a.runState < .ready ∧ isInRunPeriod a.switchOnTime a.switchOffTime t then
    let tsched := trimToRunPeriod a.switchOnTime a.switchOffTime t
    match a.timeSpec with
    | none => .ok { a' with queue := a.queue ++ [tsched] }
    | some timeSpec =>
      match scheduleAll timeSpec tsched with
      | .error e => .error e
      | .ok (timeSpec', spans) =>
        .ok { a' with timeSpec := some timeSpec', queue := a.queue ++ spans }
  else .ok a'

/-- The new start and the moved time specification. -/
def startAt (timeSpec : Option PeriodicTimeSpec) (t : ℕ) :
    Except Fault (Option PeriodicTimeSpec × ℕ) :=
  match timeSpec with
  | none => .ok (none, t)
  | some timeSpec =>
    if timeSpec.period ≤ t then
      match timeSpec.forceAdvance (toTick (t - timeSpec.period)) with
      | .error e => .error e
      | .ok timeSpec' => .ok (some timeSpec', timeSpec'.validityStart)
    else .ok (some timeSpec, t)

/-- Switch on from this time. -/
def switchOn (a : ActivityCallback) (t : ℕ) : Except Fault ActivityCallback :=
  match startAt a.timeSpec t with
  | .error e => .error e
  | .ok (timeSpec, start) =>
    .ok { a with
      timeSpec := timeSpec
      switchOnTime := start
      switchOffTime := maxTimetick
      runState := .ready
      period := { start := start, stop := maxTimetick, ended := false }
      finished := a.finished ++ [a.period] }

/-- Switch off at this time. -/
def switchOff (a : ActivityCallback) (t : ℕ) : ActivityCallback :=
  { a with
    switchOffTime := t
    runState := .braking
    period := { a.period with stop := if a.period.ended then a.period.stop else t } }

/-- A span that reaches the end is the last one. -/
def lastCycle (a : ActivityCallback) (t : DataTimeSpec) : ActivityCallback :=
  if a.switchOffTime ≤ t.validityEnd then
    { a with runState := .last, period := { a.period with ended := true } }
  else a

/-- The state transition of `despatch`, unless it returns. -/
def transition (a : ActivityCallback) (t : DataTimeSpec) : Option ActivityCallback :=
  match a.runState with
  | .off | .last => none
  | .ready =>
    if t.validityStart < a.switchOnTime ∧ t.validityEnd ≤ a.switchOnTime then none
    else some (a.lastCycle t)
  | .braking => some (a.lastCycle t)
  | _ => some a

/-- The call, if the span does not end too late. -/
def invoke (a : ActivityCallback) (t : DataTimeSpec) (throws : Bool) : ActivityCallback :=
  if t.validityEnd ≤ a.switchOffTime then
    let call : Call := ⟨t, a.switchOnTime, a.switchOffTime, throws⟩
    let a' := { a with period := { a.period with calls := a.period.calls ++ [call] } }
    if throws then { a' with period := { a'.period with ended := true } }.switchOff 0
    else if a.runState = .ready then { a' with runState := .running }
    else a'
  else a

/-- Despatch the first span of the queue. The callback throws or not, if it is called. -/
def despatch (a : ActivityCallback) (throws : Bool) : ActivityCallback :=
  match a.queue with
  | [] => a
  | t :: queue =>
    let a' := { a with queue := queue }
    match a'.transition t with
    | none => a'
    | some a'' => a''.invoke t throws

end ActivityCallback

/-- What happens to an activity. -/
inductive CallbackInput
  | switchOn (t : ℕ)
  | switchOff (t : ℕ)
  | trigger (t : DataTimeSpec)
  | despatch (throws : Bool)
  deriving DecidableEq, Repr

/-- One input. -/
def callbackStep (a : ActivityCallback) : CallbackInput → Except Fault ActivityCallback
  | .switchOn t => a.switchOn t
  | .switchOff t => .ok (a.switchOff t)
  | .trigger t => a.trigger t
  | .despatch throws => .ok (a.despatch throws)

/-! ### Cutting a span -/

/-- The part of a span from `start` to `stop`. An event is a span of no ticks; at `stop` it is
outside. -/
def cut (start stop : ℕ) (ts : DataTimeSpec) : Option DataTimeSpec :=
  if max start ts.validityStart < min stop ts.validityEnd ∨
      ts.validityStart = ts.validityEnd ∧ start ≤ ts.validityStart ∧ ts.validityStart < stop then
    some ⟨max start ts.validityStart, min stop ts.validityEnd⟩
  else none

variable {start stop stop' : ℕ} {t x : DataTimeSpec}

theorem getValiditySpan_eq_zero (hle : t.validityStart ≤ t.validityEnd)
    (hlt : t.validityEnd < maxTimetick) :
    t.getValiditySpan = 0 ↔ t.validityStart = t.validityEnd := by
  unfold maxTimetick at hlt
  unfold DataTimeSpec.getValiditySpan toTick
  omega

theorem isInRunPeriod_iff (hle : t.validityStart ≤ t.validityEnd)
    (hlt : t.validityEnd < maxTimetick) :
    isInRunPeriod start stop t = true ↔ (cut start stop t).isSome := by
  simp only [isInRunPeriod, cut, Bool.and_eq_true, Bool.or_eq_true, decide_eq_true_eq, beq_iff_eq,
    getValiditySpan_eq_zero hle hlt]
  split <;> simp only [Option.isSome_some, Option.isSome_none, Bool.false_eq_true, iff_true,
    iff_false] <;> omega

theorem trimToRunPeriod_eq :
    trimToRunPeriod start stop t = ⟨max start t.validityStart, min stop t.validityEnd⟩ := by
  simp only [trimToRunPeriod, DataTimeSpec.mk.injEq]
  constructor <;> split <;> omega

theorem cut_eq_some : cut start stop t = some x → x = trimToRunPeriod start stop t := by
  rw [trimToRunPeriod_eq, cut]
  split
  · exact fun h => (Option.some.inj h).symm
  · exact nofun

/-- Where the part is. -/
theorem cut_bounds (hle : t.validityStart ≤ t.validityEnd) (h : cut start stop t = some x) :
    (start ≤ x.validityStart ∧ x.validityStart < stop ∧ x.validityEnd ≤ stop) ∧
      t.validityStart ≤ x.validityStart ∧ x.validityStart ≤ x.validityEnd ∧
      x.validityEnd ≤ t.validityEnd := by
  obtain rfl := cut_eq_some h
  simp only [trimToRunPeriod_eq]
  unfold cut at h
  split at h
  · omega
  · cases h

theorem cut_self (hstart : start ≤ x.validityStart) (hle : x.validityStart ≤ x.validityEnd)
    (hlt : x.validityStart < stop) (hstop : x.validityEnd ≤ stop) :
    cut start stop x = some x := by
  unfold cut
  rw [if_pos (by omega), max_eq_right hstart, min_eq_right hstop]

theorem cut_eq_none (h : stop ≤ t.validityStart ∨ stop ≤ start) : cut start stop t = none := by
  unfold cut
  rw [if_neg (by omega)]

/-- A later end makes no difference to a span that is over before. -/
theorem cut_later (hlt : t.validityStart < stop) (hstop : t.validityEnd ≤ stop)
    (hle : stop ≤ stop') : cut start stop' t = cut start stop t := by
  simp only [cut, min_eq_right hstop, min_eq_right (hstop.trans hle), hlt, hlt.trans_le hle]

/-- Cutting twice. -/
theorem cut_cut (hle : t.validityStart ≤ t.validityEnd) (hstop : stop' ≤ stop) :
    (cut start stop t).bind (cut start stop') = cut start stop' t := by
  cases h : cut start stop t with
  | some x =>
    obtain rfl := cut_eq_some h
    unfold cut at h
    split at h
    · rw [Option.bind_some, trimToRunPeriod_eq]
      simp only [cut]
      congr 1
      · rw [eq_iff_iff]
        omega
      · rw [Option.some.injEq, DataTimeSpec.mk.injEq]
        omega
    · cases h
  | none =>
    unfold cut at h ⊢
    split at h
    · cases h
    · rw [Option.bind_none, if_neg (by omega)]

/-- The loop schedules successive spans, up to the end of the part that is given. -/
theorem scheduleAll_eq {e p : ℕ} (hp : 0 < p) (hwrap : Kind.regular.NoWrap e p t.validityEnd) :
    ∃ n, ActivityCallback.scheduleAll (ending e p) t = .ok (ending (e + n * p) p, grid e p n) ∧
      (0 < n → e + n * p ≤ t.validityEnd) := by
  obtain ⟨n, hrun, hlast, -⟩ := Dueca.Trigger.pullAll_eq (maxTimetick + 1) hp rfl hwrap
    (Nat.succ_pos _) (lt_of_lt_of_le hwrap.2 (Nat.le_add_right _ _))
    (r := { ts := ending e p })
  refine ⟨n, ?_, hlast⟩
  simp only [ActivityCallback.scheduleAll, hrun, List.nil_append]

end Dueca.Activity
