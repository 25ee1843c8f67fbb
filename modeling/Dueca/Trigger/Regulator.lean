import Dueca.Trigger.Model
import Mathlib.Data.Nat.ModEq
import Mathlib.Data.List.Pairwise
import Mathlib.Tactic.Ring

/-!
# Regulated triggers

A regulator passes a trigger on with spans of a period of its own. It keeps the last span that it
has passed on, and goes on from its end for as long as the incoming span allows. There are two
classes of them. One waits until the incoming span reaches the end of the next span, the greedy
one passes a span on as soon as the incoming span reaches beyond its start. They are the same
code but for a few comparisons, in which they take one or the other end of the incoming span.

A new period waits until the next trigger. `emitted` records the spans passed on, oldest first;
nothing in the model reads it.

Ticks have 32 bits. Differences of ticks are taken as signed numbers where the source does.
-/

namespace Dueca.Trigger

open Dueca.Lib

/-- A tick or a difference of ticks as an unsigned number. -/
def toTick (x : ℤ) : ℕ := (x % 2 ^ 32).toNat

/-- A tick as an `int`. -/
def toInt (n : ℕ) : ℤ := (n : ℤ).bmod (2 ^ 32)

/-- A span, and the period in which it moves on. -/
structure PeriodicTimeSpec where
  validityStart : ℕ
  validityEnd : ℕ
  period : ℕ
  deriving DecidableEq, Repr

/-- The span as an unsigned number. -/
def DataTimeSpec.getValiditySpan (ts : DataTimeSpec) : ℕ :=
  toTick (ts.validityEnd - ts.validityStart)

namespace PeriodicTimeSpec

/-- The constructor with a start and a period. -/
def make (validityStart period : ℕ) : PeriodicTimeSpec :=
  ⟨validityStart, toTick (validityStart + period), period⟩

/-- The constructor from a span. A span of zero gives a period of one, but its end stays. -/
def ofTimeSpec (ts : DataTimeSpec) : PeriodicTimeSpec :=
  ⟨ts.validityStart, ts.validityEnd, if ts.getValiditySpan = 0 then 1 else ts.getValiditySpan⟩

def toDataTimeSpec (ts : PeriodicTimeSpec) : DataTimeSpec := ⟨ts.validityStart, ts.validityEnd⟩

/-- One period further. -/
def next (ts : PeriodicTimeSpec) : PeriodicTimeSpec :=
  make (toTick (ts.validityStart + ts.period)) ts.period

def advance (ts : PeriodicTimeSpec) (validityEnd : ℕ) : Option PeriodicTimeSpec :=
  if toTick (ts.validityEnd + ts.period) ≤ validityEnd then some ts.next else none

def greedyAdvance (ts : PeriodicTimeSpec) (a : DataTimeSpec) : Option PeriodicTimeSpec :=
  if ts.validityEnd < a.validityEnd then some ts.next else none

/-- Move on by whole periods to a tick, unless that is before the span. -/
def forceAdvance (ts : PeriodicTimeSpec) (validityPoint : ℕ) : Except Fault PeriodicTimeSpec :=
  if validityPoint < ts.validityStart then .ok ts
  else if toInt ts.period = 0 then .error .divisionByZero
  else
    let jump := toInt (validityPoint - ts.validityStart)
    let jump := jump.tdiv (toInt ts.period) * toInt ts.period
    .ok (make (toTick (ts.validityStart + jump)) ts.period)

end PeriodicTimeSpec

/-- The two classes, `TriggerRegulator` and `TriggerRegulatorGreedy`. -/
inductive Kind | regular | greedy
  deriving DecidableEq, Repr

namespace Kind

/-- A change has to wait, as the incoming span does not suffice for the patch. -/
def postpones : Kind → DataTimeSpec → ℕ → Bool
  | .regular, t, newstart => t.validityEnd < newstart
  | .greedy, t, newstart => t.validityStart ≤ newstart

/-- After a gap there is one shorter span. -/
def shortens : Kind → DataTimeSpec → PeriodicTimeSpec → Bool
  | .regular, t, ts => ts.validityEnd < t.validityStart
  | .greedy, t, ts => ts.validityEnd < t.validityEnd

/-- The next span to pass on, if there is one. -/
def advance : Kind → DataTimeSpec → PeriodicTimeSpec → Option PeriodicTimeSpec
  | .regular, t, ts => ts.advance t.validityEnd
  | .greedy, t, ts => ts.greedyAdvance t

end Kind

/-- A regulator. -/
structure Regulator where
  ts : PeriodicTimeSpec
  prevEnd : ℕ := 0
  newTs : Option DataTimeSpec := none
  emitted : List DataTimeSpec := []
  deriving DecidableEq, Repr

/-- The constructor. -/
def Regulator.init (ts : DataTimeSpec) : Regulator := { ts := .ofTimeSpec ts }

namespace Regulator

/-- `TriggerPuller::pull`. -/
def pull (r : Regulator) (ts : DataTimeSpec) : Regulator := { r with emitted := r.emitted ++ [ts] }

/-- A new period that starts before the end of the current span. The result also tells whether the
trigger goes on. -/
def switchAt (k : Kind) (r : Regulator) (t : DataTimeSpec) (period newstart : ℕ) :
    Regulator × Bool :=
  let ts := PeriodicTimeSpec.make (toTick (newstart - period)) period
  if r.ts.validityEnd < newstart then
    if k.postpones t newstart then ({ r with prevEnd := t.validityEnd }, false)
    else ({ r.pull ⟨r.ts.validityEnd, newstart⟩ with ts := ts, newTs := none }, true)
  else ({ r with ts := ts, newTs := none }, true)

/-- The first part of `trigger`. -/
def applyChange (k : Kind) (r : Regulator) (t : DataTimeSpec) : Except Fault (Regulator × Bool) :=
  match r.newTs with
  | none => .ok (r, true)
  | some new =>
    let period := new.getValiditySpan
    if new.validityStart < r.ts.validityEnd then
      if period = 0 then .error .divisionByZero
      else
        let newstart :=
          toTick ((1 + (r.ts.validityEnd - 1 - new.validityStart) / period) * period : ℕ)
        .ok (r.switchAt k t period newstart)
    else .ok ({ r with ts := .ofTimeSpec new, newTs := none }, true)

/-- The second part: a gap in the incoming spans is jumped over. -/
def jumpGap (k : Kind) (r : Regulator) (t : DataTimeSpec) : Except Fault Regulator :=
  if r.prevEnd < t.validityStart then
    match r.ts.forceAdvance (toTick (t.validityStart - r.ts.toDataTimeSpec.getValiditySpan)) with
    | .error e => .error e
    | .ok ts =>
      let r := { r with ts := ts }
      .ok (if k.shortens t ts then r.pull ⟨t.validityStart, ts.validityEnd⟩ else r)
  else .ok r

/-- The loop of the last part. -/
def pullAll : ℕ → Kind → Regulator → DataTimeSpec → Except Fault Regulator
  | 0, _, _, _ => .error .outOfFuel
  | fuel + 1, k, r, t =>
    match k.advance t r.ts with
    | none => .ok r
    | some ts => pullAll fuel k ({ r with ts := ts }.pull ts.toDataTimeSpec) t

/-- `changePeriodAndOffset`, which also tells whether the change is accepted. -/
def changePeriodAndOffset (r : Regulator) (ts : DataTimeSpec) : Regulator × Bool :=
  match r.newTs with
  | some _ => (r, false)
  | none => ({ r with newTs := some ts }, true)

end Regulator

/-- `trigger`. The loop cannot go on for longer than there are ticks. -/
def Kind.trigger (k : Kind) (r : Regulator) (t : DataTimeSpec) : Except Fault Regulator :=
  match r.applyChange k t with
  | .error e => .error e
  | .ok (r, false) => .ok r
  | .ok (r, true) =>
    match r.jumpGap k t with
    | .error e => .error e
    | .ok r =>
      match r.pullAll (maxTimetick + 1) k t with
      | .error e => .error e
      | .ok r => .ok { r with prevEnd := t.validityEnd }

/-- `TriggerRegulator::trigger`. -/
def TriggerRegulator.trigger : Regulator → DataTimeSpec → Except Fault Regulator :=
  Kind.regular.trigger

/-- `TriggerRegulatorGreedy::trigger`. -/
def TriggerRegulatorGreedy.trigger : Regulator → DataTimeSpec → Except Fault Regulator :=
  Kind.greedy.trigger

/-! ### Spans in a row -/

/-- `n` spans of `p` ticks from `x` on. -/
def grid (x p n : ℕ) : List DataTimeSpec :=
  (List.range n).map fun i => ⟨x + i * p, x + (i + 1) * p⟩

/-- The span of `p` ticks that ends at `e`. -/
def ending (e p : ℕ) : PeriodicTimeSpec := ⟨toTick (e - p), e, p⟩

variable {k : Kind} {r : Regulator} {t : DataTimeSpec} {a b e p x n m : ℕ}

@[simp] theorem grid_zero : grid x p 0 = [] := rfl

theorem grid_succ : grid x p (n + 1) = ⟨x, x + p⟩ :: grid (x + p) p n := by
  unfold grid
  rw [List.range_succ_eq_map, List.map_cons, List.map_map]
  congr 1
  · simp
  · refine List.map_congr_left fun i _ => ?_
    simp only [Function.comp, DataTimeSpec.mk.injEq, Nat.succ_eq_add_one]
    constructor <;> ring

theorem grid_add : grid x p (m + n) = grid x p m ++ grid (x + m * p) p n := by
  induction m generalizing x with
  | zero => simp
  | succ m ih =>
    rw [Nat.add_right_comm, grid_succ, ih, grid_succ, List.cons_append,
      show x + p + m * p = x + (m + 1) * p by ring]

theorem mem_grid {ts : DataTimeSpec} :
    ts ∈ grid x p n ↔ ∃ i < n, ts = ⟨x + i * p, x + (i + 1) * p⟩ := by
  simp only [grid, List.mem_map, List.mem_range, eq_comm]

theorem span_of_mem_grid {ts : DataTimeSpec} (h : ts ∈ grid x p n) :
    ts.validityEnd = ts.validityStart + p := by
  obtain ⟨i, -, rfl⟩ := mem_grid.mp h
  simp only
  ring

theorem le_of_mem_grid {ts : DataTimeSpec} (h : ts ∈ grid x p n) : x ≤ ts.validityStart := by
  obtain ⟨i, -, rfl⟩ := mem_grid.mp h
  exact Nat.le_add_right ..

theorem end_le_of_mem_grid {ts : DataTimeSpec} (h : ts ∈ grid x p n) :
    ts.validityEnd ≤ x + n * p := by
  obtain ⟨i, hi, rfl⟩ := mem_grid.mp h
  exact Nat.add_le_add_left (Nat.mul_le_mul_right p hi) x

theorem pairwise_grid :
    (grid x p n).Pairwise fun ts ts' => ts.validityEnd ≤ ts'.validityStart := by
  unfold grid
  rw [List.pairwise_map]
  refine List.pairwise_lt_range.imp fun h => ?_
  exact Nat.add_le_add_left (Nat.mul_le_mul_right p h) x

/-! ### Ticks -/

theorem toTick_natCast (h : x < 2 ^ 32) : toTick x = x := by
  unfold toTick
  omega

theorem toInt_of_lt (h : x < 2 ^ 31) : toInt x = x := by
  unfold toInt
  rw [Int.bmod_eq_of_le] <;> omega

theorem getValiditySpan_ending (he : e < 2 ^ 32) (hp : p < 2 ^ 32) :
    (ending e p).toDataTimeSpec.getValiditySpan = p := by
  simp only [DataTimeSpec.getValiditySpan, PeriodicTimeSpec.toDataTimeSpec, ending, toTick]
  omega

theorem make_toTick {y : ℤ} (hx : y = x) (h : x < 2 ^ 32) :
    PeriodicTimeSpec.make (toTick (y - p)) p = ending x p := by
  subst hx
  simp only [PeriodicTimeSpec.make, ending, PeriodicTimeSpec.mk.injEq, true_and, and_true]
  unfold toTick
  omega

theorem next_ending (h : e + p < 2 ^ 32) : (ending e p).next = ending (e + p) p := by
  simp only [PeriodicTimeSpec.next, PeriodicTimeSpec.make, ending, PeriodicTimeSpec.mk.injEq,
    and_true]
  unfold toTick
  omega

theorem ofTimeSpec_eq (hp : 0 < p) (h : x + p < 2 ^ 32) :
    PeriodicTimeSpec.ofTimeSpec ⟨x, x + p⟩ = ending (x + p) p := by
  have hspan : DataTimeSpec.getValiditySpan ⟨x, x + p⟩ = p := by
    simp only [DataTimeSpec.getValiditySpan, toTick]
    omega
  have hstart : toTick ((x + p : ℕ) - p) = x := by
    unfold toTick
    omega
  simp only [PeriodicTimeSpec.ofTimeSpec, hspan, hp.ne', if_false, ending, hstart]

/-! ### The loop -/

/-- No sum in the loop exceeds a tick. -/
def Kind.NoWrap (k : Kind) (e p b : ℕ) : Prop :=
  match k with
  | .regular => e + p < 2 ^ 32 ∧ b + p < 2 ^ 32
  | .greedy => e < 2 ^ 32 ∧ b + p < 2 ^ 32

instance (k : Kind) (e p b : ℕ) : Decidable (k.NoWrap e p b) :=
  match k with
  | .regular => inferInstanceAs (Decidable (_ ∧ _))
  | .greedy => inferInstanceAs (Decidable (_ ∧ _))

/-- A span that ends at `e` is passed on for an incoming span up to `b`. -/
def Kind.Reached (k : Kind) (e p b : ℕ) : Prop :=
  match k with
  | .regular => e ≤ b
  | .greedy => e < b + p

theorem Kind.NoWrap.next (h : k.NoWrap e p b) (hreached : k.Reached (e + p) p b) :
    e + p < 2 ^ 32 ∧ k.NoWrap (e + p) p b := by
  cases k <;> simp only [NoWrap, Reached] at * <;> omega

theorem advance_of_reached (h : k.NoWrap e p t.validityEnd)
    (hreached : k.Reached (e + p) p t.validityEnd) :
    k.advance t (ending e p) = some (ending (e + p) p) := by
  rw [← next_ending (h.next hreached).1]
  cases k with
  | regular =>
    have hsum : toTick (e + p) = e + p := toTick_natCast (x := e + p) h.1
    exact if_pos (hsum ▸ hreached)
  | greedy => exact if_pos (Nat.add_lt_add_iff_right.mp hreached)

theorem advance_of_not_reached (h : k.NoWrap e p t.validityEnd)
    (hreached : ¬ k.Reached (e + p) p t.validityEnd) : k.advance t (ending e p) = none := by
  cases k with
  | regular =>
    have hsum : toTick (e + p) = e + p := toTick_natCast (x := e + p) h.1
    exact if_neg (hsum ▸ hreached)
  | greedy => exact if_neg fun hlt => hreached (Nat.add_lt_add_right hlt p)

/-- The loop passes on successive spans, as long as there are any. -/
theorem pullAll_eq (fuel : ℕ) (hp : 0 < p) (hts : r.ts = ending e p)
    (hwrap : k.NoWrap e p t.validityEnd) (hpos : 0 < fuel)
    (hfuel : t.validityEnd + p < fuel + e) :
    ∃ n, r.pullAll fuel k t = .ok
        { r with ts := ending (e + n * p) p, emitted := r.emitted ++ grid e p n } ∧
      (0 < n → k.Reached (e + n * p) p t.validityEnd) ∧
      ¬ k.Reached (e + n * p + p) p t.validityEnd := by
  induction fuel generalizing e r with
  | zero => cases hpos
  | succ fuel ih =>
    by_cases hreached : k.Reached (e + p) p t.validityEnd
    · obtain ⟨hsum, hwrap'⟩ := hwrap.next hreached
      have hlt : e < t.validityEnd := by
        cases k <;> simp only [Kind.Reached] at hreached <;> omega
      obtain ⟨n, hrun, hlast, hdone⟩ := ih
        (r := { r with ts := ending (e + p) p }.pull (ending (e + p) p).toDataTimeSpec)
        rfl hwrap' (by omega) (by omega)
      refine ⟨n + 1, ?_, fun _ => ?_, ?_⟩
      · have hspan : (ending (e + p) p).toDataTimeSpec = ⟨e, e + p⟩ := by
          simp only [PeriodicTimeSpec.toDataTimeSpec, ending, DataTimeSpec.mk.injEq, and_true]
          unfold toTick
          omega
        simp only [Regulator.pullAll, hts, advance_of_reached hwrap hreached, hrun]
        simp only [Regulator.pull, hspan, grid_succ, List.append_assoc, List.singleton_append,
          show e + p + n * p = e + (n + 1) * p by ring]
      · rcases Nat.eq_zero_or_pos n with rfl | hn
        · simpa using hreached
        · rw [show e + (n + 1) * p = e + p + n * p by ring]
          exact hlast hn
      · rwa [show e + (n + 1) * p = e + p + n * p by ring]
    · refine ⟨0, ?_, fun h => absurd h (Nat.lt_irrefl 0), ?_⟩
      · simp only [Nat.zero_mul, Nat.add_zero, grid_zero, List.append_nil]
        rw [Regulator.pullAll, hts, advance_of_not_reached hwrap hreached, ← hts]
      · simpa using hreached

/-! ### The jump -/

/-- The end of the span from which a regulator goes on after a gap up to `a`. Its arithmetic is
unsigned, so that before the first period it also moves back. -/
def jumpEnd (e p a : ℕ) : ℕ :=
  if e ≤ a then if p ≤ e then e + (a - e) / p * p else e
  else if a < p ∧ p ≤ e then e - (e - a) / p * p else e

/-- The gap is not longer than a signed number can tell. -/
def Near (e p a : ℕ) : Prop := p < 2 ^ 31 ∧ a < e + 2 ^ 31 ∧ e ≤ a + 2 ^ 31

instance (e p a : ℕ) : Decidable (Near e p a) := inferInstanceAs (Decidable (_ ∧ _ ∧ _))

theorem forceAdvance_of_lt {v : ℕ} (h : v < toTick (e - p)) :
    (ending e p).forceAdvance v = .ok (ending e p) := if_pos h

theorem forceAdvance_of_le {v : ℕ} {j : ℤ} (hp : 0 < p) (hp' : p < 2 ^ 31)
    (h : toTick (e - p) ≤ v) (hj : toInt (v - toTick (e - p)) = j)
    (hx : e + j.tdiv p * p = (x : ℤ)) (hlt : x < 2 ^ 32) :
    (ending e p).forceAdvance v = .ok (ending x p) := by
  have hint : toInt p = p := toInt_of_lt hp'
  have hpne : (p : ℤ) ≠ 0 := by omega
  unfold PeriodicTimeSpec.forceAdvance
  simp only [ending, hint, hj]
  rw [if_neg (Nat.not_lt.mpr h), if_neg hpne, ← ending, ← make_toTick rfl hlt]
  have hstart : toTick ((toTick (e - p) : ℕ) + j.tdiv p * p) = toTick (x - p) := by
    unfold toTick
    omega
  rw [hstart]

theorem toTick_sub (ha : a < 2 ^ 32) (hp : p < 2 ^ 32) :
    toTick (a - p) = if p ≤ a then a - p else 2 ^ 32 + a - p := by
  unfold toTick
  split <;> omega

theorem forceAdvance_eq (hp : 0 < p) (he : e < 2 ^ 32) (ha : a < 2 ^ 32) (hnear : Near e p a) :
    (ending e p).forceAdvance (toTick (a - p)) = .ok (ending (jumpEnd e p a) p) := by
  obtain ⟨hp', hahead, hbehind⟩ := hnear
  have hstart := toTick_sub he (lt_trans hp' (by decide))
  have hpoint := toTick_sub ha (lt_trans hp' (by decide))
  unfold jumpEnd
  by_cases hea : e ≤ a
  · have hq := Nat.div_mul_le_self (a - e) p
    rw [if_pos hea]
    by_cases hpe : p ≤ e
    · rw [if_pos hpe]
      rw [if_pos hpe] at hstart
      rw [if_pos (hpe.trans hea)] at hpoint
      refine forceAdvance_of_le (j := (a - e : ℕ)) hp hp' (by omega) ?_ ?_ (by omega)
      · rw [hstart, hpoint, ← toInt_of_lt (x := a - e) (by omega)]
        congr 1
        omega
      · rw [Int.tdiv_eq_ediv_of_nonneg (Int.natCast_nonneg _)]
        norm_cast
    · rw [if_neg hpe]
      rw [if_neg hpe] at hstart
      by_cases hpa : p ≤ a
      · rw [if_pos hpa] at hpoint
        exact forceAdvance_of_lt (by omega)
      · rw [if_neg hpa] at hpoint
        refine forceAdvance_of_le (j := (a - e : ℕ)) hp hp' (by omega) ?_ ?_ he
        · rw [hstart, hpoint, ← toInt_of_lt (x := a - e) (by omega)]
          congr 1
          omega
        · rw [Int.tdiv_eq_zero_of_lt (Int.natCast_nonneg _) (by omega)]
          simp
  · rw [if_neg hea]
    by_cases hpa : a < p ∧ p ≤ e
    · obtain ⟨hap, hpe⟩ := hpa
      rw [if_pos ⟨hap, hpe⟩]
      rw [if_pos hpe] at hstart
      rw [if_neg (Nat.not_le.mpr hap)] at hpoint
      have hq := Nat.div_mul_le_self (e - a) p
      refine forceAdvance_of_le (j := -(e - a : ℕ)) hp hp' (by omega) ?_ ?_ (by omega)
      · rw [hstart, hpoint]
        unfold toInt
        rw [Int.bmod_def]
        split <;> omega
      · rw [Int.neg_tdiv, Int.tdiv_eq_ediv_of_nonneg (Int.natCast_nonneg _)]
        rw [Nat.cast_sub (hq.trans (Nat.sub_le e a)), Nat.cast_mul, Int.natCast_ediv]
        ring
    · rw [if_neg hpa]
      by_cases hap : a < p
      · have hpe : ¬ p ≤ e := fun h => hpa ⟨hap, h⟩
        rw [if_neg hpe] at hstart
        rw [if_neg (Nat.not_le.mpr hap)] at hpoint
        exact forceAdvance_of_lt (by omega)
      · rw [if_pos (by omega)] at hstart
        rw [if_pos (Nat.le_of_not_lt hap)] at hpoint
        exact forceAdvance_of_lt (by omega)

theorem jumpEnd_le_max (e p a : ℕ) : jumpEnd e p a ≤ max e a := by
  have h := Nat.div_mul_le_self (a - e) p
  unfold jumpEnd
  split_ifs <;> omega

theorem Kind.NoWrap.jump (h : k.NoWrap e p b) (hab : a ≤ b) : k.NoWrap (jumpEnd e p a) p b := by
  have hle := jumpEnd_le_max e p a
  cases k <;> simp only [NoWrap] at * <;> omega

theorem Kind.NoWrap.lt (h : k.NoWrap e p b) : e < 2 ^ 32 ∧ p < 2 ^ 32 := by
  cases k <;> simp only [NoWrap] at * <;> omega

/-! ### A trigger without a new period -/

/-- The end from which a trigger goes on. -/
def resumeEnd (prevEnd e p a : ℕ) : ℕ := if prevEnd < a then jumpEnd e p a else e

/-- What is passed on for a gap. -/
def Kind.patch (k : Kind) (prevEnd : ℕ) (t : DataTimeSpec) (e p : ℕ) : List DataTimeSpec :=
  if prevEnd < t.validityStart ∧ k.shortens t (ending e p) then [⟨t.validityStart, e⟩] else []

theorem Kind.NoWrap.resume (h : k.NoWrap e p b) (hab : a ≤ b) (prevEnd : ℕ) :
    k.NoWrap (resumeEnd prevEnd e p a) p b := by
  unfold resumeEnd
  split
  · exact h.jump hab
  · exact h

theorem jumpGap_eq (hp : 0 < p) (hts : r.ts = ending e p) (hwrap : k.NoWrap e p b)
    (ha : t.validityStart < 2 ^ 32)
    (hnear : r.prevEnd < t.validityStart → Near e p t.validityStart) :
    r.jumpGap k t = .ok
      { r with
        ts := ending (resumeEnd r.prevEnd e p t.validityStart) p
        emitted := r.emitted ++
          k.patch r.prevEnd t (resumeEnd r.prevEnd e p t.validityStart) p } := by
  obtain ⟨he, hp'⟩ := hwrap.lt
  unfold Regulator.jumpGap Kind.patch resumeEnd
  by_cases hgap : r.prevEnd < t.validityStart
  · simp only [hgap, if_true, true_and, hts, getValiditySpan_ending he hp',
      forceAdvance_eq hp he ha (hnear hgap)]
    split
    · rfl
    · rw [List.append_nil]
  · simp only [hgap, if_false, false_and, List.append_nil]
    rw [← hts]

/-- What a trigger passes on, and where it stops. -/
theorem trigger_eq (hp : 0 < p) (hts : r.ts = ending e p) (hnew : r.newTs = none)
    (hwrap : k.NoWrap e p t.validityEnd) (hab : t.validityStart ≤ t.validityEnd)
    (hnear : r.prevEnd < t.validityStart → Near e p t.validityStart) :
    ∃ n, k.trigger r t = .ok
        { ts := ending (resumeEnd r.prevEnd e p t.validityStart + n * p) p
          prevEnd := t.validityEnd
          emitted := r.emitted ++
            (k.patch r.prevEnd t (resumeEnd r.prevEnd e p t.validityStart) p ++
              grid (resumeEnd r.prevEnd e p t.validityStart) p n) } ∧
      (0 < n → k.Reached (resumeEnd r.prevEnd e p t.validityStart + n * p) p t.validityEnd) ∧
      ¬ k.Reached (resumeEnd r.prevEnd e p t.validityStart + n * p + p) p t.validityEnd := by
  have hb : t.validityEnd + p < 2 ^ 32 := by
    cases k <;> exact hwrap.2
  have hjump := jumpGap_eq hp hts hwrap (by omega) hnear
  obtain ⟨n, hrun, hlast, hdone⟩ := pullAll_eq (maxTimetick + 1) hp rfl
    (hwrap.resume hab r.prevEnd) (Nat.succ_pos _)
    (lt_of_lt_of_le hb (Nat.le_add_right _ _))
    (r := { r with
      ts := ending (resumeEnd r.prevEnd e p t.validityStart) p
      emitted := r.emitted ++ k.patch r.prevEnd t (resumeEnd r.prevEnd e p t.validityStart) p })
  refine ⟨n, ?_, hlast, hdone⟩
  simp only [hnew] at hjump hrun
  simp only [Kind.trigger, Regulator.applyChange, hnew, hjump, hrun, List.append_assoc]

end Dueca.Trigger
