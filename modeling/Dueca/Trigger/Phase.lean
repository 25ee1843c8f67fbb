import Dueca.Trigger.Regulator

/-!
# Periodic spans keep their phase

A periodic span moves on by whole periods. `advance` and `greedyAdvance` move it by one period, if
the given end allows it, and `forceAdvance` moves it to the span that has a given tick. That tick
is compared as a signed number, so a jump of 2^31 ticks or more goes back in time, and a period of
2^31 ticks or more is negative. A span that is made from a time without length has a period of one
tick, but stays empty until it moves on.
-/

namespace Dueca.Trigger

open Dueca.Lib

variable {s d p v x : ℕ}

/-- The constructors. -/
inductive Origin
  | ticks (validityStart period : UInt32)
  | timeSpec (validityStart validityEnd : UInt32)

def Origin.create : Origin → PeriodicTimeSpec
  | .ticks validityStart period => .make validityStart.toNat period.toNat
  | .timeSpec validityStart validityEnd => .ofTimeSpec ⟨validityStart.toNat, validityEnd.toNat⟩

inductive Call
  | advance (validityEnd : UInt32)
  | greedyAdvance (a : DataTimeSpec)
  | forceAdvance (validityPoint : UInt32)

namespace PeriodicTimeSpec

def step (ts : PeriodicTimeSpec) : Call → Except Fault PeriodicTimeSpec
  | .advance validityEnd => .ok ((ts.advance validityEnd.toNat).getD ts)
  | .greedyAdvance a => .ok ((ts.greedyAdvance a).getD ts)
  | .forceAdvance validityPoint => ts.forceAdvance validityPoint.toNat

/-- The span has the length of its period. -/
def Complete (ts : PeriodicTimeSpec) : Prop := ts.validityEnd = ts.validityStart + ts.period

/-- A call leads from a span to one of the same period and phase, which is not earlier. After
`forceAdvance`, it has the tick. -/
structure Keeps (ts ts' : PeriodicTimeSpec) (call : Call) : Prop where
  complete : ts'.Complete
  period : ts'.period = ts.period
  phase : ts'.validityStart ≡ ts.validityStart [MOD ts.period]
  le : ts.validityStart ≤ ts'.validityStart
  covers : ∀ t, call = .forceAdvance t → ts.validityStart ≤ t.toNat →
    ts'.validityStart ≤ t.toNat ∧ t.toNat < ts'.validityEnd

/-- A call keeps the period and the phase that a span had when it was made. -/
def InPhase (first ts : PeriodicTimeSpec) (call : Call) : Prop :=
  ∃ ts', ts.step call = .ok ts' ∧ ts.Keeps ts' call ∧ ts'.period = first.period ∧
    ts'.validityStart ≡ first.validityStart [MOD first.period]

end PeriodicTimeSpec

/-- There is a span with a length, up to a tick of 32 bits. -/
def Origin.Fits : Origin → Prop
  | .ticks validityStart period => validityStart.toNat + period.toNat < 2 ^ 32
  | .timeSpec validityStart validityEnd => validityStart < validityEnd

/-- The jump is less than 2^31, and less than the period as a signed number; or it is a number of
whole periods, and 2^32 is so, too. -/
def JumpFits (d p : ℕ) : Prop := d < 2 ^ 31 ∧ (p < 2 ^ 31 ∨ d < 2 ^ 32 - p) ∨ p ∣ d ∧ p ∣ 2 ^ 32

instance (d p : ℕ) : Decidable (JumpFits d p) := inferInstanceAs (Decidable (_ ∨ _))

/-- A span that moves on ends at a tick of 32 bits; and the jump of `forceAdvance` fits. -/
def PeriodicTimeSpec.Fits (ts : PeriodicTimeSpec) : Call → Prop
  | .advance validityEnd =>
    toTick (ts.validityEnd + ts.period) ≤ validityEnd.toNat → ts.validityEnd + ts.period < 2 ^ 32
  | .greedyAdvance a => ts.validityEnd < a.validityEnd → ts.validityEnd + ts.period < 2 ^ 32
  | .forceAdvance t =>
    ts.validityStart ≤ t.toNat →
      ts.validityStart + (t.toNat - ts.validityStart) / ts.period * ts.period + ts.period < 2 ^ 32 ∧
        JumpFits (t.toNat - ts.validityStart) ts.period

/-! ### The jump -/

/-- The size of a signed number. -/
def magnitude (n : ℕ) : ℕ := if n < 2 ^ 31 then n else 2 ^ 32 - n

theorem toTick_lt (y : ℤ) : toTick y < 2 ^ 32 := by
  unfold toTick
  omega

theorem toInt_eq (hx : x < 2 ^ 32) :
    toInt x = if x < 2 ^ 31 then (magnitude x : ℤ) else -(magnitude x : ℤ) := by
  unfold magnitude
  split
  · exact toInt_of_lt ‹_›
  · unfold toInt
    rw [← Int.sub_mul_bmod_self_left (x : ℤ) (2 ^ 32) 1, Int.bmod_eq_of_le_mul_two] <;> omega

theorem toInt_ne_zero (hp : 0 < p) (hp' : p < 2 ^ 32) : toInt p ≠ 0 := by
  rw [toInt_eq hp']
  unfold magnitude
  split <;> omega

/-- The division rounds to zero, so that the signs do not matter for the size of the jump. -/
theorem jumped_eq (hd : d < 2 ^ 32) (hp : p < 2 ^ 32) :
    (toInt d).tdiv (toInt p) * toInt p =
      if d < 2 ^ 31 then ((magnitude d / magnitude p * magnitude p : ℕ) : ℤ)
      else -((magnitude d / magnitude p * magnitude p : ℕ) : ℤ) := by
  have habs : ∀ a b : ℕ, (a : ℤ).tdiv b * b = (a / b * b : ℕ) := fun a b => by
    rw [Int.tdiv_eq_ediv_of_nonneg (Int.natCast_nonneg a)]
    norm_cast
  rw [toInt_eq hd, toInt_eq hp]
  by_cases hd' : d < 2 ^ 31 <;> by_cases hp' : p < 2 ^ 31
  · simp only [if_pos hd', if_pos hp', habs]
  · simp only [if_pos hd', if_neg hp', Int.tdiv_neg, neg_mul_neg, habs]
  · simp only [if_neg hd', if_pos hp', Int.neg_tdiv, neg_mul, habs]
  · simp only [if_neg hd', if_neg hp', Int.neg_tdiv, Int.tdiv_neg, neg_neg, mul_neg, habs]

/-- The jump leads to the span that has the tick if and only if it fits. -/
theorem toTick_jumped_iff (hp : 0 < p) (hs : s + p < 2 ^ 32) (hd : s + d < 2 ^ 32)
    (hend : s + d / p * p + p < 2 ^ 32) :
    toTick (s + (toInt d).tdiv (toInt p) * toInt p) = s + d / p * p ↔ JumpFits d p := by
  rw [jumped_eq (by omega) (by omega), JumpFits]
  have hq := Nat.div_mul_le_self d p
  have hr := Nat.div_mul_le_self (magnitude d) (magnitude p)
  by_cases hd' : d < 2 ^ 31
  · by_cases hp' : p < 2 ^ 31
    · -- nothing is signed
      rw [if_pos hd', magnitude, if_pos hd', magnitude, if_pos hp',
        iff_true_right (.inl ⟨hd', .inl hp'⟩)]
      unfold toTick
      omega
    · -- there is less than a period to go, but more than the magnitude of the signed one
      have hzero : d / p = 0 := Nat.div_eq_of_lt (by omega)
      have hdvd : p ∣ d → d = 0 := fun h => Nat.eq_zero_of_dvd_of_lt h (by omega)
      rw [if_pos hd', hzero]
      rw [magnitude, if_pos hd', magnitude, if_neg hp'] at hr ⊢
      have hsmall : d / (2 ^ 32 - p) * (2 ^ 32 - p) = 0 ↔ d < 2 ^ 32 - p := by
        rw [Nat.mul_eq_zero, Nat.div_eq_zero_iff]
        omega
      generalize d / (2 ^ 32 - p) * (2 ^ 32 - p) = r at *
      unfold toTick
      omega
  · rw [if_neg hd', iff_comm, or_iff_right fun h => hd' h.1]
    by_cases hp' : p < 2 ^ 31
    · -- the jump goes back, and around
      rw [magnitude, if_neg hd', magnitude, if_pos hp'] at hr ⊢
      have hpos : 0 < d / p * p := Nat.mul_pos (Nat.div_pos (by omega) hp) hp
      constructor
      · rintro ⟨hpd, hwhole⟩
        rw [Nat.div_mul_cancel hpd, Nat.div_mul_cancel (Nat.dvd_sub hwhole hpd)]
        unfold toTick
        omega
      · intro h
        have hsum : d / p * p = d ∧ (2 ^ 32 - d) / p * p = 2 ^ 32 - d := by
          generalize d / p * p = q at *
          generalize (2 ^ 32 - d) / p * p = r at *
          unfold toTick at h
          omega
        have hpd : p ∣ d := ⟨d / p, (Nat.mul_comm _ _ ▸ hsum.1).symm⟩
        have hrest : p ∣ 2 ^ 32 - d := ⟨(2 ^ 32 - d) / p, (Nat.mul_comm _ _ ▸ hsum.2).symm⟩
        refine ⟨hpd, ?_⟩
        have hadd := Nat.dvd_add hpd hrest
        rwa [Nat.add_sub_cancel' (by omega)] at hadd
    · -- there is less than a period to go, and the jump goes back
      have hlt : d < p := by
        by_contra hle
        have hdiv := Nat.div_pos (Nat.not_lt.mp hle) hp
        have hmul := Nat.le_mul_of_pos_left p hdiv
        omega
      rw [magnitude, if_neg hd', magnitude, if_neg hp'] at hr ⊢
      have hpos : 0 < (2 ^ 32 - d) / (2 ^ 32 - p) * (2 ^ 32 - p) :=
        Nat.mul_pos (Nat.div_pos (by omega) (by omega)) (by omega)
      rw [Nat.div_eq_of_lt hlt]
      generalize (2 ^ 32 - d) / (2 ^ 32 - p) * (2 ^ 32 - p) = r at *
      constructor
      · rintro ⟨hpd, -⟩
        have := Nat.eq_zero_of_dvd_of_lt hpd hlt
        omega
      · intro h
        unfold toTick at h
        omega

/-! ### One call -/

namespace PeriodicTimeSpec

variable {ts first : PeriodicTimeSpec} {call : Call}

/-- What holds of a span before each call. -/
structure Inv (first ts : PeriodicTimeSpec) : Prop where
  complete : ts.Complete
  end_lt : ts.validityEnd < 2 ^ 32
  pos : 0 < ts.period
  period : ts.period = first.period
  phase : ts.validityStart ≡ first.validityStart [MOD first.period]

theorem complete_make_iff (x p : ℕ) : (make x p).Complete ↔ x + p < 2 ^ 32 := by
  unfold Complete make toTick
  dsimp only
  omega

theorem end_make_lt (x p : ℕ) : (make x p).validityEnd < 2 ^ 32 := toTick_lt (x + p)

/-- A span that stays keeps its phase. -/
theorem keeps_refl (h : ts.Complete) (hcall : ∀ t, call = .forceAdvance t →
    t.toNat < ts.validityStart) : ts.Keeps ts call where
  complete := h
  period := rfl
  phase := rfl
  le := Nat.le_refl _
  covers t ht hle := absurd hle (Nat.not_le.mpr (hcall t ht))

/-- For one call, the phase that a span had at first is kept if its own phase is kept. -/
theorem inPhase_of_step {ts' : PeriodicTimeSpec} (hinv : Inv first ts)
    (hstep : ts.step call = .ok ts') : InPhase first ts call ↔ ts.Keeps ts' call := by
  constructor
  · rintro ⟨_, hstep', hkeeps, -⟩
    rwa [Except.ok.inj (hstep.symm.trans hstep')]
  · intro hkeeps
    exact ⟨ts', hstep, hkeeps, hkeeps.period.trans hinv.period,
      (hinv.period ▸ hkeeps.phase).trans hinv.phase⟩

/-- One period further. -/
theorem keeps_next_iff (hinv : Inv first ts) (hcall : ∀ t, call ≠ .forceAdvance t) :
    ts.Keeps ts.next call ↔ ts.validityEnd + ts.period < 2 ^ 32 := by
  have hstart : toTick (ts.validityStart + ts.period) = ts.validityEnd := by
    rw [hinv.complete]
    exact toTick_natCast (x := ts.validityStart + ts.period) (hinv.complete ▸ hinv.end_lt)
  have hnext : ts.next = make ts.validityEnd ts.period := by rw [next, hstart]
  rw [hnext, ← complete_make_iff]
  refine ⟨Keeps.complete, fun h => ⟨h, rfl, ?_, ?_, fun t ht => absurd ht (hcall t)⟩⟩
  · have hadd : ts.validityEnd = ts.validityStart + ts.period := hinv.complete
    change ts.validityEnd % _ = _
    rw [hadd, Nat.add_mod_right]
  · exact hinv.complete ▸ Nat.le_add_right _ _

/-- The span with a tick is found by whole periods. -/
theorem eq_iff_covers (hp : 0 < p) (hsv : s ≤ v) :
    x = s + (v - s) / p * p ↔ x ≡ s [MOD p] ∧ s ≤ x ∧ x ≤ v ∧ v < x + p := by
  have hq := Nat.div_mul_le_self (v - s) p
  have hlt := Nat.lt_div_mul_add (a := v - s) hp
  constructor
  · rintro rfl
    refine ⟨?_, Nat.le_add_right _ _, by omega, by omega⟩
    change (s + _ * p) % p = _
    rw [Nat.add_mul_mod_self_right]
  · rintro ⟨hmod, hsx, hxv, hvx⟩
    -- the two starts are less than a period apart
    have hmod' : x ≡ s + (v - s) / p * p [MOD p] := by
      change x % p = (s + _ * p) % p
      rw [Nat.add_mul_mod_self_right]
      exact hmod
    obtain hle | hle := Nat.le_total x (s + (v - s) / p * p)
    · have hdvd := (Nat.modEq_iff_dvd' hle).mp hmod'
      have := Nat.eq_zero_of_dvd_of_lt hdvd (by omega)
      omega
    · have hdvd := (Nat.modEq_iff_dvd' hle).mp hmod'.symm
      have := Nat.eq_zero_of_dvd_of_lt hdvd (by omega)
      omega

theorem forceAdvance_eq_make (hinv : Inv first ts) (h : ts.validityStart ≤ v) :
    ts.forceAdvance v = .ok (make (toTick (ts.validityStart +
      (toInt (v - ts.validityStart)).tdiv (toInt ts.period) * toInt ts.period)) ts.period) := by
  have hperiod : ts.period < 2 ^ 32 := by
    have := hinv.complete ▸ hinv.end_lt
    omega
  rw [forceAdvance, if_neg (Nat.not_lt.mpr h), if_neg (toInt_ne_zero hinv.pos hperiod)]

/-- A call keeps the phase if and only if it fits. -/
theorem inPhase_iff (hinv : Inv first ts) : InPhase first ts call ↔ ts.Fits call := by
  cases call with
  | advance validityEnd =>
    by_cases hle : toTick (ts.validityEnd + ts.period) ≤ validityEnd.toNat
    · have hstep : ts.step (.advance validityEnd) = .ok ts.next := by
        rw [step, advance, if_pos hle, Option.getD_some]
      have hcall : ∀ t, Call.advance validityEnd ≠ .forceAdvance t := fun _ h => Call.noConfusion h
      rw [inPhase_of_step hinv hstep, keeps_next_iff hinv hcall]
      exact ⟨fun h _ => h, fun h => h hle⟩
    · have hstep : ts.step (.advance validityEnd) = .ok ts := by
        rw [step, advance, if_neg hle, Option.getD_none]
      exact iff_of_true ((inPhase_of_step hinv hstep).mpr (keeps_refl hinv.complete nofun))
        fun h => absurd h hle
  | greedyAdvance a =>
    by_cases hlt : ts.validityEnd < a.validityEnd
    · have hstep : ts.step (.greedyAdvance a) = .ok ts.next := by
        rw [step, greedyAdvance, if_pos hlt, Option.getD_some]
      have hcall : ∀ t, Call.greedyAdvance a ≠ .forceAdvance t := fun _ h => Call.noConfusion h
      rw [inPhase_of_step hinv hstep, keeps_next_iff hinv hcall]
      exact ⟨fun h _ => h, fun h => h hlt⟩
    · have hstep : ts.step (.greedyAdvance a) = .ok ts := by
        rw [step, greedyAdvance, if_neg hlt, Option.getD_none]
      exact iff_of_true ((inPhase_of_step hinv hstep).mpr (keeps_refl hinv.complete nofun))
        fun h => absurd h hlt
  | forceAdvance t =>
    by_cases hle : ts.validityStart ≤ t.toNat
    · have hend : ts.validityStart + ts.period < 2 ^ 32 := hinv.complete ▸ hinv.end_lt
      have htick : t.toNat < 2 ^ 32 := t.toNat_lt
      have hstep : ts.step (.forceAdvance t) = _ := forceAdvance_eq_make hinv hle
      rw [inPhase_of_step hinv hstep]
      constructor
      · intro hkeeps _
        have hcovers := hkeeps.covers t rfl hle
        rw [hkeeps.complete, hkeeps.period] at hcovers
        have hx := (eq_iff_covers hinv.pos hle).mpr ⟨hkeeps.phase, hkeeps.le, hcovers⟩
        have hfit := (complete_make_iff _ _).mp hkeeps.complete
        dsimp only [make] at hx
        rw [hx] at hfit
        exact ⟨hfit, (toTick_jumped_iff hinv.pos hend (by omega) hfit).mp hx⟩
      · intro h
        obtain ⟨hfit, hjump⟩ := h hle
        have hx := (toTick_jumped_iff hinv.pos hend (by omega) hfit).mpr hjump
        obtain ⟨hphase, hge, hcovers⟩ := (eq_iff_covers hinv.pos hle).mp rfl
        rw [hx]
        have hcomplete := (complete_make_iff _ _).mpr hfit
        refine ⟨hcomplete, rfl, hphase, hge, fun t' ht' _ => ?_⟩
        cases ht'
        rw [hcomplete]
        exact hcovers
    · have hlt := Nat.not_le.mp hle
      have hstep : ts.step (.forceAdvance t) = .ok ts := if_pos hlt
      refine iff_of_true ((inPhase_of_step hinv hstep).mpr ?_) fun h => absurd h hle
      exact keeps_refl hinv.complete fun t' ht' => by
        cases ht'
        exact hlt

/-- What holds before a call holds after it. -/
theorem Inv.step {ts' : PeriodicTimeSpec} (hinv : Inv first ts) (h : InPhase first ts call)
    (hstep : ts.step call = .ok ts') : Inv first ts' := by
  obtain ⟨_, hstep', hkeeps, hperiod, hphase⟩ := h
  obtain rfl := Except.ok.inj (hstep.symm.trans hstep')
  refine ⟨hkeeps.complete, ?_, hkeeps.period ▸ hinv.pos, hperiod, hphase⟩
  -- the end is the old one, or that of a new span
  cases call with
  | advance validityEnd =>
    rw [PeriodicTimeSpec.step, Except.ok.injEq, advance] at hstep
    split at hstep
    · rw [← hstep, Option.getD_some]
      exact end_make_lt _ _
    · rw [← hstep, Option.getD_none]
      exact hinv.end_lt
  | greedyAdvance a =>
    rw [PeriodicTimeSpec.step, Except.ok.injEq, greedyAdvance] at hstep
    split at hstep
    · rw [← hstep, Option.getD_some]
      exact end_make_lt _ _
    · rw [← hstep, Option.getD_none]
      exact hinv.end_lt
  | forceAdvance t =>
    by_cases hle : ts.validityStart ≤ t.toNat
    · rw [← Except.ok.inj ((forceAdvance_eq_make hinv hle).symm.trans hstep)]
      exact end_make_lt _ _
    · have hsame : ts.step (.forceAdvance t) = .ok ts := if_pos (Nat.not_le.mp hle)
      rw [← Except.ok.inj (hsame.symm.trans hstep)]
      exact hinv.end_lt

end PeriodicTimeSpec

/-! ### All calls -/

open PeriodicTimeSpec

theorem Origin.complete_create_iff (o : Origin) : o.create.Complete ↔ o.Fits := by
  cases o with
  | ticks validityStart period => exact complete_make_iff _ _
  | timeSpec validityStart validityEnd =>
    have hstart := validityStart.toNat_lt
    have hend := validityEnd.toNat_lt
    have hspan : DataTimeSpec.getValiditySpan ⟨validityStart.toNat, validityEnd.toNat⟩ =
        (((validityEnd.toNat : ℤ) - validityStart.toNat) % 2 ^ 32).toNat := rfl
    simp only [Complete, create, ofTimeSpec, Fits, UInt32.lt_iff_toNat_lt]
    by_cases hzero : DataTimeSpec.getValiditySpan ⟨validityStart.toNat, validityEnd.toNat⟩ = 0
    · rw [if_pos hzero]
      omega
    · rw [if_neg hzero]
      omega

theorem Origin.inv_create (o : Origin) (hp : 0 < o.create.period) (h : o.create.Complete) :
    PeriodicTimeSpec.Inv o.create o.create where
  complete := h
  end_lt := by
    cases o with
    | ticks validityStart period => exact end_make_lt _ _
    | timeSpec validityStart validityEnd => exact validityEnd.toNat_lt
  pos := hp
  period := rfl
  phase := rfl

/-- A span keeps its period and phase, if and only if it has them when it is made, and all calls
fit. -/
theorem inPhase_iff_of_run (o : Origin) (calls : List Call) (hp : 0 < o.create.period) :
    o.create.Complete ∧ Allowed step (InPhase o.create) o.create calls ↔
      o.Fits ∧ Allowed step Fits o.create calls := by
  rw [o.complete_create_iff]
  refine and_congr_right fun hfits => ?_
  exact allowed_congr (fun _ _ _ hinv hok hstep => hinv.step hok hstep)
    (fun _ _ hinv => inPhase_iff hinv) (o.inv_create hp (o.complete_create_iff.mpr hfits))

instance (o : Origin) : Decidable o.Fits :=
  match o with
  | .ticks _ _ | .timeSpec _ _ => inferInstanceAs (Decidable (_ < _))

instance (ts : PeriodicTimeSpec) (call : Call) : Decidable (ts.Fits call) :=
  match call with
  | .advance _ | .greedyAdvance _ => inferInstanceAs (Decidable (_ → _))
  | .forceAdvance _ => inferInstanceAs (Decidable (_ → _ ∧ _))

/-- A period of ten ticks. -/
theorem inPhase_tenTicks :
    (Origin.ticks 5 10).create.Complete ∧
      Allowed step (InPhase (Origin.ticks 5 10).create) (Origin.ticks 5 10).create
        [.advance 25, .greedyAdvance ⟨20, 26⟩, .forceAdvance 1000000, .advance 1000000] :=
  (inPhase_iff_of_run (.ticks 5 10) _ (by decide)).mpr
    ⟨by decide, allowed_of_checks (fun _ _ => of_decide_eq_true) (by decide)⟩

/-- A jump of 2^31 ticks leads to a span that starts after the tick. -/
theorem not_inPhase_longJump :
    ¬((Origin.ticks 0 10).create.Complete ∧
      Allowed step (InPhase (Origin.ticks 0 10).create) (Origin.ticks 0 10).create
        [.forceAdvance 2147483648]) := by
  rintro ⟨-, ⟨ts', hstep, hkeeps, -⟩, -⟩
  have hjump : (Origin.ticks 0 10).create.step (.forceAdvance 2147483648) =
      .ok ⟨2147483656, 2147483666, 10⟩ := by decide +kernel
  rw [← Except.ok.inj (hjump.symm.trans hstep)] at hkeeps
  exact absurd (hkeeps.covers 2147483648 rfl (Nat.zero_le _)).1 (by decide)

end Dueca.Trigger
