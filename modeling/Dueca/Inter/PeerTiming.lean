import Dueca.Inter.Entry

/-!
# Time translation between nodes

A node keeps, for each peer, by how many ticks the time of the peer is behind its own. A correction
is added at the front of a list, with the tick of the peer after which it applies. The start of a
span is translated with the first correction of the list that is from an earlier tick. For the end
of a span the correction may also be from that tick itself, so that a tick with a correction is
translated in two ways.

The filter that decides on corrections works with floating point numbers; what it decides is an
input here. `accepted` records the translated spans, oldest first; nothing in the model reads it.
-/

namespace Dueca.Inter

open Dueca.Lib

/-- A tick, of 32 bits. -/
def toTick (x : ℤ) : ℕ := (x % 2 ^ 32).toNat

/-- `MAX_TIMETICK`. -/
def maxTimetick : ℕ := 4294967295

/-- A correction, and the tick of the peer after which it applies. -/
structure Adjustment where
  theirtime : ℕ
  transition : ℕ
  deriving DecidableEq, Repr

/-- The timing of a peer, the newest correction first. There is none until the first time
difference is known. -/
structure PeerTiming where
  jumpsize : ℕ
  adjustment : List Adjustment := []
  accepted : List (DataTimeSpec × DataTimeSpec) := []
  deriving DecidableEq, Repr

/-- What the filter decides. Nothing changes when it is also used to control the clock. -/
inductive Jump | none | forward | backward
  deriving DecidableEq, Repr

/-- The first correction divides by the size of a jump. -/
inductive TimingFault | divisionByZero
  deriving DecidableEq, Repr

namespace PeerTiming

/-- The first correction, rounded to a multiple of the size of a jump. -/
def firstAdjustment (jumpsize mytime theirtime : ℕ) : Adjustment :=
  if theirtime ≤ mytime then
    let transBare := mytime - theirtime
    let deltaPlushalf := toTick (transBare + jumpsize / 2 : ℕ) % jumpsize
    ⟨0, toTick (transBare + (jumpsize / 2 : ℕ) - deltaPlushalf)⟩
  else
    let transBare := theirtime - mytime
    let deltaPlushalf := toTick (transBare + jumpsize / 2 : ℕ) % jumpsize
    ⟨theirtime - mytime, toTick (-(transBare + (jumpsize / 2 : ℕ) - deltaPlushalf))⟩

def adjustDelta (p : PeerTiming) (mytime theirtime : ℕ) (jump : Jump) :
    Except TimingFault PeerTiming :=
  match p.adjustment with
  | [] =>
    if p.jumpsize = 0 then .error .divisionByZero
    else .ok { p with adjustment := [firstAdjustment p.jumpsize mytime theirtime] }
  | front :: rest =>
    match jump with
    | .none => .ok p
    | .forward =>
      let new := ⟨toTick (theirtime + p.jumpsize), toTick (front.transition + p.jumpsize)⟩
      .ok { p with adjustment := new :: front :: rest }
    | .backward =>
      let new := ⟨toTick (theirtime + p.jumpsize), toTick (front.transition - p.jumpsize)⟩
      .ok { p with adjustment := new :: front :: rest }

/-- The correction for the start of a span. -/
def forStart (p : PeerTiming) (tick : ℕ) : Option Adjustment :=
  p.adjustment.find? fun t => t.theirtime < tick

/-- The correction for its end. -/
def forEnd (p : PeerTiming) (tick : ℕ) : Option Adjustment :=
  p.adjustment.find? fun t => t.theirtime ≤ tick

/-- The translation of a span, if it is accepted. -/
def translate (p : PeerTiming) (theirtime : DataTimeSpec) : Option DataTimeSpec :=
  if toTick (theirtime.validityEnd - theirtime.validityStart) ≠ 0 then
    let t1 := match p.forEnd theirtime.validityEnd with
      | some t => toTick (theirtime.validityEnd + t.transition)
      | none => 0
    let t0 := match p.forStart theirtime.validityStart with
      | some t => toTick (theirtime.validityStart + t.transition)
      | none => maxTimetick
    if t0 < t1 then some ⟨t0, t1⟩ else none
  else
    match p.forStart theirtime.validityStart with
    | some t =>
      let t0 := toTick (theirtime.validityEnd + t.transition)
      some ⟨t0, t0⟩
    | none => none

end PeerTiming

/-- A time difference, or a span to translate. -/
inductive TimingInput
  | adjustDelta (mytime theirtime : ℕ) (jump : Jump)
  | translate (ts : DataTimeSpec)
  deriving DecidableEq, Repr

def timingStep (p : PeerTiming) : TimingInput → Except TimingFault PeerTiming
  | .adjustDelta mytime theirtime jump => p.adjustDelta mytime theirtime jump
  | .translate ts =>
    match p.translate ts with
    | some out => .ok { p with accepted := p.accepted ++ [(ts, out)] }
    | none => .ok p

/-- The spans that come in are in order, from a tick on. -/
def InOrder : ℕ → List TimingInput → Prop
  | _, [] => True
  | x, .adjustDelta .. :: ins => InOrder x ins
  | x, .translate ts :: ins =>
    x ≤ ts.validityStart ∧ ts.validityStart ≤ ts.validityEnd ∧ ts.validityEnd < 2 ^ 32 ∧
      InOrder ts.validityEnd ins

/-- Spans and their translations. Spans stay spans and events stay events, in order, and what
follows without a gap does so after the translation: the tick in between has one translation. -/
structure KeepsOrder (accepted : List (DataTimeSpec × DataTimeSpec)) : Prop where
  span : ∀ io ∈ accepted, io.1.validityStart < io.1.validityEnd →
    io.2.validityStart < io.2.validityEnd
  event : ∀ io ∈ accepted, io.1.validityStart = io.1.validityEnd →
    io.2.validityStart = io.2.validityEnd
  ordered : accepted.Pairwise fun io io' => io.2.validityEnd ≤ io'.2.validityStart
  contiguous : accepted.Pairwise fun io io' =>
    io.1.validityEnd = io'.1.validityStart → io.2.validityEnd = io'.2.validityStart

/-! ### Careful runs -/

/-- The correction at a tick that has none of its own, as a signed number. -/
def PeerTiming.correction (p : PeerTiming) (tick : ℕ) : ℤ :=
  match p.forStart tick with
  | some t => (t.transition : ℤ).bmod (2 ^ 32)
  | none => 0

/-- The translation of a tick is a tick. -/
def PeerTiming.InTicks (p : PeerTiming) (tick : ℕ) : Prop :=
  0 ≤ tick + p.correction tick ∧ tick + p.correction tick < 2 ^ 32

/-- A new correction does not apply to what has been translated. No span that is accepted ends at
a correction, and corrections do not go back by more than the gap since the last one that was
accepted. -/
def Careful (p : PeerTiming) : TimingInput → Prop
  | .adjustDelta _ theirtime jump =>
    p.jumpsize ≠ 0 ∧ (p.adjustment ≠ [] → jump ≠ .none →
      ∀ io ∈ p.accepted, io.1.validityEnd ≤ toTick (theirtime + p.jumpsize))
  | .translate ts => (p.translate ts).isSome →
    (ts.validityStart < ts.validityEnd → ∀ t ∈ p.adjustment, t.theirtime ≠ ts.validityEnd) ∧
      p.InTicks ts.validityStart ∧ p.InTicks ts.validityEnd ∧
      ∀ io ∈ p.accepted.getLast?,
        p.correction io.1.validityEnd - p.correction ts.validityStart ≤
          ts.validityStart - io.1.validityEnd

instance (p : PeerTiming) (tick : ℕ) : Decidable (p.InTicks tick) :=
  inferInstanceAs (Decidable (_ ∧ _))

instance (p : PeerTiming) : DecidablePred (Careful p)
  | .adjustDelta _ theirtime _ => inferInstanceAs (Decidable (_ ∧ (_ → _ →
      ∀ io ∈ p.accepted, io.1.validityEnd ≤ toTick (theirtime + p.jumpsize))))
  | .translate ts => inferInstanceAs (Decidable (_ → _ ∧ _ ∧ _ ∧
      ∀ io ∈ p.accepted.getLast?,
        p.correction io.1.validityEnd - p.correction ts.validityStart ≤
          ts.validityStart - io.1.validityEnd))

variable {p p' : PeerTiming} {ts out : DataTimeSpec} {x y : ℕ} {ins : List TimingInput}

/-! ### One span -/

theorem find?_congr {α : Type} {l : List α} {f g : α → Bool} (h : ∀ a ∈ l, f a = g a) :
    l.find? f = l.find? g := by
  induction l with
  | nil => rfl
  | cons a l ih =>
    rw [List.find?_cons, List.find?_cons, h a List.mem_cons_self,
      ih fun b hb => h b (List.mem_cons_of_mem a hb)]

theorem forEnd_eq (h : ∀ t ∈ p.adjustment, t.theirtime ≠ x) : p.forEnd x = p.forStart x := by
  refine find?_congr fun t ht => ?_
  have := h t ht
  simp only [decide_eq_decide]
  omega

theorem toTick_lt (x : ℤ) : toTick x < 2 ^ 32 := by
  unfold toTick
  omega

theorem toTick_correction {t : Adjustment} (h : p.forStart x = some t) (hx : p.InTicks x) :
    (toTick (x + t.transition) : ℤ) = x + p.correction x := by
  unfold PeerTiming.InTicks at hx
  have hmod : (x + (t.transition : ℤ)) % 2 ^ 32 = (x + p.correction x) % 2 ^ 32 := by
    simp only [PeerTiming.correction, h]
    rw [Int.bmod_def]
    split <;> omega
  unfold toTick
  omega

/-- A span that does not end at a correction is translated tick by tick. -/
theorem translate_eq (hle : ts.validityStart ≤ ts.validityEnd) (hend : ts.validityEnd < 2 ^ 32)
    (h : p.translate ts = some out)
    (hclear : ts.validityStart < ts.validityEnd → ∀ t ∈ p.adjustment, t.theirtime ≠ ts.validityEnd)
    (hstart : p.InTicks ts.validityStart) (hstop : p.InTicks ts.validityEnd) :
    (out.validityStart : ℤ) = ts.validityStart + p.correction ts.validityStart ∧
      (out.validityEnd : ℤ) = ts.validityEnd + p.correction ts.validityEnd ∧
      (ts.validityStart < ts.validityEnd → out.validityStart < out.validityEnd) ∧
      (ts.validityStart = ts.validityEnd → out.validityStart = out.validityEnd) := by
  unfold PeerTiming.translate at h
  split at h
  · rename_i hspan
    have hlt : ts.validityStart < ts.validityEnd := by
      unfold toTick at hspan
      omega
    rw [forEnd_eq (hclear hlt)] at h
    cases hb : p.forStart ts.validityEnd with
    | none => simp only [hb, Nat.not_lt_zero, if_false, reduceCtorEq] at h
    | some t =>
      cases ha : p.forStart ts.validityStart with
      | none =>
        have hmax := toTick_lt (ts.validityEnd + t.transition)
        simp only [hb, ha, maxTimetick] at h
        rw [if_neg (by omega)] at h
        cases h
      | some t' =>
        simp only [hb, ha, Option.ite_none_right_eq_some, Option.some.injEq] at h
        obtain ⟨hless, rfl⟩ := h
        exact ⟨toTick_correction ha hstart, toTick_correction hb hstop, fun _ => hless,
          fun heq => absurd heq (Nat.ne_of_lt hlt)⟩
  · rename_i hspan
    have heq : ts.validityStart = ts.validityEnd := by
      unfold toTick at hspan
      omega
    cases ha : p.forStart ts.validityStart with
    | none => simp only [ha, reduceCtorEq] at h
    | some t =>
      simp only [ha, Option.some.injEq] at h
      subst h
      rw [← heq]
      exact ⟨toTick_correction ha hstart, toTick_correction ha hstart,
        fun hlt => absurd hlt (Nat.lt_irrefl _), fun _ => rfl⟩

/-! ### Runs -/

/-- The invariant; spans have come in up to `x`. -/
structure Timely (x : ℕ) (p : PeerTiming) : Prop where
  unknown : p.adjustment = [] → p.accepted = []
  before : ∀ io ∈ p.accepted, io.1.validityEnd ≤ x
  last : ∀ io ∈ p.accepted.getLast?,
    (io.2.validityEnd : ℤ) = io.1.validityEnd + p.correction io.1.validityEnd
  upTo : ∀ last ∈ p.accepted.getLast?, ∀ io ∈ p.accepted,
    io.1.validityEnd ≤ last.1.validityEnd ∧ io.2.validityEnd ≤ last.2.validityEnd ∧
      (io.1.validityEnd = last.1.validityEnd → io.2.validityEnd = last.2.validityEnd)
  keepsOrder : KeepsOrder p.accepted

/-- A correction from a later tick changes nothing for a tick. -/
theorem correction_cons {t : Adjustment} (h : x ≤ t.theirtime) :
    PeerTiming.correction { p with adjustment := t :: p.adjustment } x = p.correction x := by
  have hstart : PeerTiming.forStart { p with adjustment := t :: p.adjustment } x =
      p.forStart x := by
    unfold PeerTiming.forStart
    rw [List.find?_cons_of_neg (by simp only [decide_eq_true_eq]; omega)]
  rw [PeerTiming.correction, hstart, PeerTiming.correction]

theorem Timely.cons (h : Timely x p) {t : Adjustment} {rest : List Adjustment}
    (hadjustment : p.adjustment = rest)
    (hlater : ∀ io ∈ p.accepted, io.1.validityEnd ≤ t.theirtime) :
    Timely x { p with adjustment := t :: rest } where
  unknown := nofun
  before := h.before
  last io hio := by
    subst hadjustment
    have hmem := List.mem_of_getLast? (Option.mem_def.mp hio)
    rw [correction_cons (hlater io hmem)]
    exact h.last io hio
  upTo := h.upTo
  keepsOrder := h.keepsOrder

theorem timely_adjust (h : Timely x p) (mytime theirtime : ℕ) (jump : Jump)
    (hcareful : Careful p (.adjustDelta mytime theirtime jump)) :
    ∃ p', timingStep p (.adjustDelta mytime theirtime jump) = .ok p' ∧ Timely x p' := by
  obtain ⟨hsize, hlater⟩ := hcareful
  unfold timingStep PeerTiming.adjustDelta
  cases hadjustment : p.adjustment with
  | nil =>
    simp only [if_neg hsize]
    refine ⟨_, rfl, h.cons hadjustment ?_⟩
    rw [h.unknown hadjustment]
    exact fun _ hio => absurd hio List.not_mem_nil
  | cons front rest =>
    have hknown : p.adjustment ≠ [] := hadjustment ▸ List.cons_ne_nil front rest
    cases jump with
    | none => exact ⟨p, rfl, h⟩
    | forward => exact ⟨_, rfl, h.cons hadjustment (hlater hknown nofun)⟩
    | backward => exact ⟨_, rfl, h.cons hadjustment (hlater hknown nofun)⟩

theorem adjustment_ne_nil (h : p.translate ts = some out) : p.adjustment ≠ [] := by
  intro hnil
  simp only [PeerTiming.translate, PeerTiming.forEnd, PeerTiming.forStart, hnil, List.find?_nil,
    Nat.not_lt_zero, if_false, ite_self, reduceCtorEq] at h

theorem timely_translate (h : Timely x p) (hle : x ≤ ts.validityStart)
    (hspan : ts.validityStart ≤ ts.validityEnd) (hend : ts.validityEnd < 2 ^ 32)
    (hcareful : Careful p (.translate ts)) :
    ∃ p', timingStep p (.translate ts) = .ok p' ∧ Timely ts.validityEnd p' := by
  cases htranslate : p.translate ts with
  | none =>
    exact ⟨p, by simp only [timingStep, htranslate],
      { unknown := h.unknown
        before := fun io hio => (h.before io hio).trans (hle.trans hspan)
        last := h.last
        upTo := h.upTo
        keepsOrder := h.keepsOrder }⟩
  | some out =>
    obtain ⟨hclear, hstart, hstop, hgap⟩ := hcareful (htranslate ▸ rfl)
    obtain ⟨hout, hout', hlt, heq⟩ := translate_eq hspan hend htranslate hclear hstart hstop
    have hout_le : out.validityStart ≤ out.validityEnd := by
      rcases Nat.lt_or_eq_of_le hspan with h | h
      · exact (hlt h).le
      · exact (heq h).le
    -- the new span is compared with the last one, and through it with all others
    have hbefore : ∀ io ∈ p.accepted, io.2.validityEnd ≤ out.validityStart ∧
        (io.1.validityEnd = ts.validityStart → io.2.validityEnd = out.validityStart) := by
      intro io hio
      obtain ⟨last, hlast⟩ : ∃ last, last ∈ p.accepted.getLast? := by
        rw [List.getLast?_eq_getLast_of_ne_nil (List.ne_nil_of_mem hio)]
        exact ⟨_, rfl⟩
      obtain ⟨hio_le, hio_le', hio_eq⟩ := h.upTo last hlast io hio
      have hmem := List.mem_of_getLast? (Option.mem_def.mp hlast)
      have hlast_le := (h.before last hmem).trans hle
      have hlast_eq := h.last last hlast
      have hdrop := hgap last hlast
      refine ⟨by omega, fun htouch => ?_⟩
      have hsame : last.1.validityEnd = ts.validityStart := by omega
      rw [hsame] at hlast_eq
      have := hio_eq (by omega)
      omega
    refine ⟨{ p with accepted := p.accepted ++ [(ts, out)] },
      by simp only [timingStep, htranslate], ?_⟩
    exact
      { unknown := fun hnil => absurd hnil (adjustment_ne_nil htranslate)
        before := by
          intro io hio
          rcases List.mem_append.mp hio with hio | hio
          · exact (h.before io hio).trans (hle.trans hspan)
          · exact List.mem_singleton.mp hio ▸ le_rfl
        last := by
          intro io hio
          rw [List.getLast?_concat] at hio
          obtain rfl := Option.some.inj hio
          exact hout'
        upTo := by
          intro last hlast io hio
          rw [List.getLast?_concat] at hlast
          obtain rfl := Option.some.inj hlast
          rcases List.mem_append.mp hio with hio | hio
          · obtain ⟨hio_le, hio_eq⟩ := hbefore io hio
            have hin := (h.before io hio).trans hle
            refine ⟨hin.trans hspan, hio_le.trans hout_le, fun htouch => ?_⟩
            simp only at htouch
            have hevent := heq (by omega)
            rw [hio_eq (by omega)]
            exact hevent
          · rw [List.mem_singleton.mp hio]
            exact ⟨le_rfl, le_rfl, fun _ => rfl⟩
        keepsOrder :=
          { span := by
              intro io hio
              rcases List.mem_append.mp hio with hio | hio
              · exact h.keepsOrder.span io hio
              · exact List.mem_singleton.mp hio ▸ hlt
            event := by
              intro io hio
              rcases List.mem_append.mp hio with hio | hio
              · exact h.keepsOrder.event io hio
              · exact List.mem_singleton.mp hio ▸ heq
            ordered := List.pairwise_append.mpr ⟨h.keepsOrder.ordered, List.pairwise_singleton ..,
              fun io hio io' hio' => List.mem_singleton.mp hio' ▸ (hbefore io hio).1⟩
            contiguous := List.pairwise_append.mpr ⟨h.keepsOrder.contiguous,
              List.pairwise_singleton ..,
              fun io hio io' hio' => List.mem_singleton.mp hio' ▸ (hbefore io hio).2⟩ } }

theorem timely_init (jumpsize : ℕ) : Timely 0 { jumpsize := jumpsize } where
  unknown := fun _ => rfl
  before := fun _ hio => absurd hio List.not_mem_nil
  last := fun _ hio => nomatch hio
  upTo := fun _ hio => nomatch hio
  keepsOrder :=
    { span := fun _ hio => absurd hio List.not_mem_nil
      event := fun _ hio => absurd hio List.not_mem_nil
      ordered := List.Pairwise.nil
      contiguous := List.Pairwise.nil }

theorem timely_run (h : Timely x p) (hins : InOrder x ins)
    (hcareful : Allowed timingStep Careful p ins) :
    ∃ p' y, exec timingStep p ins = .ok p' ∧ Timely y p' := by
  induction ins generalizing x p with
  | nil => exact ⟨p, x, rfl, h⟩
  | cons input ins ih =>
    cases input with
    | adjustDelta mytime theirtime jump =>
      obtain ⟨p', hstep, h'⟩ := timely_adjust h mytime theirtime jump hcareful.1
      obtain ⟨q, y, hexec, hq⟩ := ih h' hins (hcareful.2 p' hstep)
      exact ⟨q, y, (exec_cons_ok hstep).trans hexec, hq⟩
    | translate ts =>
      obtain ⟨hle, hspan, hend, hrest⟩ := hins
      obtain ⟨p', hstep, h'⟩ := timely_translate h hle hspan hend hcareful.1
      obtain ⟨q, y, hexec, hq⟩ := ih h' hrest (hcareful.2 p' hstep)
      exact ⟨q, y, (exec_cons_ok hstep).trans hexec, hq⟩

end Dueca.Inter
