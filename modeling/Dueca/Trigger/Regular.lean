import Dueca.Trigger.Regulator

/-!
# Regulated spans

What a regulator passes on for ordered incoming spans. Its spans are in order, have the period of
the regulator and start no earlier than its offset; only directly after a gap in the incoming
spans there may be a shorter one.

This fails after gaps. A regulator that is not greedy goes on from the last end of a span before
the gap ends, and then compares the wrong way whether there is a shorter span: it passes on a
span that ends before it starts. A greedy one does so too, or passes on again what it has passed on
before the gap. And a gap that ends within the first period moves the regulator back, even to
before its offset.
-/

namespace Dueca.Trigger

open Dueca.Lib

/-- Spans in order, from a tick on. -/
def Ordered : ℕ → List DataTimeSpec → Prop
  | _, [] => True
  | x, t :: ts => x ≤ t.validityStart ∧ t.validityStart ≤ t.validityEnd ∧ Ordered t.validityEnd ts

/-- Spans without gaps, from a tick on. -/
def GapFreeFrom : ℕ → List DataTimeSpec → Prop
  | _, [] => True
  | x, t :: ts => t.validityStart = x ∧ GapFreeFrom t.validityEnd ts

/-- Up to where spans have come in; a regulator starts at tick zero. -/
def lastEnd (ins : List DataTimeSpec) : ℕ := (ins.getLast?.map (·.validityEnd)).getD 0

/-- A span comes in after a gap. -/
def AfterGap (ins : List DataTimeSpec) (t : DataTimeSpec) : Prop :=
  ∃ pre post, ins = pre ++ t :: post ∧ lastEnd pre < t.validityStart

/-- Spans as they ought to be passed on. As they are in order, there is at most one shorter span
for each gap. -/
structure WellFormed (k : Kind) (offset period : ℕ) (ins out : List DataTimeSpec) : Prop where
  nonempty : ∀ ts ∈ out, ts.validityStart < ts.validityEnd
  ordered : out.Pairwise fun ts ts' => ts.validityEnd ≤ ts'.validityStart
  offset : ∀ ts ∈ out, offset ≤ ts.validityStart
  length : ∀ ts ∈ out, ts.validityEnd = ts.validityStart + period ∨
    ts.validityEnd < ts.validityStart + period ∧
      ∃ t, AfterGap ins t ∧ ts.validityStart = t.validityStart
  reached : k = .regular → ∀ ts ∈ out, ts.validityEnd ≤ lastEnd ins

/-! ### Careful triggers -/

/-- A tick after the span of the regulator, by a whole number of periods. A span that is said to
start before tick zero does not move on. -/
def OnBoundary (e p a : ℕ) : Prop := a = e ∨ p ≤ e ∧ p ∣ a - e

/-- The end of the span of the regulator in which a tick is, if that is not after the regulator.
Within the first period the regulator moves back for it. -/
def boundaryAfter (e p a : ℕ) : ℕ := if a < p then e - (e - a) / p * p else e

/-- A gap ends at the end of a span, or before a regulator that is not greedy. For a greedy one
it ends before the regulator, and either the incoming span goes no further than the regulator, or
nothing has been passed on beyond the gap. Within the first period, it ends less than a period
before the offset. -/
def Kind.JumpsWell (k : Kind) (offset : ℕ) (r : Regulator) (t : DataTimeSpec) : Prop :=
  (t.validityStart < r.ts.period → offset < t.validityStart + r.ts.period) ∧
    (r.ts.validityEnd ≤ t.validityStart →
      OnBoundary r.ts.validityEnd r.ts.period t.validityStart ∧
        (k = .greedy → t.validityStart = t.validityEnd)) ∧
    (k = .greedy → t.validityStart < r.ts.validityEnd →
      t.validityEnd ≤ boundaryAfter r.ts.validityEnd r.ts.period t.validityStart ∨
        t.validityStart < boundaryAfter r.ts.validityEnd r.ts.period t.validityStart ∧
          offset ≤ t.validityStart ∧ ∀ ts ∈ r.emitted, ts.validityEnd ≤ t.validityStart)

/-- No sum exceeds a tick, and gaps end where the regulator can go on. -/
def Kind.Careful (k : Kind) (offset : ℕ) (r : Regulator) (t : DataTimeSpec) : Prop :=
  k.NoWrap r.ts.validityEnd r.ts.period t.validityEnd ∧
    (r.prevEnd < t.validityStart →
      Near r.ts.validityEnd r.ts.period t.validityStart ∧ k.JumpsWell offset r t)

instance (e p a : ℕ) : Decidable (OnBoundary e p a) := inferInstanceAs (Decidable (_ ∨ _))

instance (k : Kind) (offset : ℕ) (r : Regulator) (t : DataTimeSpec) :
    Decidable (k.JumpsWell offset r t) := inferInstanceAs (Decidable (_ ∧ _ ∧ _))

instance (k : Kind) (offset : ℕ) (r : Regulator) (t : DataTimeSpec) :
    Decidable (k.Careful offset r t) := inferInstanceAs (Decidable (_ ∧ _))

/-! ### The invariant -/

/-- What holds of a regulator after careful triggers. -/
structure Inv (k : Kind) (o p : ℕ) (seen : List DataTimeSpec) (r : Regulator) : Prop where
  ts : r.ts = ending r.ts.validityEnd p
  offset : o ≤ r.ts.validityEnd
  onGrid : r.ts.validityEnd ≡ o [MOD p]
  prevEnd : r.prevEnd = lastEnd seen
  newTs : r.newTs = none
  before : ∀ ts ∈ r.emitted, ts.validityEnd ≤ r.ts.validityEnd
  near : r.ts.validityEnd ≤ max o r.prevEnd + p
  ahead : r.emitted ≠ [] → r.ts.validityEnd < r.prevEnd + p
  wellFormed : WellFormed k o p seen r.emitted
  gapFree : GapFreeFrom o seen →
    ∃ j n, r.emitted = grid (o + j * p) p n ∧ o + (j + n) * p = r.ts.validityEnd

variable {k : Kind} {r : Regulator} {t : DataTimeSpec} {a b e o p x n prev : ℕ}
variable {seen ins out : List DataTimeSpec}

@[simp] theorem lastEnd_concat : lastEnd (seen ++ [t]) = t.validityEnd := by
  simp [lastEnd]

theorem AfterGap.append (h : AfterGap seen t) (ins : List DataTimeSpec) :
    AfterGap (seen ++ ins) t := by
  obtain ⟨pre, post, rfl, hgap⟩ := h
  exact ⟨pre, post ++ ins, by simp, hgap⟩

theorem afterGap_concat (h : lastEnd seen < t.validityStart) : AfterGap (seen ++ [t]) t :=
  ⟨seen, [], rfl, h⟩

theorem gapFreeFrom_concat :
    GapFreeFrom x (seen ++ [t]) ↔
      GapFreeFrom x seen ∧ t.validityStart = (if seen = [] then x else lastEnd seen) := by
  induction seen generalizing x with
  | nil => simp [GapFreeFrom]
  | cons u seen ih =>
    rw [List.cons_append, GapFreeFrom, ih, GapFreeFrom, and_assoc]
    cases seen with
    | nil => simp [lastEnd, GapFreeFrom]
    | cons v seen => simp [lastEnd]

/-! ### Where a trigger goes on -/

theorem jumpEnd_of_lt (h : a < e) : jumpEnd e p a = boundaryAfter e p a := by
  unfold jumpEnd boundaryAfter
  rw [if_neg (Nat.not_le.mpr h)]
  by_cases hp : p ≤ e
  · simp only [hp, and_true]
  · rw [if_neg fun h => hp h.2, Nat.div_eq_of_lt (by omega)]
    simp

theorem jumpEnd_of_onBoundary (hle : e ≤ a) (h : OnBoundary e p a) : jumpEnd e p a = a := by
  unfold jumpEnd
  rw [if_pos hle]
  rcases h with rfl | ⟨hp, hdvd⟩
  · simp
  · rw [if_pos hp, Nat.div_mul_cancel hdvd]
    omega

theorem jumpEnd_modEq : jumpEnd e p a ≡ e [MOD p] := by
  unfold jumpEnd
  split_ifs with hle hp hback
  · exact (Nat.modEq_iff_dvd' (Nat.le_add_right ..)).mpr (by simp) |>.symm
  · rfl
  · exact (Nat.modEq_iff_dvd' (Nat.sub_le ..)).mpr (by
      rw [Nat.sub_sub_self ((Nat.div_mul_le_self ..).trans (Nat.sub_le ..))]
      exact Nat.dvd_mul_left ..)
  · rfl

theorem boundaryAfter_bounds (hp : 0 < p) (h : a < e) :
    a ≤ boundaryAfter e p a ∧ boundaryAfter e p a ≤ e ∧
      (a < p → boundaryAfter e p a < a + p) ∧
      (e < a + p → boundaryAfter e p a = e) := by
  have hle := Nat.div_mul_le_self (e - a) p
  have hlt := Nat.lt_div_mul_add (a := e - a) hp
  unfold boundaryAfter
  refine ⟨by split <;> omega, by split <;> omega, fun hap => ?_, fun hep => ?_⟩
  · rw [if_pos hap]
    omega
  · rw [Nat.div_eq_of_lt (by omega)]
    simp

theorem shortens_regular : Kind.regular.shortens t (ending e p) = true ↔ e < t.validityStart :=
  decide_eq_true_iff

theorem shortens_greedy : Kind.greedy.shortens t (ending e p) = true ↔ e < t.validityEnd :=
  decide_eq_true_iff

namespace Inv

/-- The regulator goes on from an end of a span that is not before its offset, and not before what
it has passed on. -/
theorem resume (h : Inv k o p seen r) (hp : 0 < p)
    (hcareful : k.Careful o r t) (he : e = resumeEnd r.prevEnd r.ts.validityEnd p t.validityStart) :
    o ≤ e ∧ e ≡ o [MOD p] ∧ (∀ ts ∈ r.emitted, ts.validityEnd ≤ e) ∧
      e ≤ max r.ts.validityEnd t.validityStart := by
  have hperiod : r.ts.period = p := by rw [h.ts]; rfl
  subst he
  unfold resumeEnd
  split
  · rename_i hgap
    obtain ⟨-, hback, hover, -⟩ := hcareful.2 hgap
    rw [hperiod] at hback hover
    refine ⟨?_, jumpEnd_modEq.trans h.onGrid, ?_, jumpEnd_le_max ..⟩
    · rcases Nat.lt_or_ge t.validityStart r.ts.validityEnd with hlt | hge
      · obtain ⟨hle, -, -, -⟩ := boundaryAfter_bounds hp hlt
        have hmod := (jumpEnd_modEq (a := t.validityStart)).trans h.onGrid
        rw [jumpEnd_of_lt hlt] at hmod ⊢
        by_cases hap : t.validityStart < p
        · -- both are on the grid, and less than a period apart
          by_contra hlt'
          have hdvd := (Nat.modEq_iff_dvd' (Nat.le_of_not_le hlt')).mp hmod
          have := Nat.le_of_dvd (by omega) hdvd
          have := hback hap
          omega
        · rw [boundaryAfter, if_neg hap]
          exact h.offset
      · rw [jumpEnd_of_onBoundary hge (hover hge).1]
        exact h.offset.trans hge
    · intro ts hts
      have hahead := h.ahead (List.ne_nil_of_mem hts)
      refine (h.before ts hts).trans ?_
      rcases Nat.lt_or_ge t.validityStart r.ts.validityEnd with hlt | hge
      · obtain ⟨-, -, -, hsame⟩ := boundaryAfter_bounds hp hlt
        rw [jumpEnd_of_lt hlt, hsame (by omega)]
      · rwa [jumpEnd_of_onBoundary hge (hover hge).1]
  · exact ⟨h.offset, h.onGrid, h.before, le_max_left ..⟩

/-- For a gap a greedy regulator passes on the rest of its first span, or nothing. -/
theorem patch_cases (h : Inv k o p seen r) (hp : 0 < p)
    (hcareful : k.Careful o r t) (he : e = resumeEnd r.prevEnd r.ts.validityEnd p t.validityStart) :
    k.patch r.prevEnd t e p = [] ∨
      k.patch r.prevEnd t e p = [⟨t.validityStart, e⟩] ∧ k = .greedy ∧
        r.prevEnd < t.validityStart ∧ t.validityStart < r.ts.validityEnd ∧ t.validityStart < e ∧
        e ≤ t.validityStart + p ∧ e < t.validityEnd ∧ o ≤ t.validityStart ∧
        ∀ ts ∈ r.emitted, ts.validityEnd ≤ t.validityStart := by
  have hperiod : r.ts.period = p := by rw [h.ts]; rfl
  unfold Kind.patch
  split
  · rename_i hpatch
    obtain ⟨hgap, hshort⟩ := hpatch
    obtain ⟨-, -, hover, hgreedy⟩ := hcareful.2 hgap
    rw [hperiod] at hover hgreedy
    rw [resumeEnd, if_pos hgap] at he
    rcases Nat.lt_or_ge t.validityStart r.ts.validityEnd with hlt | hge
    · obtain ⟨hle, hle', -, -⟩ := boundaryAfter_bounds hp hlt
      rw [jumpEnd_of_lt hlt] at he
      subst he
      cases k with
      | regular =>
        have hlate := shortens_regular.mp hshort
        omega
      | greedy =>
        have hearly := shortens_greedy.mp hshort
        obtain hquiet | ⟨hinside, hoffset, hbefore⟩ := hgreedy rfl hlt
        · omega
        · have hnear := h.near
          exact .inr ⟨rfl, rfl, hgap, hlt, hinside, by omega, hearly, hoffset, hbefore⟩
    · obtain ⟨hon, hpoint⟩ := hover hge
      rw [jumpEnd_of_onBoundary hge hon] at he
      subst he
      cases k with
      | regular =>
        have hlate := shortens_regular.mp hshort
        omega
      | greedy =>
        have hearly := shortens_greedy.mp hshort
        have := hpoint rfl
        omega
  · exact .inl rfl

end Inv

theorem WellFormed.append {news : List DataTimeSpec} (h : WellFormed k o p seen out)
    (hle : lastEnd seen ≤ t.validityEnd)
    (hnonempty : ∀ ts ∈ news, ts.validityStart < ts.validityEnd)
    (hordered : news.Pairwise fun ts ts' => ts.validityEnd ≤ ts'.validityStart)
    (hafter : ∀ ts ∈ out, ∀ ts' ∈ news, ts.validityEnd ≤ ts'.validityStart)
    (hoffset : ∀ ts ∈ news, o ≤ ts.validityStart)
    (hlength : ∀ ts ∈ news, ts.validityEnd = ts.validityStart + p ∨
      ts.validityEnd < ts.validityStart + p ∧ lastEnd seen < t.validityStart ∧
        ts.validityStart = t.validityStart)
    (hreached : k = .regular → ∀ ts ∈ news, ts.validityEnd ≤ t.validityEnd) :
    WellFormed k o p (seen ++ [t]) (out ++ news) where
  nonempty ts hts := (List.mem_append.mp hts).elim (h.nonempty ts) (hnonempty ts)
  ordered := List.pairwise_append.mpr ⟨h.ordered, hordered, hafter⟩
  offset ts hts := (List.mem_append.mp hts).elim (h.offset ts) (hoffset ts)
  length ts hts := by
    rcases List.mem_append.mp hts with hts | hts
    · obtain hfull | ⟨hshort, u, hgap, hstart⟩ := h.length ts hts
      · exact .inl hfull
      · exact .inr ⟨hshort, u, hgap.append [t], hstart⟩
    · obtain hfull | ⟨hshort, hgap, hstart⟩ := hlength ts hts
      · exact .inl hfull
      · exact .inr ⟨hshort, t, afterGap_concat hgap, hstart⟩
  reached hk ts hts := by
    rw [lastEnd_concat]
    rcases List.mem_append.mp hts with hts | hts
    · exact (h.reached hk ts hts).trans hle
    · exact hreached hk ts hts

/-- Without gaps, what is passed on continues what has been passed on. -/
theorem Inv.gapFree_step (h : Inv k o p seen r) (hp : 0 < p) (hcareful : k.Careful o r t)
    (he : e = resumeEnd r.prevEnd r.ts.validityEnd p t.validityStart)
    (hfree : GapFreeFrom o (seen ++ [t])) (n : ℕ) :
    ∃ j m, r.emitted ++ (k.patch r.prevEnd t e p ++ grid e p n) = grid (o + j * p) p m ∧
      o + (j + m) * p = e + n * p := by
  obtain ⟨hseen, hstart⟩ := gapFreeFrom_concat.mp hfree
  obtain ⟨j, m, hemitted, hend⟩ := h.gapFree hseen
  -- what is passed on from the end of the regulator on
  have happend (hsame : e = r.ts.validityEnd) (hnone : k.patch r.prevEnd t e p = []) :
      ∃ j m, r.emitted ++ (k.patch r.prevEnd t e p ++ grid e p n) = grid (o + j * p) p m ∧
        o + (j + m) * p = e + n * p := by
    refine ⟨j, m + n, ?_, ?_⟩
    · rw [hnone, List.nil_append, hemitted, grid_add, hsame, ← hend]
      congr 2
      ring
    · rw [hsame, ← hend]
      ring
  by_cases hgap : r.prevEnd < t.validityStart
  · -- this is the first span, and it starts at the offset
    have hempty : seen = [] := by
      by_contra hne
      rw [if_neg hne, ← h.prevEnd] at hstart
      omega
    rw [if_pos hempty] at hstart
    have hzero : r.prevEnd = 0 := by rw [h.prevEnd, hempty]; rfl
    have hoffset := h.offset
    have hpatch := h.patch_cases hp hcareful he
    rcases Nat.lt_or_ge o r.ts.validityEnd with hlt | hge
    · have hone : r.ts.validityEnd = o + p := by
        have hnear := h.near
        have hdvd := Nat.le_of_dvd (by omega) ((Nat.modEq_iff_dvd' hoffset).mp h.onGrid.symm)
        omega
      have hnone : r.emitted = [] := by
        by_contra hne
        have := h.ahead hne
        omega
      rw [resumeEnd, if_pos hgap, hstart, jumpEnd_of_lt hlt, hone, boundaryAfter,
        Nat.add_sub_cancel_left, Nat.div_self hp, Nat.one_mul, Nat.add_sub_cancel] at he
      obtain hempty | ⟨hfull, -, -, -, hinside, -⟩ := hpatch
      · by_cases hop : o < p
        · rw [if_pos hop] at he
          refine ⟨0, n, ?_, ?_⟩
          · rw [hnone, hempty, he, Nat.zero_mul]
            rfl
          · rw [he, Nat.zero_add]
        · rw [if_neg hop] at he
          exact happend (he.trans hone.symm) hempty
      · have hop : ¬ o < p := by
          intro hop
          rw [if_pos hop] at he
          omega
        rw [if_neg hop] at he
        refine ⟨0, n + 1, ?_, ?_⟩
        · rw [hnone, hfull, hstart, he, Nat.zero_mul, grid_succ]
          rfl
        · rw [he]
          ring
    · have hsame : r.ts.validityEnd = o := Nat.le_antisymm hge hoffset
      rw [resumeEnd, if_pos hgap, hstart, hsame, jumpEnd_of_onBoundary le_rfl (.inl rfl)] at he
      obtain hempty | ⟨-, -, -, -, hinside, -⟩ := hpatch
      · exact happend (he.trans hsame.symm) hempty
      · omega
  · have hsame : e = r.ts.validityEnd := by rw [he, resumeEnd, if_neg hgap]
    exact happend hsame (if_neg fun hpatch => hgap hpatch.1)

/-- What a careful trigger passes on is as it ought to be. -/
theorem Inv.wellFormed_step (h : Inv k o p seen r) (hp : 0 < p)
    (hprev : r.prevEnd ≤ t.validityStart) (hle : t.validityStart ≤ t.validityEnd) (hcareful : k.Careful o r t)
    (he : e = resumeEnd r.prevEnd r.ts.validityEnd p t.validityStart)
    (hlast : 0 < n → k.Reached (e + n * p) p t.validityEnd) :
    WellFormed k o p (seen ++ [t]) (r.emitted ++ (k.patch r.prevEnd t e p ++ grid e p n)) := by
  obtain ⟨hoffset, -, hbefore, -⟩ := h.resume hp hcareful he
  have hpatch : ∀ ts ∈ k.patch r.prevEnd t e p, ts = ⟨t.validityStart, e⟩ ∧ k = .greedy ∧
      r.prevEnd < t.validityStart ∧ t.validityStart < e ∧ e ≤ t.validityStart + p ∧
      o ≤ t.validityStart ∧ ∀ ts ∈ r.emitted, ts.validityEnd ≤ t.validityStart := by
    intro ts hts
    obtain hnone | ⟨hone, hk, hgap, -, hinside, hshort, -, ho, hfirst⟩ :=
      h.patch_cases hp hcareful he
    · rw [hnone] at hts
      cases hts
    · rw [hone, List.mem_singleton] at hts
      exact ⟨hts, hk, hgap, hinside, hshort, ho, hfirst⟩
  refine h.wellFormed.append (h.prevEnd ▸ hprev.trans hle) ?_ ?_ ?_ ?_ ?_ ?_
  · intro ts hts
    rcases List.mem_append.mp hts with hts | hts
    · obtain ⟨rfl, -, -, hinside, -⟩ := hpatch ts hts
      exact hinside
    · rw [span_of_mem_grid hts]
      exact Nat.lt_add_of_pos_right hp
  · refine List.pairwise_append.mpr ⟨?_, pairwise_grid, fun ts hts ts' hts' => ?_⟩
    · unfold Kind.patch
      split
      · exact List.pairwise_singleton ..
      · exact List.Pairwise.nil
    · obtain ⟨rfl, -⟩ := hpatch ts hts
      exact le_of_mem_grid hts'
  · intro ts hts ts' hts'
    rcases List.mem_append.mp hts' with hts' | hts'
    · obtain ⟨rfl, -, -, -, -, -, hfirst⟩ := hpatch ts' hts'
      exact hfirst ts hts
    · exact (hbefore ts hts).trans (le_of_mem_grid hts')
  · intro ts hts
    rcases List.mem_append.mp hts with hts | hts
    · obtain ⟨rfl, -, -, -, -, ho, -⟩ := hpatch ts hts
      exact ho
    · exact hoffset.trans (le_of_mem_grid hts)
  · intro ts hts
    rcases List.mem_append.mp hts with hts | hts
    · obtain ⟨rfl, -, hgap, -, hshort, -⟩ := hpatch ts hts
      rcases Nat.lt_or_eq_of_le hshort with hlt | heq
      · exact .inr ⟨hlt, h.prevEnd ▸ hgap, rfl⟩
      · exact .inl heq
    · exact .inl (span_of_mem_grid hts)
  · rintro rfl ts hts
    rcases List.mem_append.mp hts with hts | hts
    · obtain ⟨-, hk, -⟩ := hpatch ts hts
      cases hk
    · obtain ⟨i, hi, -⟩ := mem_grid.mp hts
      exact (end_le_of_mem_grid hts).trans (hlast (Nat.zero_lt_of_lt hi))

/-- A careful trigger keeps the invariant. -/
theorem inv_trigger (h : Inv k o p seen r) (hp : 0 < p) (hprev : r.prevEnd ≤ t.validityStart)
    (hle : t.validityStart ≤ t.validityEnd) (hcareful : k.Careful o r t) :
    ∃ r', k.trigger r t = .ok r' ∧ r'.prevEnd = t.validityEnd ∧ Inv k o p (seen ++ [t]) r' := by
  have hperiod : r.ts.period = p := by rw [h.ts]; rfl
  obtain ⟨e, he⟩ : ∃ e, e = resumeEnd r.prevEnd r.ts.validityEnd p t.validityStart := ⟨_, rfl⟩
  obtain ⟨n, hrun, hlast, hdone⟩ := trigger_eq (k := k) (t := t) hp h.ts h.newTs
    (hperiod ▸ hcareful.1) hle fun hgap => hperiod ▸ (hcareful.2 hgap).1
  rw [← he] at hrun hlast hdone
  obtain ⟨hoffset, hmod, hbefore, hmax⟩ := h.resume hp hcareful he
  have hpatch := h.patch_cases hp hcareful he
  have hnear := h.near
  have hreach : k.Reached (e + n * p) p t.validityEnd → e + n * p < t.validityEnd + p := by
    cases k <;> simp only [Kind.Reached] <;> omega
  have hnew : ∀ ts ∈ grid e p n, ts.validityEnd ≤ e + n * p := fun ts => end_le_of_mem_grid
  refine ⟨_, hrun, rfl, ?_⟩
  exact
    { ts := rfl
      offset := hoffset.trans (Nat.le_add_right ..)
      onGrid := by
        have hadd : e + n * p ≡ e [MOD p] := by simp [Nat.ModEq]
        exact hadd.trans hmod
      prevEnd := lastEnd_concat.symm
      newTs := rfl
      before := by
        intro ts hts
        simp only [List.mem_append] at hts
        rcases hts with hts | hts | hts
        · exact (hbefore ts hts).trans (Nat.le_add_right ..)
        · obtain hnone | ⟨hone, -⟩ := hpatch
          · rw [hnone] at hts
            cases hts
          · rw [hone, List.mem_singleton] at hts
            exact hts ▸ Nat.le_add_right ..
        · exact hnew ts hts
      near := by
        change e + n * p ≤ max o t.validityEnd + p
        rcases Nat.eq_zero_or_pos n with rfl | hn
        · omega
        · have := hreach (hlast hn)
          omega
      ahead := by
        intro hne
        change e + n * p < t.validityEnd + p
        rcases Nat.eq_zero_or_pos n with rfl | hn
        · rw [Nat.zero_mul, Nat.add_zero]
          obtain hnone | ⟨-, -, -, -, -, -, hearly, -⟩ := hpatch
          · simp only [hnone, grid_zero, List.append_nil] at hne
            have := h.ahead hne
            omega
          · omega
        · exact hreach (hlast hn)
      wellFormed := h.wellFormed_step hp hprev hle hcareful he hlast
      gapFree := fun hfree => h.gapFree_step hp hcareful he hfree n }

/-! ### Runs -/

theorem inv_init (hp : 0 < p) (h : o + p < 2 ^ 32) : Inv k o p [] (.init ⟨o, o + p⟩) := by
  have hts : (Regulator.init ⟨o, o + p⟩).ts = ending (o + p) p := ofTimeSpec_eq hp h
  exact
    { ts := hts
      offset := Nat.le_add_right ..
      onGrid := by simp [Regulator.init, PeriodicTimeSpec.ofTimeSpec, Nat.ModEq]
      prevEnd := rfl
      newTs := rfl
      before := fun _ hts => absurd hts List.not_mem_nil
      near := Nat.add_le_add_right (le_max_left ..) p
      ahead := fun hne => absurd rfl hne
      wellFormed :=
        { nonempty := fun _ hts => absurd hts List.not_mem_nil
          ordered := List.Pairwise.nil
          offset := fun _ hts => absurd hts List.not_mem_nil
          length := fun _ hts => absurd hts List.not_mem_nil
          reached := fun _ _ hts => absurd hts List.not_mem_nil }
      gapFree := fun _ => ⟨1, 0, rfl, by simp [Regulator.init, PeriodicTimeSpec.ofTimeSpec]⟩ }

theorem inv_run (hp : 0 < p) (h : Inv k o p seen r) (hins : Ordered r.prevEnd ins)
    (hallowed : Allowed k.trigger (k.Careful o) r ins) :
    ∃ r', exec k.trigger r ins = .ok r' ∧ Inv k o p (seen ++ ins) r' := by
  induction ins generalizing seen r with
  | nil => exact ⟨r, rfl, by rwa [List.append_nil]⟩
  | cons t ins ih =>
    obtain ⟨hprev, hle, hrest⟩ := hins
    obtain ⟨r', hrun, hprev', hinv⟩ := inv_trigger h hp hprev hle hallowed.1
    obtain ⟨r'', hexec, hinv'⟩ := ih hinv (hprev' ▸ hrest) (hallowed.2 r' hrun)
    refine ⟨r'', (exec_cons_ok hrun).trans hexec, ?_⟩
    rwa [List.append_assoc] at hinv'

end Dueca.Trigger
