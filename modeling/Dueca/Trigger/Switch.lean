import Dueca.Trigger.Regular

/-!
# A new period

With a new period a regulator goes on from the end of its span. If the new period starts before
that, the regulator passes on one shorter span up to the next start of a new period, as soon as
there is enough input for it. The next start is computed from the difference between the end of the
span and the new start, but the new start is not added again. Only for a start at zero it is right.
A new start at the end of the span itself is taken as a later one.
-/

namespace Dueca.Trigger

open Dueca.Lib

/-- From where on spans of the new period are passed on, by a regulator at `e`. -/
def firstEnd (e start p : ℕ) : ℕ :=
  if start < e then (1 + (e - 1 - start) / p) * p else start + p

/-- The shorter span. -/
def switchPatch (e start p : ℕ) : List DataTimeSpec :=
  if start < e ∧ e < firstEnd e start p then [⟨e, firstEnd e start p⟩] else []

/-- The change waits. -/
structure Pending (k : Kind) (r : Regulator) (start p : ℕ) (ins : List DataTimeSpec)
    (r' : Regulator) : Prop where
  ts : r'.ts = r.ts
  newTs : r'.newTs = some ⟨start, start + p⟩
  emitted : r'.emitted = r.emitted
  early : ∀ t ∈ ins, start < r.ts.validityEnd ∧
    k.postpones t (firstEnd r.ts.validityEnd start p) = true

/-- The change has been made. -/
structure Applied (k : Kind) (r : Regulator) (start p : ℕ) (ins : List DataTimeSpec) (n : ℕ)
    (r' : Regulator) : Prop where
  ts : r'.ts = ending (firstEnd r.ts.validityEnd start p + n * p) p
  newTs : r'.newTs = none
  emitted : r'.emitted = r.emitted ++
    (switchPatch r.ts.validityEnd start p ++ grid (firstEnd r.ts.validityEnd start p) p n)
  reached : 0 < n → k.Reached (firstEnd r.ts.validityEnd start p + n * p) p (lastEnd ins)

/-- Spans as they ought to be passed on after a change. -/
structure Switched (r : Regulator) (start p : ℕ) (ins : List DataTimeSpec) (r' : Regulator)
    (news : List DataTimeSpec) : Prop where
  emitted : r'.emitted = r.emitted ++ news
  nonempty : ∀ ts ∈ news, ts.validityStart < ts.validityEnd
  ordered : news.Pairwise fun ts ts' => ts.validityEnd ≤ ts'.validityStart
  after : ∀ ts ∈ news, r.ts.validityEnd ≤ ts.validityStart
  contiguous : start ≤ r.ts.validityEnd → GapFreeFrom r.ts.validityEnd news
  onGrid : ∃ patch j n, news = patch ++ grid (start + j * p) p n ∧ patch.length ≤ 1 ∧
    ∀ ts ∈ patch, ts.validityEnd < ts.validityStart + p
  once : r'.newTs = none → r'.ts.period = p
  prompt : (∃ t ∈ ins, r.ts.validityEnd + p ≤ t.validityStart) → r'.newTs = none

variable {k : Kind} {r r' : Regulator} {t : DataTimeSpec} {e p n x start : ℕ}
variable {seen ins news : List DataTimeSpec}

/-! ### One trigger -/

theorem applyChange_eq (hp : 0 < p) (hnew : r.newTs = some ⟨start, start + p⟩)
    (hstart : start + p < 2 ^ 32) (hfirst : firstEnd r.ts.validityEnd start p < 2 ^ 32) :
    r.applyChange k t = .ok
      (if start < r.ts.validityEnd ∧ r.ts.validityEnd < firstEnd r.ts.validityEnd start p ∧
          k.postpones t (firstEnd r.ts.validityEnd start p) = true then
        ({ r with prevEnd := t.validityEnd }, false)
      else
        ({ r with
          ts := ending (firstEnd r.ts.validityEnd start p) p
          newTs := none
          emitted := r.emitted ++ switchPatch r.ts.validityEnd start p }, true)) := by
  have hspan : DataTimeSpec.getValiditySpan ⟨start, start + p⟩ = p := by
    simp only [DataTimeSpec.getValiditySpan, toTick]
    omega
  simp only [Regulator.applyChange, hnew, hspan]
  by_cases hlt : start < r.ts.validityEnd
  · have hdef : firstEnd r.ts.validityEnd start p =
        (1 + (r.ts.validityEnd - 1 - start) / p) * p := if_pos hlt
    simp only [hlt, if_true, hp.ne', if_false, ← hdef, toTick_natCast hfirst, true_and,
      Regulator.switchAt, make_toTick rfl hfirst, switchPatch]
    by_cases hpatch : r.ts.validityEnd < firstEnd r.ts.validityEnd start p
    · simp only [hpatch, if_true, true_and, Regulator.pull]
      split
      · rw [← hnew]
      · rfl
    · simp only [hpatch, if_false, false_and, List.append_nil]
  · have hdef : firstEnd r.ts.validityEnd start p = start + p := if_neg hlt
    simp only [hlt, if_false, false_and, switchPatch, List.append_nil, hdef,
      ofTimeSpec_eq hp hstart]

/-- A trigger when a change waits: it waits on, or the change is made and the trigger goes on. -/
theorem trigger_pending (hp : 0 < p) (hnew : r.newTs = some ⟨start, start + p⟩)
    (hstart : start + p < 2 ^ 32) (hprev : t.validityStart = r.prevEnd)
    (hwrap : k.NoWrap (firstEnd r.ts.validityEnd start p) p t.validityEnd) :
    ((start < r.ts.validityEnd ∧ r.ts.validityEnd < firstEnd r.ts.validityEnd start p ∧
        k.postpones t (firstEnd r.ts.validityEnd start p) = true) ∧
      k.trigger r t = .ok { r with prevEnd := t.validityEnd }) ∨
    ∃ n, k.trigger r t = .ok
        { ts := ending (firstEnd r.ts.validityEnd start p + n * p) p
          prevEnd := t.validityEnd
          emitted := r.emitted ++
            (switchPatch r.ts.validityEnd start p ++
              grid (firstEnd r.ts.validityEnd start p) p n) } ∧
      (0 < n → k.Reached (firstEnd r.ts.validityEnd start p + n * p) p t.validityEnd) := by
  have happly := applyChange_eq (k := k) (t := t) hp hnew hstart hwrap.lt.1
  have hb : t.validityEnd + p < 2 ^ 32 := by
    cases k <;> exact hwrap.2
  unfold Kind.trigger
  rw [happly]
  split_ifs with hwait
  · exact .inl ⟨hwait, rfl⟩
  · obtain ⟨n, hrun, hlast, -⟩ := pullAll_eq (maxTimetick + 1) hp rfl hwrap
      (Nat.succ_pos _) (lt_of_lt_of_le hb (Nat.le_add_right _ _))
      (r := { r with
        ts := ending (firstEnd r.ts.validityEnd start p) p
        newTs := none
        emitted := r.emitted ++ switchPatch r.ts.validityEnd start p })
    refine .inr ⟨n, ?_, hlast⟩
    have hgap : ¬ r.prevEnd < t.validityStart := by omega
    simp only [Regulator.jumpGap, hgap, if_false, hrun, List.append_assoc]

/-! ### Runs -/

/-- Each trigger after the change passes on further spans of the new period. -/
theorem Applied.step (h : Applied k r start p seen n r') (hp : 0 < p)
    (hprev : t.validityStart = r'.prevEnd) (hle : t.validityStart ≤ t.validityEnd)
    (hlast : lastEnd seen ≤ t.validityEnd)
    (hwrap : k.NoWrap (firstEnd r.ts.validityEnd start p) p t.validityEnd) :
    ∃ r'' m, k.trigger r' t = .ok r'' ∧ r''.prevEnd = t.validityEnd ∧
      Applied k r start p (seen ++ [t]) m r'' := by
  have hwrap' : k.NoWrap (firstEnd r.ts.validityEnd start p + n * p) p t.validityEnd := by
    rcases Nat.eq_zero_or_pos n with rfl | hn
    · simpa using hwrap
    · have hreached := h.reached hn
      cases k <;> simp only [Kind.NoWrap, Kind.Reached] at * <;> omega
  have hgap : ¬ r'.prevEnd < t.validityStart := by omega
  obtain ⟨m, hrun, hreached, -⟩ := trigger_eq hp h.ts h.newTs hwrap' hle
    fun hlt => absurd hlt hgap
  simp only [resumeEnd, Kind.patch, hgap, if_false, false_and, List.nil_append] at hrun hreached
  refine ⟨_, n + m, hrun, rfl, ?_⟩
  have hsum : firstEnd r.ts.validityEnd start p + (n + m) * p =
      firstEnd r.ts.validityEnd start p + n * p + m * p := by ring
  exact
    { ts := by rw [hsum]
      newTs := rfl
      emitted := by
        simp only [h.emitted, grid_add, List.append_assoc]
      reached := by
        intro hpos
        rw [hsum, lastEnd_concat]
        rcases Nat.eq_zero_or_pos m with rfl | hm
        · have hbefore := h.reached (by omega)
          cases k <;> simp only [Kind.Reached] at * <;> omega
        · exact hreached hm }

theorem Pending.step (h : Pending k r start p seen r') (hp : 0 < p)
    (hstart : start + p < 2 ^ 32) (hprev : t.validityStart = r'.prevEnd)
    (hwrap : k.NoWrap (firstEnd r.ts.validityEnd start p) p t.validityEnd) :
    ∃ r'', k.trigger r' t = .ok r'' ∧ r''.prevEnd = t.validityEnd ∧
      (Pending k r start p (seen ++ [t]) r'' ∨ ∃ n, Applied k r start p (seen ++ [t]) n r'') := by
  rw [← h.ts] at hwrap
  obtain ⟨⟨hlt, -, hwait⟩, hrun⟩ | ⟨n, hrun, hreached⟩ :=
    trigger_pending hp h.newTs hstart hprev hwrap
  · rw [h.ts] at hlt hwait
    refine ⟨_, hrun, rfl, .inl ⟨h.ts, h.newTs, h.emitted, ?_⟩⟩
    intro u hu
    rcases List.mem_append.mp hu with hu | hu
    · exact h.early u hu
    · exact List.mem_singleton.mp hu ▸ ⟨hlt, hwait⟩
  · rw [h.ts] at hrun hreached
    rw [h.emitted] at hrun
    exact ⟨_, hrun, rfl, .inr ⟨n, rfl, rfl, rfl, by rwa [lastEnd_concat]⟩⟩

theorem applied_run (hp : 0 < p) (h : Applied k r start p seen n r')
    (hins : Ordered r'.prevEnd ins) (hfree : GapFreeFrom r'.prevEnd ins)
    (hseen : lastEnd seen ≤ r'.prevEnd)
    (hwrap : ∀ t ∈ ins, k.NoWrap (firstEnd r.ts.validityEnd start p) p t.validityEnd) :
    ∃ u m, exec k.trigger r' ins = .ok u ∧ Applied k r start p (seen ++ ins) m u := by
  induction ins generalizing seen n r' with
  | nil => exact ⟨r', n, rfl, by rwa [List.append_nil]⟩
  | cons t ins ih =>
    obtain ⟨hprev, hle, hrest⟩ := hins
    obtain ⟨r'', m, hrun, hprev', h'⟩ := h.step hp hfree.1 hle (by omega)
      (hwrap t List.mem_cons_self)
    obtain ⟨u, m', hexec, h''⟩ := ih h' (hprev' ▸ hrest) (hprev' ▸ hfree.2)
      (by rw [lastEnd_concat, hprev']) fun u hu => hwrap u (List.mem_cons_of_mem t hu)
    refine ⟨u, m', (exec_cons_ok hrun).trans hexec, ?_⟩
    rwa [List.append_assoc] at h''

/-- In a run without gaps a change waits, or has been made. -/
theorem pending_or_applied_of_run (hp : 0 < p) (hstart : start + p < 2 ^ 32)
    (h : Pending k r start p seen r') (hins : Ordered r'.prevEnd ins)
    (hfree : GapFreeFrom r'.prevEnd ins)
    (hwrap : ∀ t ∈ ins, k.NoWrap (firstEnd r.ts.validityEnd start p) p t.validityEnd) :
    ∃ u, exec k.trigger r' ins = .ok u ∧
      (Pending k r start p (seen ++ ins) u ∨ ∃ n, Applied k r start p (seen ++ ins) n u) := by
  induction ins generalizing seen r' with
  | nil => exact ⟨r', rfl, .inl (by rwa [List.append_nil])⟩
  | cons t ins ih =>
    obtain ⟨hprev, hle, hrest⟩ := hins
    obtain ⟨r'', hrun, hprev', h'⟩ := h.step hp hstart hfree.1 (hwrap t List.mem_cons_self)
    have hwrap' := fun u hu => hwrap u (List.mem_cons_of_mem t hu)
    rcases h' with h' | ⟨n, h'⟩
    · obtain ⟨u, hexec, h''⟩ := ih h' (hprev' ▸ hrest) (hprev' ▸ hfree.2) hwrap'
      refine ⟨u, (exec_cons_ok hrun).trans hexec, ?_⟩
      rwa [List.append_assoc] at h''
    · obtain ⟨u, m, hexec, h''⟩ := applied_run hp h' (hprev' ▸ hrest) (hprev' ▸ hfree.2)
        (by rw [lastEnd_concat, hprev']) hwrap'
      refine ⟨u, (exec_cons_ok hrun).trans hexec, .inr ⟨m, ?_⟩⟩
      rwa [List.append_assoc] at h''

/-! ### What is passed on over a change -/

theorem gapFreeFrom_grid : GapFreeFrom x (grid x p n) := by
  induction n generalizing x with
  | zero => trivial
  | succ n ih =>
    rw [grid_succ]
    exact ⟨rfl, ih⟩

theorem Ordered.le (h : Ordered x ins) (ht : t ∈ ins) : t.validityStart ≤ t.validityEnd := by
  induction ins generalizing x with
  | nil => cases ht
  | cons u ins ih =>
    obtain ⟨-, hle, hrest⟩ := h
    rcases List.mem_cons.mp ht with rfl | ht
    · exact hle
    · exact ih hrest ht

/-- A new period that starts at zero goes on from the next of its starts. -/
theorem firstEnd_zero (hp : 0 < p) (he : 0 < e) :
    (∃ j, firstEnd e 0 p = j * p) ∧ e ≤ firstEnd e 0 p ∧ firstEnd e 0 p < e + p := by
  have hle := Nat.div_mul_le_self (e - 1) p
  have hlt := Nat.lt_div_mul_add (a := e - 1) hp
  have hdef : firstEnd e 0 p = (e - 1) / p * p + p := by
    rw [firstEnd, if_pos he, Nat.sub_zero]
    ring
  exact ⟨⟨(e - 1) / p + 1, by rw [hdef]; ring⟩, by omega, by omega⟩

/-- A change that waits is early for all spans that have come in. -/
theorem Pending.switched (h : Pending k r start p ins r') (hp : 0 < p)
    (hstart : start = 0 ∧ 0 < r.ts.validityEnd ∨ r.ts.validityEnd < start)
    (hins : Ordered r.prevEnd ins) : Switched r start p ins r' [] where
  emitted := by rw [h.emitted, List.append_nil]
  nonempty := fun _ hts => absurd hts List.not_mem_nil
  ordered := List.Pairwise.nil
  after := fun _ hts => absurd hts List.not_mem_nil
  contiguous := fun _ => trivial
  onGrid := ⟨[], 0, 0, rfl, Nat.zero_le 1, fun _ hts => absurd hts List.not_mem_nil⟩
  once := fun hnone => by
    rw [h.newTs] at hnone
    cases hnone
  prompt := by
    rintro ⟨t, ht, hlate⟩
    obtain ⟨hlt, hearly⟩ := h.early t ht
    have hle := hins.le ht
    obtain ⟨rfl, he⟩ | hlater := hstart
    · obtain ⟨-, -, hfirst⟩ := firstEnd_zero hp he
      cases k with
      | regular =>
        have := of_decide_eq_true hearly
        omega
      | greedy =>
        have := of_decide_eq_true hearly
        omega
    · omega

/-- A change that has been made passes on the shorter span and spans of the new period. -/
theorem Applied.switched (h : Applied k r start p ins n r') (hp : 0 < p)
    (hstart : start = 0 ∧ 0 < r.ts.validityEnd ∨ r.ts.validityEnd < start) :
    Switched r start p ins r'
      (switchPatch r.ts.validityEnd start p ++ grid (firstEnd r.ts.validityEnd start p) p n) := by
  -- where the spans of the new period start
  obtain ⟨j, hj⟩ : ∃ j, firstEnd r.ts.validityEnd start p = start + j * p := by
    obtain ⟨rfl, he⟩ | hlater := hstart
    · obtain ⟨⟨j, hj⟩, -⟩ := firstEnd_zero hp he
      exact ⟨j, by rw [hj, Nat.zero_add]⟩
    · exact ⟨1, by rw [firstEnd, if_neg (by omega), Nat.one_mul]⟩
  have hle : r.ts.validityEnd ≤ firstEnd r.ts.validityEnd start p := by
    obtain ⟨rfl, he⟩ | hlater := hstart
    · exact (firstEnd_zero hp he).2.1
    · rw [firstEnd, if_neg (by omega)]
      omega
  have hpatch : ∀ ts ∈ switchPatch r.ts.validityEnd start p,
      ts = ⟨r.ts.validityEnd, firstEnd r.ts.validityEnd start p⟩ ∧
        r.ts.validityEnd < firstEnd r.ts.validityEnd start p ∧
        firstEnd r.ts.validityEnd start p < r.ts.validityEnd + p := by
    intro ts hts
    unfold switchPatch at hts
    split at hts
    · rename_i hlt
      obtain ⟨rfl, he⟩ | hlater := hstart
      · exact ⟨List.mem_singleton.mp hts, hlt.2, (firstEnd_zero hp he).2.2⟩
      · omega
    · cases hts
  have hnew : ∀ ts ∈ grid (firstEnd r.ts.validityEnd start p) p n,
      ts.validityEnd = ts.validityStart + p := fun ts => span_of_mem_grid
  exact
    { emitted := h.emitted
      nonempty := by
        intro ts hts
        rcases List.mem_append.mp hts with hts | hts
        · obtain ⟨rfl, hlt, -⟩ := hpatch ts hts
          exact hlt
        · rw [hnew ts hts]
          exact Nat.lt_add_of_pos_right hp
      ordered := by
        refine List.pairwise_append.mpr ⟨?_, pairwise_grid, fun ts hts ts' hts' => ?_⟩
        · unfold switchPatch
          split
          · exact List.pairwise_singleton ..
          · exact List.Pairwise.nil
        · obtain ⟨rfl, -⟩ := hpatch ts hts
          exact le_of_mem_grid hts'
      after := by
        intro ts hts
        rcases List.mem_append.mp hts with hts | hts
        · obtain ⟨rfl, -⟩ := hpatch ts hts
          exact le_rfl
        · exact hle.trans (le_of_mem_grid hts)
      contiguous := by
        intro hbefore
        obtain ⟨rfl, he⟩ | hlater := hstart
        · unfold switchPatch
          split
          · exact ⟨rfl, gapFreeFrom_grid⟩
          · rename_i hnone
            have hsame : firstEnd r.ts.validityEnd 0 p = r.ts.validityEnd := by omega
            rw [List.nil_append, hsame]
            exact gapFreeFrom_grid
        · omega
      onGrid := by
        refine ⟨_, j, n, by rw [hj], ?_, fun ts hts => ?_⟩
        · unfold switchPatch
          split
          · exact le_rfl
          · exact Nat.zero_le 1
        · obtain ⟨rfl, -, hlt⟩ := hpatch ts hts
          exact hlt
      once := fun _ => by rw [h.ts]; rfl
      prompt := fun _ => h.newTs }

/-- A change to a period that starts at zero, or after the end of the span of the regulator. -/
theorem switched_of_run (k : Kind) (r : Regulator) (hnew : r.newTs = none) {start period : ℕ}
    (hperiod : 0 < period) (hspan : start + period < 2 ^ 32)
    (hstart : start = 0 ∧ 0 < r.ts.validityEnd ∨ r.ts.validityEnd < start)
    {ins : List DataTimeSpec} (hins : Ordered r.prevEnd ins) (hfree : GapFreeFrom r.prevEnd ins)
    (hwrap : ∀ t ∈ ins,
      k.NoWrap (firstEnd r.ts.validityEnd start period) period t.validityEnd) :
    ∃ r' news,
      exec k.trigger (r.changePeriodAndOffset ⟨start, start + period⟩).1 ins = .ok r' ∧
        Switched r start period ins r' news := by
  have hchange : (r.changePeriodAndOffset ⟨start, start + period⟩).1 =
      { r with newTs := some ⟨start, start + period⟩ } := by
    rw [Regulator.changePeriodAndOffset, hnew]
  have hpending :
      Pending k r start period [] (r.changePeriodAndOffset ⟨start, start + period⟩).1 := by
    rw [hchange]
    exact ⟨rfl, rfl, rfl, fun _ ht => absurd ht List.not_mem_nil⟩
  have hprev : (r.changePeriodAndOffset ⟨start, start + period⟩).1.prevEnd = r.prevEnd := by
    rw [hchange]
  obtain ⟨r', hexec, h | ⟨n, h⟩⟩ := pending_or_applied_of_run hperiod hspan hpending
    (hprev ▸ hins) (hprev ▸ hfree) hwrap
  · exact ⟨r', _, hexec, h.switched hperiod hstart hins⟩
  · exact ⟨r', _, hexec, h.switched hperiod hstart⟩

/-- From a period of ten to one of sixteen, after the span up to 50. -/
theorem switched_ten_to_sixteen :
    ∃ r' news,
      exec Kind.regular.trigger
        ((⟨⟨40, 50, 10⟩, 50, none, [⟨40, 50⟩]⟩ : Regulator).changePeriodAndOffset ⟨0, 0 + 16⟩).1
        [⟨50, 60⟩, ⟨60, 90⟩] = .ok r' ∧
      Switched ⟨⟨40, 50, 10⟩, 50, none, [⟨40, 50⟩]⟩ 0 16 [⟨50, 60⟩, ⟨60, 90⟩] r' news :=
  switched_of_run .regular ⟨⟨40, 50, 10⟩, 50, none, [⟨40, 50⟩]⟩ rfl (by decide) (by decide)
    (.inl ⟨rfl, by decide⟩) (by simp [Ordered]) (by simp [GapFreeFrom]) (by decide)

/-- A period of twenty from tick ten on, for a regulator at 50: ticks 40 to 50 are passed on
again. -/
theorem not_switched_ten_to_twenty :
    ¬ ∀ (k : Kind) (r : Regulator), r.newTs = none → ∀ start period, 0 < period →
      start + period < 2 ^ 32 → ∀ ins, Ordered r.prevEnd ins → GapFreeFrom r.prevEnd ins →
        ∃ r' news,
          exec k.trigger (r.changePeriodAndOffset ⟨start, start + period⟩).1 ins = .ok r' ∧
            Switched r start period ins r' news := by
  intro h
  obtain ⟨r', news, hexec, hswitched⟩ := h .regular ⟨⟨40, 50, 10⟩, 50, none, [⟨40, 50⟩]⟩ rfl 10 20
    (by decide) (by decide) [⟨50, 70⟩] (by simp [Ordered]) (by simp [GapFreeFrom])
  obtain ⟨r'', hexec', htest⟩ := exists_of_endsIn Kind.regular.trigger
    ((⟨⟨40, 50, 10⟩, 50, none, [⟨40, 50⟩]⟩ : Regulator).changePeriodAndOffset ⟨10, 10 + 20⟩).1
    [⟨50, 70⟩] (fun r => r.emitted == [⟨40, 50⟩, ⟨40, 60⟩]) (by decide +kernel)
  obtain rfl := Except.ok.inj (hexec.symm.trans hexec')
  have hemitted := hswitched.emitted
  rw [eq_of_beq htest] at hemitted
  obtain rfl : [⟨40, 60⟩] = news := (List.cons.inj hemitted).2
  exact absurd (hswitched.after ⟨40, 60⟩ (List.mem_singleton_self _)) (by decide)

end Dueca.Trigger
