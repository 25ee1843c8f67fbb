import Dueca.Trigger.Timing

/-!
# A combined trigger fires for the common time

The trigger has passed on all common ticks before the tick to which it has progressed,
and after each pull there is a puller that has not gone beyond that tick. From this the
spans passed on are exactly the common time. Whether a pull can tip the trigger is
decided by one comparison for a span that repeats the last one; the condition excludes
the pulls with which the last puller that is behind passes the tick without reaching it.
-/

namespace Dueca.Trigger

open Dueca.Lib ConditionAnd

/-- What has been received from a puller, and the end of it. -/
def PullerData.view (p : PullerData) : List DataTimeSpec × ℕ := (p.received, p.timeTail.endtime)

/-- What has been received from each puller. -/
def ConditionAnd.views (a : ConditionAnd) : List (List DataTimeSpec × ℕ) :=
  a.pullers.map PullerData.view

/-- What has been passed on up to the tick to which the trigger has progressed. A tick
before it that was not passed on is one that some puller has left out. -/
structure ConditionAnd.Progress (a : ConditionAnd) : Prop where
  small : a.previousTick ≤ maxTimetick
  sound : ∀ p ∈ a.pullers, p.Sound a.previousTick
  past : ∀ t < a.previousTick, Covers a.emitted t ∨ ∃ v ∈ a.views, ¬ Covers v.1 t ∧ t < v.2
  within : ∀ ts ∈ a.emitted, ts.validityStart ≤ ts.validityEnd ∧
    ts.validityEnd ≤ a.previousTick ∧ ∀ v ∈ a.views, ∃ r ∈ v.1,
      r.validityStart ≤ ts.validityStart ∧ ts.validityEnd ≤ r.validityEnd
  ordered : a.emitted.Pairwise fun u v => u.validityEnd ≤ v.validityStart

/-- Some puller has not gone beyond the tick to which the trigger has progressed. -/
def ConditionAnd.Settled (a : ConditionAnd) : Prop :=
  ∃ (j : ℕ) (v : List DataTimeSpec × ℕ), a.views[j]? = some v ∧ v.2 ≤ a.previousTick

variable {a a' : ConditionAnd} {p : PullerData} {c t : ℕ} {l l' : List PullerData}

/-! ### The span that is left -/

theorem commonStart_spec (l : List PullerData) (c : ℕ) :
    c ≤ commonStart c l ∧ (∀ p ∈ l, p.timeHead.ts.validityStart ≤ commonStart c l) ∧
      (commonStart c l = c ∨ ∃ p ∈ l, commonStart c l = p.timeHead.ts.validityStart) := by
  simp only [commonStart]
  induction l generalizing c with
  | nil => exact ⟨Nat.le_refl _, nofun, .inl rfl⟩
  | cons p l ih =>
    obtain ⟨hle, hall, hcase⟩ := ih (max c p.timeHead.ts.validityStart)
    simp only [List.foldl_cons, List.forall_mem_cons, List.exists_mem_cons_iff]
    refine ⟨by omega, ⟨by omega, hall⟩, ?_⟩
    obtain hcase | hcase := hcase
    · omega
    · exact .inr (.inr hcase)

theorem commonEnd_spec (l : List PullerData) :
    commonEnd l ≤ maxTimetick ∧ (∀ p ∈ l, commonEnd l ≤ p.timeHead.ts.validityEnd) ∧
      (commonEnd l = maxTimetick ∨ ∃ p ∈ l, commonEnd l = p.timeHead.ts.validityEnd) := by
  simp only [commonEnd]
  generalize maxTimetick = c
  induction l generalizing c with
  | nil => exact ⟨Nat.le_refl _, nofun, .inl rfl⟩
  | cons p l ih =>
    obtain ⟨hle, hall, hcase⟩ := ih (min c p.timeHead.ts.validityEnd)
    simp only [List.foldl_cons, List.forall_mem_cons, List.exists_mem_cons_iff]
    refine ⟨by omega, ⟨by omega, hall⟩, ?_⟩
    obtain hcase | hcase := hcase
    · omega
    · exact .inr (.inr hcase)

theorem cleanUpAll_spec (h : ∀ p ∈ l, p.Sound c) :
    ∃ l', cleanUpAll c l = .ok l' ∧ (∀ p ∈ l', p.Sound c ∧ p.Clean c) ∧
      l'.map PullerData.view = l.map PullerData.view := by
  induction l with
  | nil => exact ⟨[], rfl, nofun, rfl⟩
  | cons p l ih =>
    obtain ⟨hp, hl⟩ := List.forall_mem_cons.mp h
    obtain ⟨p', hclean, hsound, hclean', hreceived, htail⟩ := hp.cleanUp
    obtain ⟨l', hrest, hall, hviews⟩ := ih hl
    refine ⟨p' :: l', by simp only [cleanUpAll, hclean, hrest], ?_, ?_⟩
    · exact List.forall_mem_cons.mpr ⟨⟨hsound, hclean'⟩, hall⟩
    · rw [List.map_cons, List.map_cons, hviews, PullerData.view, hreceived, htail, PullerData.view]

/-- The first span of a clean list that is not over was received. -/
theorem timeHead_received (h : p.Sound c) (hlt : c < p.timeHead.ts.validityEnd) :
    p.timeHead.ts ∈ p.received := by
  obtain ⟨-, k, -, hnone | hper⟩ := h.repeats _ (timeHead_mem p)
  · rw [hnone] at hlt
    cases hlt
  · have hmem := hper 0 (Nat.zero_le k)
    rwa [Nat.zero_mul] at hmem

/-- A tick before the start of the first span is one that the puller has left out. -/
theorem left_out (h : p.Sound c) (hc : c ≤ t) (ht : t < p.timeHead.ts.validityStart) :
    ¬ Covers p.view.1 t ∧ t < p.view.2 := by
  have hle := (h.repeats _ (timeHead_mem p)).le_endtime
  have hend := h.endtime_le (timeHead_mem p)
  exact ⟨h.not_covers_of_lt hc ht, show t < p.timeTail.endtime by omega⟩

/-! ### The loop -/

/-- Going on to a later tick, with the ticks in between passed on from `first` on. -/
theorem ConditionAnd.Progress.goOn (h : a.Progress) {first last : ℕ}
    {pullers : List PullerData} {emitted : List DataTimeSpec}
    (hsound : ∀ p ∈ pullers, p.Sound a.previousTick)
    (hviews : pullers.map PullerData.view = a.views)
    (hfirst : first = a.previousTick ∨ ∃ p ∈ pullers, first = p.timeHead.ts.validityStart)
    (hle : a.previousTick ≤ last) (hlast : last ≤ maxTimetick)
    (hemitted : emitted = a.emitted ∧ last ≤ first ∨
      emitted = a.emitted ++ [⟨first, last⟩] ∧ a.previousTick ≤ first ∧ first ≤ last ∧
        ∀ p ∈ pullers, p.timeHead.ts ∈ p.received ∧ p.timeHead.ts.validityStart ≤ first ∧
          last ≤ p.timeHead.ts.validityEnd) :
    Progress { pullers := pullers, previousTick := last, emitted := emitted } := by
  have hmore : ∀ t, Covers a.emitted t → Covers emitted t := by
    intro t ht
    obtain ⟨rfl, -⟩ | ⟨rfl, -⟩ := hemitted
    · exact ht
    · exact covers_append.mpr (.inl ht)
  have hviews' : views { pullers := pullers, previousTick := last, emitted := emitted } =
      a.views := hviews
  refine ⟨hlast, fun p hp => (hsound p hp).mono hle, fun t ht => ?_, fun ts hts => ?_, ?_⟩
  · rw [hviews']
    have ht : t < last := ht
    by_cases hpast : t < a.previousTick
    · exact (h.past t hpast).imp_left (hmore t)
    · by_cases hbefore : t < first
      · -- the puller that starts at `first` leaves the tick out
        obtain hfirst | ⟨p, hp, hstart⟩ := hfirst
        · omega
        · rw [← hviews]
          exact .inr ⟨p.view, List.mem_map_of_mem hp,
            left_out (hsound p hp) (Nat.not_lt.mp hpast) (hstart ▸ hbefore)⟩
      · obtain ⟨-, hnone⟩ | ⟨rfl, -⟩ := hemitted
        · omega
        · exact .inl (covers_append.mpr (.inr (covers_singleton.mpr
            ⟨Nat.not_lt.mp hbefore, ht⟩)))
  · rw [hviews']
    have hold : ts ∈ a.emitted → _ := fun hts => h.within ts hts
    obtain ⟨rfl, -⟩ | ⟨rfl, -, hspan, hheads⟩ := hemitted
    · obtain ⟨hs, he, hv⟩ := hold hts
      exact ⟨hs, Nat.le_trans he hle, hv⟩
    · obtain hts | hts := List.mem_append.mp hts
      · obtain ⟨hs, he, hv⟩ := hold hts
        exact ⟨hs, Nat.le_trans he hle, hv⟩
      · rw [List.mem_singleton.mp hts]
        refine ⟨hspan, Nat.le_refl _, fun v hv => ?_⟩
        rw [← hviews] at hv
        obtain ⟨p, hp, rfl⟩ := List.mem_map.mp hv
        exact ⟨_, (hheads p hp).1, (hheads p hp).2⟩
  · obtain ⟨rfl, -⟩ | ⟨rfl, hstart, -⟩ := hemitted
    · exact h.ordered
    · refine List.pairwise_append.mpr ⟨h.ordered, List.pairwise_singleton .., fun u hu v hv => ?_⟩
      rw [List.mem_singleton.mp hv]
      exact Nat.le_trans (h.within u hu).2.1 hstart

/-- The loop ends, and leaves nothing to be passed on. -/
theorem moreTriggers_settles (fuel : ℕ) (h : a.Progress) (hne : a.pullers ≠ [])
    (hfuel : maxTimetick - a.previousTick < fuel) :
    ∃ a', moreTriggers fuel a a.previousTick = .ok a' ∧ a'.Progress ∧ a'.views = a.views ∧
      a'.Settled := by
  induction fuel generalizing a with
  | zero => omega
  | succ fuel ih =>
    obtain ⟨pullers, hclean, hall, hviews⟩ := cleanUpAll_spec h.sound
    have hsound : ∀ p ∈ pullers, p.Sound a.previousTick := fun p hp => (hall p hp).1
    obtain ⟨hfirst, hstarts, hfirstCase⟩ := commonStart_spec pullers a.previousTick
    obtain ⟨hlast, hends, hlastCase⟩ := commonEnd_spec pullers
    have hne' : pullers ≠ [] := by
      intro hnil
      rw [hnil] at hviews
      exact hne (List.map_eq_nil_iff.mp hviews.symm)
    simp only [moreTriggers, hclean]
    generalize commonStart a.previousTick pullers = first at *
    generalize commonEnd pullers = last at *
    split
    · rename_i hemits
      have hafter : a.previousTick < last := by omega
      have hheads : ∀ p ∈ pullers, p.timeHead.ts ∈ p.received ∧
          p.timeHead.ts.validityStart ≤ first ∧ last ≤ p.timeHead.ts.validityEnd :=
        fun p hp => ⟨timeHead_received (hsound p hp) (Nat.lt_of_lt_of_le hafter (hends p hp)),
          hstarts p hp, hends p hp⟩
      have hnext := h.goOn hsound hviews hfirstCase (Nat.le_of_lt hafter) hlast
        (.inr ⟨rfl, hfirst, by omega, hheads⟩)
      have hless : maxTimetick - last < fuel := by
        clear hlastCase hfirstCase
        omega
      obtain ⟨a', hmore, hprogress, hviews', hsettled⟩ := ih hnext hne' hless
      exact ⟨a', hmore, hprogress, hviews'.trans hviews, hsettled⟩
    · rename_i hnone
      split
      · rename_i hgap
        have hsmall : first ≤ maxTimetick := by
          obtain hcase | ⟨p, hp, hcase⟩ := hfirstCase
          · omega
          · have hle := ((hsound p hp).repeats _ (timeHead_mem p)).le_endtime
            have hend := (hsound p hp).endtime_le (timeHead_mem p)
            have hsmall := (hsound p hp).small
            omega
        have hnext := h.goOn hsound hviews hfirstCase hfirst hsmall (.inl ⟨rfl, Nat.le_refl _⟩)
        have hless : maxTimetick - first < fuel := by
          clear hlastCase hfirstCase
          omega
        obtain ⟨a', hmore, hprogress, hviews', hsettled⟩ := ih hnext hne' hless
        exact ⟨a', hmore, hprogress, hviews'.trans hviews, hsettled⟩
      · have hnext := h.goOn hsound hviews (.inl rfl) (Nat.le_refl _) h.small
          (.inl ⟨rfl, Nat.le_refl _⟩)
        refine ⟨_, rfl, hnext, hviews, ?_⟩
        have hbehind : ∃ p ∈ pullers, p.timeTail.endtime ≤ a.previousTick := by
          obtain hmax | ⟨p, hp, hend⟩ := hlastCase
          · obtain ⟨p, hp⟩ := List.exists_mem_of_ne_nil pullers hne'
            have hsmall := (hsound p hp).small
            exact ⟨p, hp, by omega⟩
          · refine ⟨p, hp, ?_⟩
            obtain hopen | ⟨hover, -⟩ := (hall p hp).2
            · omega
            · exact hover
        obtain ⟨p, hp, hover⟩ := hbehind
        obtain ⟨j, hj⟩ := List.mem_iff_getElem?.mp hp
        exact ⟨j, p.view, by simp [views, hj], hover⟩

/-! ### A pull -/

variable {i : AndInput}

/-- The condition on a pull. Spans of a puller are ordered. When a span has the length
of its puller's last one and connects to it, and the tick to which the trigger has
progressed is strictly between its puller's old and new end, then there is another
puller that has not gone beyond that tick. -/
structure InStep (a : ConditionAnd) (i : AndInput) : Prop where
  puller : i.idx < a.pullers.length
  ordered : ∀ p, a.pullers[i.idx]? = some p →
    ∀ r ∈ p.received, r.validityEnd ≤ i.ts.validityStart
  span : i.ts.validityStart ≤ i.ts.validityEnd ∧ i.ts.validityEnd ≤ maxTimetick
  behind : ∀ p, a.pullers[i.idx]? = some p → i.ts.validityStart = p.timeTail.endtime →
    i.ts.validitySpan = p.timeTail.ts.validitySpan → p.timeTail.endtime < a.previousTick →
    a.previousTick < i.ts.validityEnd →
    ∃ j q, j ≠ i.idx ∧ a.pullers[j]? = some q ∧ q.timeTail.endtime ≤ a.previousTick

/-- One puller has received one more span. -/
theorem ConditionAnd.Progress.receive (h : a.Progress) {k : ℕ} {p' : PullerData}
    {ts : DataTimeSpec} (hget : a.pullers[k]? = some p) (hsound : p'.Sound a.previousTick)
    (hreceived : p'.received = p.received ++ [ts]) (hend : p.timeTail.endtime ≤ ts.validityStart)
    (hgrows : p.timeTail.endtime ≤ p'.timeTail.endtime) :
    Progress { a with pullers := a.pullers.set k p' } := by
  have hk : k < a.pullers.length := (List.getElem?_eq_some_iff.mp hget).1
  -- a puller from before is there still, or is the one that received
  have hold : ∀ v ∈ a.views, v ∈ (a.pullers.set k p').map PullerData.view ∨ v = p.view := by
    intro v hv
    obtain ⟨j, hj⟩ := List.mem_iff_getElem?.mp hv
    by_cases hjk : j = k
    · subst hjk
      simp only [views, List.getElem?_map, hget, Option.map_some, Option.some.injEq] at hj
      exact .inr hj.symm
    · refine .inl (List.mem_of_getElem? (i := j) ?_)
      rwa [List.map_set, List.getElem?_set_ne (Ne.symm hjk)]
  have hnew : p'.view ∈ (a.pullers.set k p').map PullerData.view :=
    List.mem_map_of_mem (List.mem_set hk p')
  refine ⟨h.small, fun q hq => ?_, fun t ht => ?_, fun u hu => ?_, h.ordered⟩
  · obtain hq | rfl := List.mem_or_eq_of_mem_set hq
    · exact h.sound q hq
    · exact hsound
  · refine (h.past t ht).imp_right fun ⟨v, hv, hnot, hlt⟩ => ?_
    obtain hv | rfl := hold v hv
    · exact ⟨v, hv, hnot, hlt⟩
    · refine ⟨p'.view, hnew, ?_, Nat.lt_of_lt_of_le hlt hgrows⟩
      rw [PullerData.view, hreceived, covers_append, covers_singleton]
      rintro (hcover | ⟨hstart, -⟩)
      · exact hnot hcover
      · exact absurd (Nat.lt_of_lt_of_le hlt hend) (Nat.not_lt.mpr hstart)
  · obtain ⟨hs, he, hv⟩ := h.within u hu
    refine ⟨hs, he, fun v hv' => ?_⟩
    obtain ⟨q, hq, rfl⟩ := List.mem_map.mp hv'
    obtain hq | rfl := List.mem_or_eq_of_mem_set hq
    · exact hv _ (List.mem_map_of_mem hq)
    · obtain ⟨r, hr, hin⟩ := hv p.view (List.mem_map_of_mem (List.mem_of_getElem? hget))
      have hmem : r ∈ q.received := hreceived ▸ List.mem_append_left _ hr
      exact ⟨r, hmem, hin⟩

/-- A pull that is not taken for one that can tip the trigger leaves a puller behind. -/
theorem settled_of_not_tips (hs : a.Settled) (hi : InStep a i) (hget : a.pullers[i.idx]? = some p)
    (hend : p.timeTail.endtime ≤ i.ts.validityStart)
    (htips : (p.newSpan i.ts a.previousTick).2 = false) :
    Settled { a with pullers := a.pullers.set i.idx (p.newSpan i.ts a.previousTick).1 } := by
  have hk := hi.puller
  obtain ⟨hspan, hsmall⟩ := hi.span
  have hself : (p.newSpan i.ts a.previousTick).1.timeTail.endtime ≤ a.previousTick →
      Settled { a with pullers := a.pullers.set i.idx (p.newSpan i.ts a.previousTick).1 } :=
    fun hle => ⟨i.idx, (p.newSpan i.ts a.previousTick).1.view, by simp [views, hk], hle⟩
  have hother : ∀ j q, j ≠ i.idx → a.pullers[j]? = some q → q.timeTail.endtime ≤ a.previousTick →
      Settled { a with pullers := a.pullers.set i.idx (p.newSpan i.ts a.previousTick).1 } := by
    intro j q hj hq hle
    refine ⟨j, q.view, ?_, hle⟩
    simp only [views, List.getElem?_map, List.getElem?_set_ne (Ne.symm hj), hq, Option.map_some]
  -- the puller that was behind before, unless it is this one
  have hbefore : a.previousTick < p.timeTail.endtime →
      Settled { a with pullers := a.pullers.set i.idx (p.newSpan i.ts a.previousTick).1 } := by
    intro hlt
    obtain ⟨j, v, hv, hle⟩ := hs
    simp only [views, List.getElem?_map, Option.map_eq_some_iff] at hv
    obtain ⟨q, hq, rfl⟩ := hv
    refine hother j q (fun heq => ?_) hq hle
    subst heq
    obtain rfl := Option.some.inj (hget.symm.trans hq)
    exact absurd hlt (Nat.not_lt.mpr hle)
  obtain ⟨hstart, hsame, heq⟩ | ⟨hlt, heq⟩ | ⟨hle, heq⟩ := newSpan_cases hend a.previousTick
  · rw [heq] at htips hself
    by_cases hreach : i.ts.validityEnd ≤ a.previousTick
    · exact heq ▸ hself hreach
    · have hsum : i.ts.validityEnd = p.timeTail.endtime + p.timeTail.ts.validitySpan := by
        rw [← hsame, ← hstart, DataTimeSpec.validitySpan]
        omega
      obtain hbehind | hat | hbeyond := Nat.lt_trichotomy p.timeTail.endtime a.previousTick
      · obtain ⟨j, q, hj, hq, hle⟩ := hi.behind p hget hstart hsame hbehind (by omega)
        exact hother j q hj hq hle
      · -- the one case in which the comparison sees that it can
        have hmod : (p.timeTail.ts.validitySpan + a.previousTick) % 2 ^ 32 = i.ts.validityEnd := by
          rw [maxTimetick] at hsmall
          omega
        rw [hmod] at htips
        simp only [BEq.rfl, Bool.true_and, decide_eq_false_iff_not] at htips
        omega
      · exact hbefore hbeyond
  · rw [heq] at htips hself
    by_cases hreach : i.ts.validityEnd ≤ a.previousTick
    · exact heq ▸ hself hreach
    · refine hbefore ?_
      simp only [Bool.and_eq_false_iff, decide_eq_false_iff_not] at htips
      omega
  · rw [heq] at hself
    by_cases hreach : p.timeTail.endtime ≤ a.previousTick
    · exact heq ▸ hself hreach
    · exact hbefore (Nat.not_le.mp hreach)

/-- What each puller has reported. -/
def ConditionAnd.receiveds (a : ConditionAnd) : List (List DataTimeSpec) :=
  a.pullers.map PullerData.received

theorem receiveds_of_views (h : a'.views = a.views) : a'.receiveds = a.receiveds := by
  have hfst : ∀ a : ConditionAnd, a.receiveds = a.views.map Prod.fst := fun a => by
    simp [receiveds, views, PullerData.view, Function.comp_def]
  rw [hfst, hfst, h]

/-- A pull goes through, and leaves nothing to be passed on. -/
theorem trigger_settles (h : a.Progress) (hs : a.Settled) (hi : InStep a i) :
    ∃ a', trigger a i = .ok a' ∧ (a'.Progress ∧ a'.Settled) ∧
      a'.receiveds = a.receiveds.modify i.idx (· ++ [i.ts]) := by
  obtain ⟨p, hget⟩ : ∃ p, a.pullers[i.idx]? = some p := ⟨_, List.getElem?_eq_getElem hi.puller⟩
  have hp := h.sound p (List.mem_of_getElem? hget)
  have hend : p.timeTail.endtime ≤ i.ts.validityStart := by
    obtain hzero | ⟨r, hr, hlast⟩ := hp.endtime_cases
    · omega
    · exact hlast ▸ hi.ordered p hget r hr
  obtain ⟨hsound, hreceived, hgrows⟩ := hp.newSpan hend hi.span.1 hi.span.2 a.previousTick
  have hsettled := settled_of_not_tips hs hi hget hend
  have hprogress := h.receive hget hsound hreceived hend hgrows
  have hlists : ConditionAnd.receiveds
      { a with pullers := a.pullers.set i.idx (p.newSpan i.ts a.previousTick).1 } =
        a.receiveds.modify i.idx (· ++ [i.ts]) := by
    refine List.ext_getElem? fun j => ?_
    simp only [receiveds, List.getElem?_map, List.getElem?_modify]
    by_cases hj : i.idx = j
    · subst hj
      rw [List.getElem?_set_self hi.puller, hget]
      simp [hreceived]
    · rw [List.getElem?_set_ne hj]
      simp [hj]
  simp only [trigger, hget]
  split
  · have hne : a.pullers.set i.idx (p.newSpan i.ts a.previousTick).1 ≠ [] := by
      intro hnil
      have hlength := congrArg List.length hnil
      rw [List.length_set, List.length_nil] at hlength
      have := hi.puller
      omega
    obtain ⟨a', hmore, hprogress', hviews, hsettled'⟩ := moreTriggers_settles (maxTimetick + 1)
      hprogress hne (by omega)
    exact ⟨a', hmore, ⟨hprogress', hsettled'⟩, (receiveds_of_views hviews).trans hlists⟩
  · rename_i htips
    exact ⟨_, rfl, ⟨hprogress, hsettled (by simpa using htips)⟩, hlists⟩

/-! ### The claim -/

/-- The spans that one puller reports in a run. -/
def spansOf (ins : List AndInput) (j : ℕ) : List DataTimeSpec :=
  (ins.filter fun i => i.idx == j).map AndInput.ts

/-- A run of pulls on a combination of `n` pullers goes through. The spans passed on are
ordered, each is within one span of every puller, and together they are the ticks that
the spans of all pullers have in common. -/
def FiresForCommonTime (n : ℕ) (ins : List AndInput) : Prop :=
  ∃ a, exec trigger (.init n) ins = .ok a ∧
    a.emitted.Pairwise (fun u v => u.validityEnd ≤ v.validityStart) ∧
    (∀ ts ∈ a.emitted, ts.validityStart ≤ ts.validityEnd ∧ ∀ j < n, ∃ r ∈ spansOf ins j,
      r.validityStart ≤ ts.validityStart ∧ ts.validityEnd ≤ r.validityEnd) ∧
    ∀ t, Covers a.emitted t ↔ ∀ j < n, Covers (spansOf ins j) t

/-- A run in step goes through, and its pullers have what they reported. -/
theorem run_in_step {ins : List AndInput} (h : a.Progress) (hs : a.Settled)
    (hok : Allowed trigger InStep a ins) :
    ∃ a', exec trigger a ins = .ok a' ∧ a'.Progress ∧ a'.Settled ∧
      ∀ j, a'.receiveds[j]? = a.receiveds[j]?.map (· ++ spansOf ins j) := by
  induction ins generalizing a with
  | nil => exact ⟨a, rfl, h, hs, fun j => by simp [spansOf]⟩
  | cons i ins ih =>
    obtain ⟨a₁, hstep, ⟨h₁, hs₁⟩, hreceived⟩ := trigger_settles h hs hok.1
    obtain ⟨a', hrun, h', hs', hlists⟩ := ih h₁ hs₁ (hok.2 a₁ hstep)
    refine ⟨a', (exec_cons_ok hstep).trans hrun, h', hs', fun j => ?_⟩
    rw [hlists, hreceived, List.getElem?_modify]
    by_cases hj : i.idx = j
    · simp [hj, spansOf, Function.comp_def]
    · simp [hj, spansOf]

theorem progress_init (n : ℕ) : (ConditionAnd.init n).Progress where
  small := Nat.zero_le _
  sound := by
    intro p hp
    rw [List.eq_of_mem_replicate hp]
    exact sound_init 0
  past := nofun
  within := nofun
  ordered := .nil

/-- Over every run in step the trigger fires for the common time. -/
theorem firesForCommonTime_of_run {n : ℕ} (hn : 0 < n) (ins : List AndInput)
    (hok : Allowed trigger InStep (.init n) ins) : FiresForCommonTime n ins := by
  have hsettled : (ConditionAnd.init n).Settled :=
    ⟨0, ([], 0), by simp [views, ConditionAnd.init, hn, PullerData.view, TimingList.make],
      Nat.le_refl _⟩
  obtain ⟨a, hrun, h, hs, hlists⟩ := run_in_step (progress_init n) hsettled hok
  -- the pullers by their places
  have hreceiveds : ∀ j < n, a.receiveds[j]? = some (spansOf ins j) := by
    intro j hj
    rw [hlists j]
    simp [receiveds, ConditionAnd.init, hj]
  have hviews : ∀ j < n, ∃ v ∈ a.views, v.1 = spansOf ins j := by
    intro j hj
    have hget := hreceiveds j hj
    simp only [receiveds, List.getElem?_map, Option.map_eq_some_iff] at hget
    obtain ⟨p, hp, hspans⟩ := hget
    exact ⟨p.view, List.mem_map_of_mem (List.mem_of_getElem? hp), hspans⟩
  have hplaces : ∀ v ∈ a.views, ∃ j < n, v.1 = spansOf ins j := by
    intro v hv
    obtain ⟨p, hp, rfl⟩ := List.mem_map.mp hv
    obtain ⟨j, hj⟩ := List.mem_iff_getElem?.mp hp
    have hget : a.receiveds[j]? = some p.received := by simp [receiveds, hj]
    have hlt : j < n := by
      have hinit := hlists j
      rw [hget] at hinit
      by_contra hge
      simp [receiveds, ConditionAnd.init, hge] at hinit
    exact ⟨j, hlt, Option.some.inj (hget.symm.trans (hreceiveds j hlt))⟩
  refine ⟨a, hrun, h.ordered, fun ts hts => ?_, fun t => ⟨fun hfired j hj => ?_,
    fun hall => ?_⟩⟩
  · obtain ⟨hle, -, hin⟩ := h.within ts hts
    refine ⟨hle, fun j hj => ?_⟩
    obtain ⟨v, hv, hspans⟩ := hviews j hj
    exact hspans ▸ hin v hv
  · obtain ⟨ts, hts, hcontains⟩ := hfired
    obtain ⟨v, hv, hspans⟩ := hviews j hj
    obtain ⟨r, hr, hstart, hend⟩ := (h.within ts hts).2.2 v hv
    exact ⟨r, hspans ▸ hr, Nat.le_trans hstart hcontains.1,
      Nat.lt_of_lt_of_le hcontains.2 hend⟩
  · have hpast : t < a.previousTick := by
      obtain ⟨k, v, hv, hle⟩ := hs
      obtain ⟨p, hp, rfl⟩ := List.mem_map.mp (List.mem_of_getElem? hv)
      obtain ⟨j, hj, hspans⟩ := hplaces p.view (List.mem_map_of_mem hp)
      have hcover : Covers p.view.1 t := hspans ▸ hall j hj
      exact Nat.lt_of_lt_of_le ((h.sound p hp).lt_of_covers hcover) hle
    obtain hcover | ⟨v, hv, hnot, -⟩ := h.past t hpast
    · exact hcover
    · obtain ⟨j, hj, hspans⟩ := hplaces v hv
      exact absurd (hspans ▸ hall j hj) hnot

/-- A test that is enough for a pull to be in step. -/
def passesNothing (a : ConditionAnd) (i : AndInput) : Bool :=
  match a.pullers[i.idx]? with
  | none => false
  | some p =>
    p.received.all (fun r => r.validityEnd ≤ i.ts.validityStart) &&
      decide (i.ts.validityStart ≤ i.ts.validityEnd ∧ i.ts.validityEnd ≤ maxTimetick) &&
      !decide (p.timeTail.endtime < a.previousTick ∧ a.previousTick < i.ts.validityEnd)

theorem inStep_of_passesNothing (a : ConditionAnd) (i : AndInput)
    (h : passesNothing a i = true) : InStep a i := by
  simp only [passesNothing] at h
  split at h
  · cases h
  · rename_i p hget
    simp only [Bool.and_eq_true, List.all_eq_true, decide_eq_true_eq, Bool.not_eq_true',
      decide_eq_false_iff_not, not_and] at h
    obtain ⟨⟨hordered, hspan⟩, hpasses⟩ := h
    refine ⟨(List.getElem?_eq_some_iff.mp hget).1, fun q hq => ?_, hspan,
      fun q hq _ _ hbehind hpast => ?_⟩
    · obtain rfl := Option.some.inj (hget.symm.trans hq)
      exact hordered
    · obtain rfl := Option.some.inj (hget.symm.trans hq)
      exact absurd hpast (hpasses hbehind)

/-- Periods of 10 and 12 ticks, of which the first lags behind. -/
theorem firesForCommonTime_two_periods : FiresForCommonTime 2
    [⟨0, ⟨0, 10⟩⟩, ⟨1, ⟨0, 12⟩⟩, ⟨1, ⟨12, 24⟩⟩, ⟨0, ⟨10, 20⟩⟩, ⟨0, ⟨20, 30⟩⟩] :=
  firesForCommonTime_of_run (by decide) _
    (allowed_of_checks inStep_of_passesNothing (by decide +kernel))

/-- The second puller has a gap from 10 to 30, and the first one passes tick 30 with
spans of 15 ticks. Nothing is passed on after that, although the pullers have ticks from
30 on in common. -/
theorem not_firesForCommonTime_gap : ¬ FiresForCommonTime 2
    [⟨0, ⟨0, 10⟩⟩, ⟨1, ⟨0, 10⟩⟩, ⟨1, ⟨30, 40⟩⟩, ⟨0, ⟨10, 25⟩⟩, ⟨0, ⟨25, 40⟩⟩, ⟨0, ⟨40, 55⟩⟩,
      ⟨1, ⟨40, 50⟩⟩, ⟨1, ⟨50, 60⟩⟩] := by
  rintro ⟨a, ha, -, -, hcommon⟩
  obtain ⟨a', ha', htest⟩ := exists_of_endsIn trigger (.init 2)
    [⟨0, ⟨0, 10⟩⟩, ⟨1, ⟨0, 10⟩⟩, ⟨1, ⟨30, 40⟩⟩, ⟨0, ⟨10, 25⟩⟩, ⟨0, ⟨25, 40⟩⟩, ⟨0, ⟨40, 55⟩⟩,
      ⟨1, ⟨40, 50⟩⟩, ⟨1, ⟨50, 60⟩⟩] (fun a => a.emitted == [⟨0, 10⟩]) (by decide +kernel)
  obtain rfl := Except.ok.inj (ha.symm.trans ha')
  have hcover := (hcommon 30).mpr fun j hj => by
    obtain rfl | rfl : j = 0 ∨ j = 1 := by omega
    · exact ⟨⟨25, 40⟩, by decide, by decide, by decide⟩
    · exact ⟨⟨30, 40⟩, by decide, by decide, by decide⟩
  rw [beq_iff_eq.mp htest, covers_singleton] at hcover
  exact absurd hcover.2 (by decide)

end Dueca.Trigger
