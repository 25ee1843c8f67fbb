import Dueca.Trigger.Model
import Mathlib.Data.List.Pairwise
import Mathlib.Data.List.TakeWhile

/-!
# The timing lists of the pullers

A timing list stands for the ticks in its elements, from the start of each span to the
end of its last repeat. From the tick on to which the trigger has progressed these are
the ticks a puller has reported; a clean-up removes only what is before that tick, and
leaves a first element that is not over yet, unless all of the list is.
-/

namespace Dueca.Trigger

/-- The tick is in the span. -/
def DataTimeSpec.Contains (ts : DataTimeSpec) (t : ℕ) : Prop :=
  ts.validityStart ≤ t ∧ t < ts.validityEnd

/-- The tick is in one of the spans. -/
def Covers (spans : List DataTimeSpec) (t : ℕ) : Prop := ∃ ts ∈ spans, ts.Contains t

/-- The tick is in the span of the element, or in one of its repeats. -/
def TimingList.Contains (e : TimingList) (t : ℕ) : Prop :=
  e.ts.validityStart ≤ t ∧ t < e.endtime

/-- The element stands for spans that were received, one after another; the first
element of all stands for none. -/
def TimingList.Repeats (received : List DataTimeSpec) (e : TimingList) : Prop :=
  e.ts.validityStart ≤ e.ts.validityEnd ∧
    ∃ k, e.endtime = e.ts.validityEnd + k * e.ts.validitySpan ∧
      (e = .make ⟨0, 0⟩ ∨ ∀ j ≤ k, e.ts.advance (j * e.ts.validitySpan) ∈ received)

/-- From tick `c` on the list agrees with the spans received. -/
structure PullerData.Sound (c : ℕ) (p : PullerData) : Prop where
  repeats : ∀ e ∈ p.elements, e.Repeats p.received
  sorted : p.elements.Pairwise fun e e' => e.endtime ≤ e'.ts.validityStart
  covers : ∀ t, c ≤ t → (Covers p.received t ↔ ∃ e ∈ p.elements, e.Contains t)
  ends : ∀ r ∈ p.received, r.validityEnd ≤ p.timeTail.endtime
  small : p.timeTail.endtime ≤ maxTimetick

/-- The first span of the list is not over at tick `c`, unless the whole list is. -/
def PullerData.Clean (c : ℕ) (p : PullerData) : Prop :=
  c < p.timeHead.ts.validityEnd ∨
    p.timeTail.endtime ≤ c ∧ p.timeHead.ts.validityEnd ≤ c

variable {e : TimingList} {p p' : PullerData} {ts : DataTimeSpec} {c t : ℕ}
variable {received : List DataTimeSpec}

theorem covers_append {l l' : List DataTimeSpec} :
    Covers (l ++ l') t ↔ Covers l t ∨ Covers l' t := by
  simp only [Covers, List.mem_append, or_and_right, exists_or]

theorem covers_singleton : Covers [ts] t ↔ ts.Contains t := by
  simp [Covers]

@[simp]
theorem validitySpan_advance (ts : DataTimeSpec) (delta : ℕ) :
    (ts.advance delta).validitySpan = ts.validitySpan := by
  simp only [DataTimeSpec.validitySpan, DataTimeSpec.advance]
  omega

theorem TimingList.Repeats.mono (h : e.Repeats received) {more : List DataTimeSpec} :
    e.Repeats (received ++ more) := by
  obtain ⟨hle, k, hend, hper⟩ := h
  exact ⟨hle, k, hend, hper.imp_right fun h j hj => List.mem_append_left _ (h j hj)⟩

theorem TimingList.Repeats.le_endtime (h : e.Repeats received) :
    e.ts.validityStart ≤ e.ts.validityEnd ∧ e.ts.validityEnd ≤ e.endtime := by
  obtain ⟨hle, k, hend, -⟩ := h
  exact ⟨hle, hend ▸ Nat.le_add_right _ _⟩

/-! ### The elements of a list -/

theorem timeTail_mem (p : PullerData) : p.timeTail ∈ p.elements :=
  List.mem_append_right _ List.mem_cons_self

/-- The first element, and those after it. -/
theorem elements_eq_cons (p : PullerData) : ∃ rest, p.elements = p.timeHead :: rest := by
  cases h : p.front with
  | nil => exact ⟨[], by simp [PullerData.elements, PullerData.timeHead, h]⟩
  | cons e front =>
    exact ⟨front ++ [p.timeTail], by simp [PullerData.elements, PullerData.timeHead, h]⟩

theorem timeHead_mem (p : PullerData) : p.timeHead ∈ p.elements := by
  obtain ⟨rest, h⟩ := elements_eq_cons p
  exact h ▸ List.mem_cons_self

namespace PullerData.Sound

/-- The last element ends last. -/
theorem endtime_le (h : p.Sound c) (he : e ∈ p.elements) : e.endtime ≤ p.timeTail.endtime := by
  obtain he | he := List.mem_append.mp he
  · have hle := (List.pairwise_append.mp h.sorted).2.2 e he _ List.mem_cons_self
    have htail := (h.repeats _ (timeTail_mem p)).le_endtime
    omega
  · exact Nat.le_of_eq (congrArg _ (List.mem_singleton.mp he))

/-- Nothing is covered from `c` to the start of the first element. -/
theorem not_covers_of_lt (h : p.Sound c) (hc : c ≤ t) (ht : t < p.timeHead.ts.validityStart) :
    ¬ Covers p.received t := by
  rw [h.covers t hc]
  rintro ⟨e, he, hstart, -⟩
  obtain ⟨rest, hrest⟩ := elements_eq_cons p
  have hsorted := h.sorted
  rw [hrest] at he hsorted
  obtain rfl | he := List.mem_cons.mp he
  · omega
  · have hle := (List.pairwise_cons.mp hsorted).1 e he
    have hhead := (h.repeats _ (timeHead_mem p)).le_endtime
    omega

/-- Nothing is covered from the end of the last element on. -/
theorem lt_of_covers (h : p.Sound c) (ht : Covers p.received t) : t < p.timeTail.endtime := by
  obtain ⟨r, hr, -, hend⟩ := ht
  have := h.ends r hr
  omega

/-- The end of the last element is that of a span received, or zero. -/
theorem endtime_cases (h : p.Sound c) :
    p.timeTail.endtime = 0 ∨ ∃ r ∈ p.received, r.validityEnd = p.timeTail.endtime := by
  obtain ⟨-, k, hend, hnone | hper⟩ := h.repeats _ (timeTail_mem p)
  · rw [hnone]
    exact .inl rfl
  · exact .inr ⟨_, hper k (Nat.le_refl k), hend.symm⟩

theorem mono (h : p.Sound c) {c' : ℕ} (hc : c ≤ c') : p.Sound c' :=
  { h with covers := fun t ht => h.covers t (Nat.le_trans hc ht) }

end PullerData.Sound

theorem sound_init (c : ℕ) : PullerData.Sound c {} where
  repeats := by
    intro e he
    obtain rfl := List.mem_singleton.mp he
    exact ⟨Nat.le_refl _, 0, rfl, .inl rfl⟩
  sorted := List.pairwise_singleton ..
  covers := by
    intro t _
    simp [Covers, PullerData.elements, TimingList.Contains, TimingList.make]
  ends := nofun
  small := by decide

/-! ### A new span -/

/-- A span that repeats the last one is one more period of the last element. -/
theorem TimingList.Repeats.extend (h : e.Repeats received) (hstart : ts.validityStart = e.endtime)
    (hspan : ts.validitySpan = e.ts.validitySpan) (hts : ts.validityStart ≤ ts.validityEnd) :
    TimingList.Repeats (received ++ [ts]) { e with endtime := ts.validityEnd } := by
  obtain ⟨hle, k, hend, hper⟩ := h
  have hadvance : ts = e.ts.advance ((k + 1) * e.ts.validitySpan) := by
    have hmul : (k + 1) * e.ts.validitySpan = k * e.ts.validitySpan + e.ts.validitySpan :=
      Nat.succ_mul ..
    obtain ⟨a, b⟩ := ts
    simp only [DataTimeSpec.advance, DataTimeSpec.validitySpan, DataTimeSpec.mk.injEq] at *
    omega
  refine ⟨hle, k + 1, congrArg DataTimeSpec.validityEnd hadvance, ?_⟩
  obtain rfl | hper := hper
  · left
    have hzero : ts = ⟨0, 0⟩ := by
      rw [hadvance]
      simp [DataTimeSpec.advance, DataTimeSpec.validitySpan, TimingList.make]
    rw [hzero]
    rfl
  · right
    intro j hj
    obtain rfl | hlt := Nat.eq_or_lt_of_le hj
    · exact List.mem_append_right _ (List.mem_singleton.mpr hadvance.symm)
    · exact List.mem_append_left _ (hper j (Nat.le_of_lt_succ hlt))

/-- The puller with one more period of its last element. -/
def PullerData.extended (p : PullerData) (ts : DataTimeSpec) : PullerData :=
  { p with
    timeTail := { p.timeTail with endtime := ts.validityEnd }, received := p.received ++ [ts] }

/-- The puller with a new last element. -/
def PullerData.appended (p : PullerData) (ts : DataTimeSpec) : PullerData :=
  { front := p.front ++ [p.timeTail], timeTail := .make ts, received := p.received ++ [ts] }

/-- What a span after all that was received does to the list, and when it can tip the
trigger. An empty span right behind the last one is not entered. -/
theorem newSpan_cases (hend : p.timeTail.endtime ≤ ts.validityStart) (q : ℕ) :
    (ts.validityStart = p.timeTail.endtime ∧ ts.validitySpan = p.timeTail.ts.validitySpan ∧
      p.newSpan ts q = (p.extended ts,
        ts.validityEnd == (p.timeTail.ts.validitySpan + q) % 2 ^ 32 && q < ts.validityEnd)) ∨
    (p.timeTail.endtime < ts.validityEnd ∧ p.newSpan ts q = (p.appended ts,
      p.timeTail.endtime ≤ q && q < ts.validityEnd)) ∨
    (ts.validityEnd ≤ p.timeTail.endtime ∧
      p.newSpan ts q = ({ p with received := p.received ++ [ts] }, false)) := by
  have hmodify : ts.modifyToAfter p.timeTail.endtime = ts := by
    rw [DataTimeSpec.modifyToAfter, Nat.max_eq_right hend]
  simp only [PullerData.newSpan, hmodify, DataTimeSpec.extendsOrIsAfter, decide_eq_true_eq]
  split
  · rename_i hrepeat
    exact .inl ⟨hrepeat.1, hrepeat.2, rfl⟩
  · split
    · rename_i hextends
      exact .inr (.inl ⟨hextends, rfl⟩)
    · rename_i hextends
      exact .inr (.inr ⟨Nat.not_lt.mp hextends, rfl⟩)

namespace PullerData.Sound

/-- The ticks of the list and a new span, by their places. -/
theorem covers_concat (h : p.Sound c) (hc : c ≤ t) : Covers (p.received ++ [ts]) t ↔
    (∃ e ∈ p.front, e.Contains t) ∨ p.timeTail.Contains t ∨ ts.Contains t := by
  rw [covers_append, covers_singleton, h.covers t hc, PullerData.elements]
  simp only [List.mem_append, List.mem_singleton, or_and_right, exists_or, exists_eq_left, or_assoc]

theorem ends_concat (h : p.Sound c) {last : ℕ} (hlast : p.timeTail.endtime ≤ last)
    (hts : ts.validityEnd ≤ last) : ∀ r ∈ p.received ++ [ts], r.validityEnd ≤ last := by
  intro r hr
  obtain hr | hr := List.mem_append.mp hr
  · exact Nat.le_trans (h.ends r hr) hlast
  · exact List.mem_singleton.mp hr ▸ hts

theorem extended (h : p.Sound c) (hstart : ts.validityStart = p.timeTail.endtime)
    (hspan : ts.validitySpan = p.timeTail.ts.validitySpan)
    (hts : ts.validityStart ≤ ts.validityEnd) (hsmall : ts.validityEnd ≤ maxTimetick) :
    (p.extended ts).Sound c where
  repeats := by
    intro e he
    obtain he | he := List.mem_append.mp he
    · exact (h.repeats e (List.mem_append_left _ he)).mono
    · rw [List.mem_singleton.mp he]
      exact (h.repeats _ (timeTail_mem p)).extend hstart hspan hts
  sorted := by
    obtain ⟨hfront, -, hbefore⟩ := List.pairwise_append.mp h.sorted
    refine List.pairwise_append.mpr ⟨hfront, List.pairwise_singleton .., fun e he e' he' => ?_⟩
    rw [List.mem_singleton.mp he']
    exact hbefore e he p.timeTail List.mem_cons_self
  covers := by
    intro t ht
    have hlast := (h.repeats _ (timeTail_mem p)).le_endtime
    refine (h.covers_concat ht).trans ?_
    simp only [PullerData.extended, PullerData.elements, List.mem_append, List.mem_singleton,
      or_and_right, exists_or, exists_eq_left, TimingList.Contains, DataTimeSpec.Contains]
    refine or_congr_right ?_
    omega
  ends := h.ends_concat (show p.timeTail.endtime ≤ ts.validityEnd by omega) (Nat.le_refl _)
  small := hsmall

theorem appended (h : p.Sound c) (hend : p.timeTail.endtime ≤ ts.validityStart)
    (hts : ts.validityStart ≤ ts.validityEnd) (hsmall : ts.validityEnd ≤ maxTimetick) :
    (p.appended ts).Sound c where
  repeats := by
    intro e he
    obtain he | he := List.mem_append.mp he
    · exact (h.repeats e he).mono
    · rw [List.mem_singleton.mp he]
      refine ⟨hts, 0, by rw [Nat.zero_mul]; rfl, .inr fun j hj => ?_⟩
      obtain rfl := Nat.le_zero.mp hj
      rw [Nat.zero_mul]
      exact List.mem_append_right _ List.mem_cons_self
  sorted := by
    refine List.pairwise_append.mpr ⟨h.sorted, List.pairwise_singleton .., fun e he e' he' => ?_⟩
    rw [List.mem_singleton.mp he']
    exact Nat.le_trans (h.endtime_le he) hend
  covers := by
    intro t ht
    refine (h.covers_concat ht).trans ?_
    simp only [PullerData.appended, PullerData.elements, List.mem_append, List.mem_singleton,
      or_and_right, exists_or, exists_eq_left, or_assoc]
    rfl
  ends := h.ends_concat (Nat.le_trans hend hts) (Nat.le_refl _)
  small := hsmall

theorem ignored (h : p.Sound c) (hend : p.timeTail.endtime ≤ ts.validityStart)
    (hts : ts.validityEnd ≤ p.timeTail.endtime) :
    Sound c { p with received := p.received ++ [ts] } where
  repeats := fun e he => (h.repeats e he).mono
  sorted := h.sorted
  covers := by
    intro t ht
    rw [covers_append, covers_singleton, or_iff_left]
    · exact h.covers t ht
    · rintro ⟨hstart, hlt⟩
      omega
  ends := h.ends_concat (Nat.le_refl _) hts
  small := h.small

/-- A span after all that was received is entered in the list. -/
theorem newSpan (h : p.Sound c) (hend : p.timeTail.endtime ≤ ts.validityStart)
    (hts : ts.validityStart ≤ ts.validityEnd) (hsmall : ts.validityEnd ≤ maxTimetick) (q : ℕ) :
    (p.newSpan ts q).1.Sound c ∧ (p.newSpan ts q).1.received = p.received ++ [ts] ∧
      p.timeTail.endtime ≤ (p.newSpan ts q).1.timeTail.endtime := by
  obtain ⟨hstart, hspan, heq⟩ | ⟨hlt, heq⟩ | ⟨hle, heq⟩ := newSpan_cases hend q
  · rw [heq]
    exact ⟨h.extended hstart hspan hts hsmall, rfl, Nat.le_trans hend hts⟩
  · rw [heq]
    exact ⟨h.appended hend hts hsmall, rfl, Nat.le_of_lt hlt⟩
  · rw [heq]
    exact ⟨h.ignored hend hle, rfl, Nat.le_refl _⟩

end PullerData.Sound

/-! ### The clean-up -/

/-- An element that is moved on by some of its periods. -/
theorem TimingList.Repeats.advance (h : e.Repeats received) {m : ℕ}
    (hm : e.ts.validityStart + m * e.ts.validitySpan < e.endtime) :
    TimingList.Repeats received { e with ts := e.ts.advance (m * e.ts.validitySpan) } := by
  obtain ⟨hle, k, hend, hper⟩ := h
  have hspan : e.ts.validityEnd = e.ts.validityStart + e.ts.validitySpan := by
    simp only [DataTimeSpec.validitySpan]
    omega
  have hmk : m ≤ k := by
    have hsucc : (k + 1) * e.ts.validitySpan = k * e.ts.validitySpan + e.ts.validitySpan :=
      Nat.succ_mul ..
    have hlt : m * e.ts.validitySpan < (k + 1) * e.ts.validitySpan := by omega
    exact Nat.le_of_lt_succ (Nat.lt_of_mul_lt_mul_right hlt)
  have hsplit : k * e.ts.validitySpan = m * e.ts.validitySpan + (k - m) * e.ts.validitySpan := by
    rw [← Nat.add_mul, Nat.add_sub_cancel' hmk]
  refine ⟨Nat.add_le_add_right hle _, k - m, ?_, ?_⟩
  · simp only [validitySpan_advance]
    simp only [DataTimeSpec.advance]
    omega
  · refine hper.imp (fun hnone => ?_) fun hper j hj => ?_
    · rw [hnone]
      simp [DataTimeSpec.advance, DataTimeSpec.validitySpan, TimingList.make]
    · have hmem := hper (m + j) (by omega)
      rw [Nat.add_mul] at hmem
      rw [validitySpan_advance]
      simpa only [DataTimeSpec.advance, Nat.add_assoc] using hmem

/-- An element that is not over is moved on to the period that holds `c`, or is left
alone when that comes before it. -/
theorem updatePeriod_of_lt (h : e.Repeats received) (hc : c < e.endtime) :
    ∃ e', PullerData.updatePeriod e c = .ok e' ∧ e'.Repeats received ∧
      e'.endtime = e.endtime ∧ c < e'.ts.validityEnd ∧
      e.ts.validityStart ≤ e'.ts.validityStart ∧ (e' = e ∨ e'.ts.validityStart ≤ c) := by
  have hle := h.le_endtime.1
  have hspan : e.ts.validityEnd = e.ts.validityStart + e.ts.validitySpan := by
    simp only [DataTimeSpec.validitySpan]
    omega
  -- it has a period left, so that its span is not empty
  have hpos : e.ts.validityEnd ≤ c → e.ts.validitySpan ≠ 0 := by
    intro hover hzero
    obtain ⟨-, k, hend, -⟩ := h
    rw [hzero, Nat.mul_zero] at hend
    omega
  simp only [PullerData.updatePeriod, if_pos hc]
  split
  · rename_i hover
    have hone := h.advance (m := 1) (by omega)
    rw [Nat.one_mul] at hone
    have hne := hpos (Nat.le_of_eq hover)
    refine ⟨_, rfl, hone, rfl, ?_, Nat.le_add_right .., .inr ?_⟩ <;>
      (simp only [DataTimeSpec.advance]; omega)
  · split
    · rename_i hover
      have hne := hpos (Nat.le_of_lt hover)
      rw [if_neg hne]
      have hdiv := Nat.div_mul_le_self (c - e.ts.validityStart) e.ts.validitySpan
      have hmod := Nat.lt_div_mul_add (a := c - e.ts.validityStart) (Nat.pos_of_ne_zero hne)
      refine ⟨_, rfl, h.advance (by omega), rfl, ?_, Nat.le_add_right .., .inr ?_⟩ <;>
        (simp only [DataTimeSpec.advance]; omega)
    · exact ⟨e, rfl, h, rfl, by omega, Nat.le_refl _, .inl rfl⟩

/-- The list without the elements that are over, and with its first one moved on. -/
theorem PullerData.Sound.moveOn (h : p.Sound c) {dropped rest : List TimingList} {e' : TimingList}
    (hp : p.elements = dropped ++ e :: rest) (hdropped : ∀ d ∈ dropped, d.endtime ≤ c)
    (hp' : p'.elements = e' :: rest) (hreceived : p'.received = p.received)
    (htail : p'.timeTail.endtime = p.timeTail.endtime) (hrepeats : e'.Repeats p.received)
    (hend : e'.endtime = e.endtime) (hstart : e.ts.validityStart ≤ e'.ts.validityStart)
    (hmoved : e' = e ∨ e'.ts.validityStart ≤ c) : p'.Sound c where
  repeats := by
    rw [hreceived, hp']
    intro d hd
    obtain rfl | hd := List.mem_cons.mp hd
    · exact hrepeats
    · exact h.repeats d (hp ▸ List.mem_append_right _ (List.mem_cons_of_mem _ hd))
  sorted := by
    have hsorted := h.sorted
    rw [hp] at hsorted
    obtain ⟨hhead, hrest⟩ := List.pairwise_cons.mp (List.pairwise_append.mp hsorted).2.1
    rw [hp']
    exact List.pairwise_cons.mpr ⟨fun d hd => hend ▸ hhead d hd, hrest⟩
  covers := by
    intro t ht
    have hsame : e'.Contains t ↔ e.Contains t := by
      simp only [TimingList.Contains, hend]
      obtain rfl | hmoved := hmoved
      · exact Iff.rfl
      · omega
    have hover : ¬ ∃ d ∈ dropped, d.Contains t := by
      rintro ⟨d, hd, -, hlt⟩
      have := hdropped d hd
      omega
    rw [hreceived, h.covers t ht, hp, hp']
    simp only [List.mem_append, List.mem_cons, or_and_right, exists_or, exists_eq_left, hsame, hover,
      false_or]
  ends := by
    rw [hreceived, htail]
    exact h.ends
  small := htail ▸ h.small

/-- The clean-up goes through, and leaves the list sound and clean. -/
theorem PullerData.Sound.cleanUp (h : p.Sound c) :
    ∃ p', p.cleanUpTimingList c = .ok p' ∧ p'.Sound c ∧ p'.Clean c ∧
      p'.received = p.received ∧ p'.timeTail.endtime = p.timeTail.endtime := by
  have hsplit : p.elements = p.front.takeWhile (fun e => e.endtime ≤ c) ++
      (p.front.dropWhile (fun e => e.endtime ≤ c) ++ [p.timeTail]) := by
    rw [← List.append_assoc, List.takeWhile_append_dropWhile]
    rfl
  have hdropped : ∀ d ∈ p.front.takeWhile (fun e => e.endtime ≤ c), d.endtime ≤ c :=
    fun d hd => by simpa using List.mem_takeWhile_imp hd
  simp only [cleanUpTimingList]
  cases hfront : p.front.dropWhile (fun e => decide (e.endtime ≤ c)) with
  | nil =>
    rw [hfront] at hsplit
    have htail := h.repeats _ (timeTail_mem p)
    by_cases hover : c < p.timeTail.endtime
    · obtain ⟨e', hupdate, hrepeats, hend, hlt, hstart, hmoved⟩ := updatePeriod_of_lt htail hover
      simp only [hupdate]
      exact ⟨_, rfl, h.moveOn hsplit hdropped rfl rfl hend hrepeats hend hstart hmoved, .inl hlt, rfl,
        hend⟩
    · simp only [updatePeriod, if_neg hover]
      refine ⟨_, rfl, h.moveOn hsplit hdropped rfl rfl rfl htail rfl (Nat.le_refl _) (.inl rfl),
        .inr ⟨Nat.not_lt.mp hover, ?_⟩, rfl, rfl⟩
      exact Nat.le_trans htail.le_endtime.2 (Nat.not_lt.mp hover)
  | cons e front =>
    rw [hfront] at hsplit
    have hmem : e ∈ p.elements := hsplit ▸ List.mem_append_right _ List.mem_cons_self
    have hover : c < e.endtime := by
      have hnot := List.head?_dropWhile_not (fun e : TimingList => decide (e.endtime ≤ c)) p.front
      rw [hfront] at hnot
      simpa using hnot
    obtain ⟨e', hupdate, hrepeats, hend, hlt, hstart, hmoved⟩ :=
      updatePeriod_of_lt (h.repeats e hmem) hover
    simp only [hupdate]
    exact ⟨_, rfl, h.moveOn hsplit hdropped rfl rfl rfl hrepeats hend hstart hmoved, .inl hlt, rfl, rfl⟩

end Dueca.Trigger
