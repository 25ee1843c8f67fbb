import Dueca.Entry.Access

/-!
# Span and depth of a stream

Readers by time ask an entry to keep its data for a span, and to keep a number of points.
The depth is kept. The span is counted from the start of a point, not from its end, so a
long point can be retired while part of it lies within the span. Where that does not
happen, a reader by time finds each point of the span.
-/

namespace Dueca.Entry

open Dueca.Lib UChannelEntryData

variable {D B : Type} {e e' : UChannelEntry D} {conv : DataSetConverter D B}
variable {data : D} {t : DataTimeSpec} {current : Bool} {l : UChannelEntryData D}

/-- The data points that a reader by time can get. -/
def reachable (e : UChannelEntry D) : List (Point D) := pointsFrom e e.oldest

/-! ### Ids and numbers of points -/

theorem pointsFrom_cons {a : ℕ} (ha : a < e.latest) :
    pointsFrom e a = (pointAt e a).toList ++ pointsFrom e (a + 1) := by
  rw [pointsFrom_split (b := a + 1) (Nat.le_succ a) ha, Nat.add_sub_cancel_left]
  cases hp : pointAt e a <;> simp [List.range'_succ, hp]

theorem pointAt_isSome {a : ℕ} {n : UChannelEntryData D} (hL : Linked e)
    (hn : e.heap a = some n) (ha : a < e.latest) :
    (pointAt e a).isSome ↔ n.seqId ≠ 0 := by
  have hr := hL.mem_range hn
  obtain ⟨m, hm⟩ := hL.exists_node (a := a + 1) (by omega) ha
  simp only [pointAt, hn, hm]
  split <;> simp [*]

/-- Behind a point there are as many points as the ids say. -/
theorem seqId_add_length {a : ℕ} {n : UChannelEntryData D} (hL : Linked e) (hO : Ordered e)
    (hl : e.heap e.latest = some l) (hn : e.heap a = some n) (ha : a < e.latest)
    (hz : n.seqId ≠ 0) : n.seqId + (pointsFrom e (a + 1)).length + 1 = l.seqId := by
  induction hk : e.latest - a using Nat.strong_induction_on generalizing a n with
  | _ k ih =>
    have hr := hL.mem_range hn
    by_cases hlast : a + 1 = e.latest
    · have hnil : pointsFrom e (a + 1) = [] := by simp [pointsFrom, hlast]
      rw [hnil, hO.seq_succ a n l hn (hlast ▸ hl) hz (hO.last l hl).2.1]
      rfl
    obtain ⟨m, hm⟩ := hL.exists_node (a := a + 1) (by omega) (by omega)
    have hsome := pointAt_isSome hL hm (by omega)
    rw [pointsFrom_cons (by omega), List.length_append]
    by_cases hmz : m.seqId = 0
    · -- a gap, and a point behind it
      have hnone : pointAt e (a + 1) = none := by simpa [hmz] using hsome
      obtain ⟨-, j, hj, hjs⟩ := hO.gap a n m hn hm hmz
      have hlt : a + 2 < e.latest := by
        rcases hO.gap_lt (a + 1) m hm hmz with h | h <;> have := (hL.mem_range hj).2
        · omega
        · rcases Nat.lt_or_ge (a + 2) e.latest with h' | h'
          · exact h'
          · omega
      have hrec := ih (e.latest - (a + 2)) (by omega) hj hlt (by omega) rfl
      obtain ⟨p, hp⟩ := Option.isSome_iff_exists.mp ((pointAt_isSome hL hj hlt).mpr (by omega))
      rw [hnone, pointsFrom_cons hlt, hp]
      simp only [Option.toList_none, Option.toList_some, List.length_nil, List.length_append,
        List.length_singleton]
      omega
    · have hms := hO.seq_succ a n m hn hm hz hmz
      obtain ⟨p, hp⟩ := Option.isSome_iff_exists.mp (hsome.mpr hmz)
      have hrec := ih (e.latest - (a + 1)) (by omega) hm (by omega) hmz rfl
      rw [hp]
      simp only [Option.toList_some, List.length_singleton]
      omega

theorem depth_of_retirable {now a : ℕ} {n : UChannelEntryData D}
    (h : retirable e now a = true) (hn : e.heap a = some n) (hl : e.heap e.latest = some l) :
    e.depth < idDifference l.seqId n.seqId := by
  rw [retirable, hn, hl] at h
  simp only [Bool.and_eq_true, decide_eq_true_eq] at h
  exact h.2

/-- The clean-up leaves enough points. -/
theorem depth_le_pointsFrom {now c o k : ℕ} (hL : Linked e) (hO : Ordered e)
    (hC : Cleaning e now c o) (hk : min e.depth k ≤ (reachable e).length) :
    min e.depth k ≤ (pointsFrom e o).length := by
  obtain ⟨l, hl⟩ := hL.exists_latest
  have hlt := hC.lt_oldest
  have hcl := hC.cleanup_le
  have key (x : ℕ) (h₁ : e.oldest ≤ x) (h₂ : x ≤ o) :
      min e.depth k ≤ (pointsFrom e x).length := by
    induction x, h₁ using Nat.le_induction with
    | base => exact hk
    | succ x hx ih =>
      have hxl : x < e.latest := lt_of_lt_of_le h₂ hC.le_latest
      obtain ⟨n, hn⟩ := hL.exists_node (a := x) (by omega) (by omega)
      have hsome := pointAt_isSome hL hn hxl
      by_cases hz : n.seqId = 0
      · have hnone : pointAt e x = none := by simpa [hz] using hsome
        have := ih (by omega)
        rwa [pointsFrom_cons hxl, hnone] at this
      · have hdepth := depth_of_retirable (hC.retired x hx h₂) hn hl
        have hids := seqId_add_length hL hO hl hn hxl hz
        have hsmall := (hO.last l hl).2.2
        have hdiff : idDifference l.seqId n.seqId = l.seqId - n.seqId := by
          rw [idDifference, show l.seqId + 4294967296 - n.seqId =
            (l.seqId - n.seqId) + 4294967296 by omega, Nat.add_mod_right]
          exact Nat.mod_eq_of_lt (by omega)
        omega
  exact key o hC.oldest_le le_rfl

/-! ### The search by time -/

/-- Back from `b`, a reader by time gets to the point that holds at the tick. -/
theorem findBefore_eq {a b tick fuel : ℕ} {n m k : UChannelEntryData D} (hL : Linked e)
    (hO : Ordered e) (hev : e.eventtype = false) (ho : e.oldest ≤ a) (hn : e.heap a = some n)
    (hz : n.seqId ≠ 0) (hstart : n.timeOrTimeEnd ≤ tick) (hm : e.heap (a + 1) = some m)
    (hend : tick < m.timeOrTimeEnd) (hab : a ≤ b) (hk : e.heap b = some k) (hkz : k.seqId ≠ 0)
    (hfuel : b - a < fuel) : findBefore e.heap e.oldest tick fuel b = .ok (some a) := by
  have hlt := hL.cleanup_lt
  induction fuel generalizing b k with
  | zero => omega
  | succ fuel ih =>
    by_cases hba : b = a
    · subst hba
      obtain rfl := Option.some.inj (hk.symm.trans hn)
      simp only [findBefore, deref_eq_ok.mpr hk, bind, Except.bind]
      have hnot : ¬ k.afterTick tick = true := by simpa [afterTick] using hstart
      rw [if_neg hnot]
      rfl
    have hlate : tick < k.timeOrTimeEnd :=
      lt_of_lt_of_le hend (hO.time_le hL hev (by omega) hm hk)
    obtain ⟨j, hj⟩ := hL.exists_node (a := b - 1) (by omega)
      (by have := (hL.mem_range hk).2; omega)
    have holder := hL.older_eq b k hk (by omega)
    simp only [findBefore, deref_eq_ok.mpr hk, bind, Except.bind]
    have hgo : k.afterTick tick = true := by simpa [afterTick] using hlate
    have hne : b ≠ e.oldest := by omega
    rw [if_pos hgo, if_neg hne]
    simp only [holder, follow, deref_eq_ok.mpr hj]
    by_cases hjz : j.seqId = 0
    · -- the gap ends before the point that is looked for starts to be late
      have hbig : a + 1 ≤ b - 1 := by
        rcases Nat.lt_or_ge a (b - 1) with h | h
        · exact h
        · obtain rfl : a = b - 1 := by omega
          obtain rfl := Option.some.inj (hj.symm.trans hn)
          exact absurd hjz hz
      have hjlate : tick < j.timeOrTimeEnd :=
        lt_of_lt_of_le hend (hO.time_le hL hev hbig hm hj)
      have hjo := hL.older_eq (b - 1) j hj (by omega)
      obtain ⟨i, hi⟩ := hL.exists_node (a := b - 1 - 1) (by omega)
        (by have := (hL.mem_range hk).2; omega)
      have hiz := (hO.gap (b - 1 - 1) i j hi
        (by rw [show b - 1 - 1 + 1 = b - 1 by omega]; exact hj) hjz).1
      rw [if_pos hjz, if_neg (by simpa [beforeTick] using hjlate)]
      simp only [hjo, deref_eq_ok.mpr hi]
      have hstay : ¬ (decide (b - 1 - 1 = e.oldest) && i.afterTick tick) = true := by
        intro h
        simp only [Bool.and_eq_true, decide_eq_true_eq, afterTick] at h
        obtain rfl : a = b - 1 - 1 := by omega
        obtain rfl := Option.some.inj (hi.symm.trans hn)
        omega
      rw [if_neg hstay]
      exact ih (by omega) hi hiz (by omega)
    · rw [if_neg hjz]
      exact ih (by omega) hj hjz (by omega)

theorem mem_pointsFrom {a : ℕ} {p : Point D} (h : p ∈ pointsFrom e a) :
    ∃ b, a ≤ b ∧ b < e.latest ∧ pointAt e b = some p := by
  obtain ⟨b, hb, hp⟩ := List.mem_filterMap.mp h
  rw [List.mem_range'_1] at hb
  exact ⟨b, hb.1, by omega, hp⟩

theorem mem_reachable {p : Point D} (h : p ∈ reachable e) :
    ∃ a, e.oldest ≤ a ∧ a < e.latest ∧ pointAt e a = some p := mem_pointsFrom h

theorem Accounted.readAccesses_ne_zero (hA : Accounted e) {a : ℕ} {n : UChannelEntryData D}
    (hn : e.heap a = some n) : n.readAccesses ≠ 0 := by
  have := hA.counted.count a n hn
  omega

/-- A reader by time gets each point that it can get, in its span. -/
theorem accessData_of_reachable {c : Client} {p : Point D} {d : D} {tick : ℕ} (hA : Accounted e)
    (hO : Ordered e) (hev : e.eventtype = false) (hv : e.valid = true)
    (hwhole : ∀ q ∈ reachable e, q.2.isSome) (hp : p ∈ reachable e) (hd : p.2 = some d)
    (hstart : p.1.1 ≤ tick) (hend : tick < p.1.2) (hs : c.sequentialRead = false)
    (hacc : c.accessed = none) :
    ∃ h' c', accessData e c tick = .ok (h', c', some (p.1, d)) := by
  have hL := hA.counted.linked
  have hlt := hL.cleanup_lt
  have hfr := hL.fresh_eq
  obtain ⟨a, hoa, hal, hpa⟩ := mem_reachable hp
  obtain ⟨n, m, hn, hm, hz, rfl⟩ := pointAt_eq_some hpa
  simp only [hev] at hstart hend hd
  have hend : tick < m.timeOrTimeEnd := hend
  obtain ⟨o, ho⟩ := hL.exists_node (a := e.oldest) (by omega) hL.oldest_le
  obtain ⟨l, hl⟩ := hL.exists_latest
  have hlo := hL.older_eq e.latest l hl (by omega)
  -- the point before the sentinel is a data point, and it has its data
  obtain ⟨k, hk⟩ := hL.exists_node (a := e.latest - 1) (by omega) (by omega)
  have hkz : k.seqId ≠ 0 := fun h => by
    rcases hO.gap_lt _ k hk h with h | h <;> omega
  obtain ⟨q, hq⟩ := Option.isSome_iff_exists.mp ((pointAt_isSome hL hk (by omega)).mpr hkz)
  have hkd : k.data.isSome := by
    have hmem : q ∈ reachable e :=
      List.mem_filterMap.mpr ⟨e.latest - 1, by rw [List.mem_range'_1]; omega, hq⟩
    obtain ⟨_, _, hk', -, -, rfl⟩ := pointAt_eq_some hq
    obtain rfl := Option.some.inj (hk.symm.trans hk')
    exact hwhole _ hmem
  have hfuel : e.latest - 1 - a < e.fresh + 1 := by omega
  have hfind := findBefore_eq hL hO hev hoa hn hz hstart hm hend (b := e.latest - 1) (by omega) hk
    hkz hfuel
  have hnewer := hL.newer_of_lt hn hal
  have hget : getData e.heap a c e.eventtype =
      .ok (store e.heap a n.increment, { c with accessed := some a },
        some ((n.timeOrTimeEnd, m.timeOrTimeEnd), d)) := by
    simp only [getData, hacc, require, deref_eq_ok.mpr hn, hnewer, actualTime, hev, bind,
      Except.bind, follow, deref_eq_ok.mpr hm, hd, Option.isNone_none, if_true, Option.isNone_some,
      Bool.false_or, decide_eq_true_eq, if_neg (hA.readAccesses_ne_zero hn)]
    rfl
  refine ⟨store e.heap a n.increment, { c with accessed := some a, seqId := n.seqId }, ?_⟩
  rw [accessData, if_neg (by simp [hv]), if_neg (by simp [hs]), accessTimed]
  simp only [bind, Except.bind, deref_eq_ok.mpr ho, if_neg (hA.readAccesses_ne_zero ho),
    deref_eq_ok.mpr hl, hlo, follow, deref_eq_ok.mpr hk]
  rw [if_neg (by simpa [Option.isSome_iff_ne_none] using hkd)]
  simp only [hfind, deref_eq_ok.mpr hn, hget]
  simp only [hev]
  rfl

/-! ### Runs with their accepted points -/

/-- An entry, and all points that it accepted. -/
structure Record (D : Type) where
  entry : UChannelEntry D
  log : List (Point D) := []

/-- The point that an operation adds. -/
def accepted (e : UChannelEntry D) : Op D → List (Point D)
  | .newData data t _ =>
    match e.heap e.latest with
    | some l => if accepts e l t then [(validity e l t, some data)] else []
    | none => []
  | _ => []

def recordStep (conv : DataSetConverter D B) (r : Record D) (op : Op D) :
    Except Fault (Record D) := do
  let e ← advance conv r.entry op
  pure ⟨e, r.log ++ accepted r.entry op⟩

/-- The accepted points that a reader by time cannot get any more. -/
def Record.retired (r : Record D) : List (Point D) :=
  r.log.take (r.log.length - (reachable r.entry).length)

/-- The condition on an operation. A write comes when the points already retired have ended
by its start less the span, and so have those that its clean-up retires; readers do not take
data, and do not ask for a greater depth once there are points. -/
def Retains (r : Record D) (op : Op D) : Prop :=
  Careful r.entry op ∧
  match op with
  | .newData _ t _ =>
    (∀ p ∈ r.retired, p.1.2 + r.entry.span ≤ t.validityStart) ∧
    ∀ a p, r.entry.oldest ≤ a →
      (∀ b, r.entry.oldest ≤ b → b ≤ a → retirable r.entry t.validityStart b = true) →
      pointAt r.entry a = some p → p.1.2 + r.entry.span ≤ t.validityStart
  | .link false _ depth => depth ≤ r.entry.depth ∨ r.log = []
  | .releaseOnlyAccess _ => False
  | _ => True

/-- What holds of a stream after any operation. -/
structure Retained (r : Record D) : Prop where
  accounted : Accounted r.entry
  ordered : Ordered r.entry
  stream : r.entry.eventtype = false
  lastId : r.entry.lastId = r.log.length + 1
  whole : ∀ p ∈ r.log, p.2.isSome
  suffix : reachable r.entry <:+ r.log
  depth : min r.entry.depth r.log.length ≤ (reachable r.entry).length

theorem Retained.log_eq {r : Record D} (hR : Retained r) :
    r.log = r.retired ++ reachable r.entry := by
  obtain ⟨pre, hpre⟩ := hR.suffix
  rw [Record.retired, ← hpre, List.length_append, Nat.add_sub_cancel, List.take_left]

/-- The points after a write, and the points that a reader by time can get. -/
theorem newData_points {work : List PackUnit} (hA : Accounted e) (hO : Ordered e)
    (hl : e.heap e.latest = some l) (h : newData e data t current = .ok (e', work)) :
    ∃ c o, Cleaning e t.validityStart c o ∧ e'.depth = e.depth ∧ e'.span = e.span ∧
      e'.eventtype = e.eventtype ∧
      reachable e' = pointsFrom e o ++ accepted e (.newData data t current) ∧
      e'.lastId = if accepts e l t then (l.seqId + 1) % 4294967296 else l.seqId := by
  have hL := hA.counted.linked
  obtain ⟨c, o, hC, hL', hlc, hcase⟩ := newData_outcome hL hA.manned hl h
  have hco : c ≤ o := by have := hC.lt_oldest; have := hC.oldest_le; omega
  have hstay : pointsFrom (e.cleaned c o) o = pointsFrom e o := pointsFrom_cleaned hco
  refine ⟨c, o, hC, ?_⟩
  simp only [accepted, hl]
  rcases hcase with ⟨hno, rfl, -⟩ | ⟨m, _, _, hyes, hw, -, -, hmoves, hframe⟩
  · rw [if_neg (by simp [hno]), if_neg (by simp [hno]), List.append_nil]
    exact ⟨rfl, rfl, rfl, hstay, lastId_eq hlc⟩
  · have hm : m.depth = e.depth ∧ m.span = e.span ∧ m.eventtype = e.eventtype := by
      rcases written_cases hw with ⟨_, _, rfl, -⟩ | ⟨rfl, -⟩ <;> exact ⟨rfl, rfl, rfl⟩
    rw [if_pos hyes, if_pos hyes]
    refine ⟨hframe.depth.trans hm.1, hframe.span.trans hm.2.1, hframe.eventtype.trans hm.2.2, ?_, ?_⟩
    · rw [reachable, pointsFrom_moves hmoves hframe.latest hframe.eventtype, hframe.oldest,
        (written_cleanup hw).2]
      show pointsFrom m o = _
      rw [pointsFrom_written hL' (hO.cleaned c o) hlc hC.le_latest hw, hstay]
      rfl
    · rw [lastId_moves hmoves hframe.latest, lastId_written hL' hw]

theorem recordStep_eq_ok {r r' : Record D} {op : Op D} :
    recordStep conv r op = .ok r' ↔
      ∃ e, advance conv r.entry op = .ok e ∧ ⟨e, r.log ++ accepted r.entry op⟩ = r' := by
  simp only [recordStep, bind_eq_ok, pure_eq_ok]

/-- A write keeps the points of the span, and the depth. -/
theorem retained_newData {r r' : Record D} (hR : Retained r)
    (hok : Retains r (.newData data t current)) (hw : r.log.length + 2 < 4294967296)
    (h : recordStep conv r (.newData data t current) = .ok r') :
    Retained r' ∧ ∀ p ∈ r'.log,
      p ∈ reachable r'.entry ∨ p.1.2 + r'.entry.span ≤ t.validityStart := by
  obtain ⟨e', hadv, rfl⟩ := recordStep_eq_ok.mp h
  obtain ⟨work, hnew⟩ := advance_eq_ok hadv
  obtain ⟨-, hgone, hgoing⟩ := hok
  have hL := hR.accounted.counted.linked
  have hO := hR.ordered
  obtain ⟨l, hl⟩ := hL.exists_latest
  have hlid := lastId_eq hl
  have hid := hR.lastId
  obtain ⟨c, o, hC, hdepth, hspan, hev, hreach, hlast⟩ :=
    newData_points hR.accounted hO hl hnew
  -- what the clean-up retires
  have hold : reachable r.entry =
      (List.range' r.entry.oldest (o - r.entry.oldest)).filterMap (pointAt r.entry) ++
        pointsFrom r.entry o := pointsFrom_split hC.oldest_le hC.le_latest
  have hended (p : Point D) (hp : p ∈
      (List.range' r.entry.oldest (o - r.entry.oldest)).filterMap (pointAt r.entry)) :
      p.1.2 + r.entry.span ≤ t.validityStart := by
    obtain ⟨a, ha, hpa⟩ := List.mem_filterMap.mp hp
    rw [List.mem_range'_1] at ha
    exact hgoing a p ha.1 (fun b h₁ h₂ => hC.retired b h₁ (by omega)) hpa
  have hlog := hR.log_eq
  rw [hold] at hlog
  have hacc : (accepted r.entry (.newData data t current)).length =
      if accepts r.entry l t then 1 else 0 := by
    simp only [accepted, hl]
    split <;> rfl
  refine ⟨⟨hR.accounted.newData hnew, ?_, hev.trans hR.stream, ?_, ?_, ?_, ?_⟩, ?_⟩
  · exact newData_ordered hL hR.accounted.manned hO hl (by omega) hnew
  · show e'.lastId = (r.log ++ _).length + 1
    rw [hlast, List.length_append, hacc]
    split
    · rw [Nat.mod_eq_of_lt (by omega)]
      omega
    · omega
  · intro p hp
    rcases List.mem_append.mp hp with hp | hp
    · exact hR.whole p hp
    · simp only [accepted, hl] at hp
      split at hp
      · rw [List.mem_singleton.mp hp]
        rfl
      · cases hp
  · show reachable e' <:+ r.log ++ _
    rw [hreach, hlog]
    exact ⟨r.retired ++ (List.range' r.entry.oldest (o - r.entry.oldest)).filterMap
      (pointAt r.entry), by simp only [List.append_assoc]⟩
  · show min e'.depth (r.log ++ _).length ≤ (reachable e').length
    have := depth_le_pointsFrom hL hO hC hR.depth
    rw [hreach, hdepth, List.length_append, List.length_append]
    omega
  · intro p hp
    have hp : p ∈ r.log ++ accepted r.entry (.newData data t current) := hp
    show p ∈ reachable e' ∨ p.1.2 + e'.span ≤ _
    rw [hreach, hspan]
    rw [hlog] at hp
    simp only [List.mem_append] at hp ⊢
    rcases hp with (hp | hp | hp) | hp
    · exact .inr (hgone p hp)
    · exact .inr (hended p hp)
    · exact .inl (.inl hp)
    · exact .inl (.inr hp)

/-- Every other operation leaves the points where they are. -/
theorem retained_other {r r' : Record D} {op : Op D} (hR : Retained r) (hok : Retains r op)
    (hop : ∀ data t current, op ≠ .newData data t current)
    (h : recordStep conv r op = .ok r') : Retained r' ∧ r'.log = r.log := by
  obtain ⟨e', hadv, rfl⟩ := recordStep_eq_ok.mp h
  obtain ⟨work, hstep⟩ := advance_eq_ok hadv
  have hL := hR.accounted.counted.linked
  obtain ⟨⟨src, dst, taken, hm, htaken⟩, hs, -⟩ :=
    step_shape hL hR.accounted.manned hop hstep
  have hkeep : taken = [] := by
    refine List.eq_nil_iff_forall_not_mem.mpr fun a ha => ?_
    obtain ⟨i, c, rfl, -⟩ := htaken a ha
    exact hok.2
  subst hkeep
  have hlog : accepted r.entry op = [] := by
    cases op with
    | newData data t current => exact absurd rfl (hop data t current)
    | _ => rfl
  have hreach : reachable e' = reachable r.entry := by
    rw [reachable, hs.oldest]
    exact pointsFrom_moves hm hs.latest hs.eventtype
  rw [hlog, List.append_nil]
  refine ⟨⟨accounted_step hR.accounted hok.1 hadv, hR.ordered.moves hm hs.latest hs.eventtype,
    hs.eventtype.trans hR.stream, (lastId_moves hm hs.latest).trans hR.lastId, hR.whole, ?_, ?_⟩,
    rfl⟩
  · exact hreach ▸ hR.suffix
  · show min e'.depth r.log.length ≤ (reachable e').length
    rw [hreach]
    rcases (step_rest hL hR.accounted.manned hop hstep).1 with hd | ⟨span, depth, rfl, hd⟩
    · exact hd ▸ hR.depth
    · have hdepth := hR.depth
      rw [hd]
      rcases hok.2 with hle | hnil
      · rwa [Nat.max_eq_right hle]
      · simp [hnil]

theorem retained_create (writer fullpackmode : Bool) (nreservations : ℕ) :
    Retained (⟨UChannelEntry.create writer false fullpackmode nreservations, []⟩ : Record D) where
  accounted := accounted_create ..
  ordered := ordered_create ..
  stream := rfl
  lastId := lastId_create ..
  whole := nofun
  suffix := List.suffix_refl _
  depth := by simp

theorem retained_step {r r' : Record D} {op : Op D} (hR : Retained r) (hok : Retains r op)
    (hw : r.log.length + (if op.isWrite then 1 else 0) < 4294967295)
    (h : recordStep conv r op = .ok r') :
    Retained r' ∧ r'.log.length ≤ r.log.length + if op.isWrite then 1 else 0 := by
  by_cases hop : ∃ data t current, op = .newData data t current
  · obtain ⟨data, t, current, rfl⟩ := hop
    have hw : r.log.length + 1 < 4294967295 := hw
    refine ⟨(retained_newData hR hok (by omega) h).1, ?_⟩
    obtain ⟨e', -, rfl⟩ := recordStep_eq_ok.mp h
    show (r.log ++ accepted r.entry _).length ≤ r.log.length + 1
    rw [List.length_append]
    simp only [accepted]
    split
    · split <;> simp
    · simp
  · push Not at hop
    obtain ⟨hR', hlog⟩ := retained_other hR hok hop h
    exact ⟨hR', hlog ▸ Nat.le_add_right _ _⟩

theorem retained_of_run {ops : List (Op D)} {s r : Record D} (hR : Retained s)
    (hok : Allowed (recordStep conv) Retains s ops)
    (hw : s.log.length + writes ops < 4294967295)
    (hrun : exec (recordStep conv) s ops = .ok r) :
    Retained r ∧ r.log.length ≤ s.log.length + writes ops := by
  induction ops generalizing s with
  | nil =>
    cases hrun
    exact ⟨hR, le_rfl⟩
  | cons op ops ih =>
    obtain ⟨u, hu, hrest⟩ := exec_cons_eq_ok.mp hrun
    have hcount : writes (op :: ops) = writes ops + if op.isWrite then 1 else 0 := by
      rw [writes, List.countP_cons]
      rfl
    rw [hcount] at hw ⊢
    obtain ⟨hRu, hle⟩ := retained_step hR hok.1 (by omega) hu
    obtain ⟨hRr, hle'⟩ := ih hRu (hok.2 u hu) (by omega) hrest
    exact ⟨hRr, by omega⟩

/-- After a write at the end of a run that keeps the points of the span, the newest points
can be read, as many as the depth asks for, and a reader by time gets every accepted point
that was valid at a tick of the span. -/
theorem spanAndDepth_of_run {writer fullpackmode : Bool} {nreservations : ℕ}
    {ops : List (Op D)} {r : Record D} (hw : writes ops < 4294967294)
    (hok : Allowed (recordStep conv) Retains
      ⟨UChannelEntry.create writer false fullpackmode nreservations, []⟩
      (ops ++ [.newData data t current]))
    (hrun : exec (recordStep conv)
      ⟨UChannelEntry.create writer false fullpackmode nreservations, []⟩
      (ops ++ [.newData data t current]) = .ok r) :
    reachable r.entry <:+ r.log ∧
    min r.entry.depth r.log.length ≤ (reachable r.entry).length ∧
    ∀ p ∈ r.log, ∀ tick, p.1.1 ≤ tick → tick < p.1.2 →
      t.validityStart ≤ tick + r.entry.span → r.entry.valid = true →
      ∀ c : Client, c.sequentialRead = false → c.accessed = none →
        ∃ d h' c', p.2 = some d ∧ accessData r.entry c tick = .ok (h', c', some (p.1, d)) := by
  obtain ⟨u, hu, hlast⟩ := exec_concat.mp hrun
  obtain ⟨hRu, hle⟩ := retained_of_run (retained_create ..) hok.of_append
    (show 0 + writes ops < 4294967295 by omega) hu
  have hle : u.log.length ≤ 0 + writes ops := hle
  have hret : Retains u (.newData data t current) := hok.last hu
  obtain ⟨hR, hkept⟩ := retained_newData hRu hret (by omega) hlast
  refine ⟨hR.suffix, hR.depth, fun p hp tick h₁ h₂ hspan hv c hs hacc => ?_⟩
  obtain ⟨d, hd⟩ := Option.isSome_iff_exists.mp (hR.whole p hp)
  have hmem : p ∈ reachable r.entry := by
    rcases hkept p hp with hmem | hgone
    · exact hmem
    · omega
  obtain ⟨h', c', hread⟩ := accessData_of_reachable hR.accounted hR.ordered hR.stream hv
    (fun q hq => hR.whole q (hR.suffix.subset hq)) hmem hd h₁ h₂ hs hacc
  exact ⟨d, h', c', hd, hread⟩

/-- A test that a write passes when the clean-up stops at some point, and all points from
the oldest one to there have ended. -/
def retainsTest (r : Record D) (op : Op D) : Bool :=
  decide (Careful r.entry op) &&
    match op with
    | .newData _ t _ =>
      (r.retired.all fun p => p.1.2 + r.entry.span ≤ t.validityStart) &&
        (List.range' r.entry.oldest (r.entry.latest + 1 - r.entry.oldest)).any fun x =>
          !retirable r.entry t.validityStart x &&
            (List.range' r.entry.oldest (x - r.entry.oldest)).all fun a =>
              (pointAt r.entry a).all fun p => p.1.2 + r.entry.span ≤ t.validityStart
    | .link false _ depth => depth ≤ r.entry.depth || r.log.isEmpty
    | .releaseOnlyAccess _ => false
    | _ => true

theorem retains_of_retainsTest (r : Record D) (op : Op D) (h : retainsTest r op = true) :
    Retains r op := by
  obtain ⟨hcare, h⟩ := Bool.and_eq_true_iff.mp h
  refine ⟨of_decide_eq_true hcare, ?_⟩
  cases op with
  | newData data t current =>
    simp only [Bool.and_eq_true, List.all_eq_true, List.any_eq_true, List.mem_range'_1,
      Bool.not_eq_true', decide_eq_true_eq] at h
    obtain ⟨hgone, x, hx, hstop, hended⟩ := h
    refine ⟨hgone, fun a p ha hall hp => ?_⟩
    have hlt : a < x := by
      by_contra hge
      rw [hall x hx.1 (by omega)] at hstop
      cases hstop
    have := hended a ⟨ha, by omega⟩
    rw [hp] at this
    simpa using this
  | link sequentialRead span depth =>
    cases sequentialRead with
    | true => trivial
    | false => simpa using h
  | releaseOnlyAccess i => cases h
  | _ => trivial

/-- Three points, for a reader that asks for two. -/
def threePoints : List (Op ℕ) :=
  [.setValid 1, .link false 20 2, .newData 5 (.of 0 10 zero_ten) true,
    .newData 6 (.of 10 20 ten_twenty) true, .newData 7 (.of 20 30 twenty_thirty) true]

def fourthPoint : Op ℕ := .newData 8 (.of 40 50) true

theorem spanAndDepth_four_points :
    ∃ r d h' c', exec (recordStep (.verbatim ℕ)) ⟨.create true false false 0, []⟩
      (threePoints ++ [fourthPoint]) = .ok r ∧
      accessData r.entry { sequentialRead := false, readIndex := none } 25 =
        .ok (h', c', some ((20, 30), d)) := by
  obtain ⟨r, hr, htest⟩ := exists_of_endsIn (recordStep (.verbatim ℕ))
    ⟨.create true false false 0, []⟩
    (threePoints ++ [fourthPoint])
    (fun r => ((20, 30), some 7) ∈ r.log && r.entry.span = 20 && r.entry.valid)
    (by decide +kernel)
  simp only [Bool.and_eq_true, decide_eq_true_eq] at htest
  obtain ⟨⟨hmem, hspan⟩, hv⟩ := htest
  have hread := (spanAndDepth_of_run (by decide +kernel)
    (allowed_of_checks retains_of_retainsTest (by decide +kernel)) hr).2.2
  obtain ⟨d, h', c', -, hacc⟩ := hread _ hmem 25 (by decide) (by decide)
    (by rw [hspan]; decide) hv { sequentialRead := false, readIndex := none } rfl rfl
  exact ⟨r, d, h', c', hr, hacc⟩

/-- A long point is retired by its start, while it was valid within the span. -/
theorem not_spanAndDepth_long_point :
    ∃ r h' c', exec (recordStep (.verbatim ℕ)) ⟨.create true false false 0, []⟩
      [.setValid 1, .link false 20 1, .newData 5 (.of 0 1000) true, .newData 6 (.of 1000 1010) true,
        .newData 7 (.of 1010 1020) true] = .ok r ∧
      ((0, 1000), some 5) ∈ r.log ∧ 1010 ≤ 995 + r.entry.span ∧ r.entry.valid = true ∧
      accessData r.entry { sequentialRead := false, readIndex := none } 995 =
        .ok (h', c', none) := by
  obtain ⟨r, hr, htest⟩ := exists_of_endsIn (recordStep (.verbatim ℕ))
    ⟨.create true false false 0, []⟩
    [.setValid 1, .link false 20 1, .newData 5 (.of 0 1000) true, .newData 6 (.of 1000 1010) true,
      .newData 7 (.of 1010 1020) true]
    (fun r => ((0, 1000), some 5) ∈ r.log && (1010 ≤ 995 + r.entry.span && r.entry.valid) &&
      (accessData r.entry { sequentialRead := false, readIndex := none } 995).toOption.any
        fun x => x.2.2.isNone)
    (by decide +kernel)
  simp only [Bool.and_eq_true, decide_eq_true_eq] at htest
  obtain ⟨⟨hmem, hspan, hv⟩, htest⟩ := htest
  cases hacc : accessData r.entry { sequentialRead := false, readIndex := none } 995 with
  | error fault =>
    rw [hacc] at htest
    cases htest
  | ok x =>
    rw [hacc] at htest
    obtain ⟨h', c', res⟩ := x
    obtain rfl : res = none := Option.isNone_iff_eq_none.mp htest
    exact ⟨r, h', c', hr, hmem, hspan, hv, hacc⟩

end Dueca.Entry
