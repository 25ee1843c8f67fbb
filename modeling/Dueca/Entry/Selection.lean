import Dueca.Entry.Selectors

/-!
# What data selectors find

The search for a tick, in streams and in events, and what it means for the selectors: a reader
gives the documented point, or leaves everything as it was.
-/

namespace Dueca.Entry

open Dueca.Lib UChannelEntryData

variable {D B : Type} {e e' : UChannelEntry D} {conv : DataSetConverter D B}
variable {a b i r t : ℕ} {c c' : Client} {n m : UChannelEntryData D} {sel : Selector}

/-! ### Links and gaps -/

/-- All points have a link to the one before, and in events there are no gaps. -/
structure Traced (e : UChannelEntry D) : Prop where
  older : ∀ a n, e.heap a = some n → 0 < a → n.older = some (a - 1)
  ungapped : e.eventtype = true → ∀ a n, e.heap a = some n → 0 < a → n.seqId ≠ 0

theorem traced_create (writer eventtype fullpackmode : Bool) (nreservations : ℕ) :
    Traced (UChannelEntry.create writer eventtype fullpackmode nreservations :
      UChannelEntry D) := by
  have hone (a : ℕ) (n : UChannelEntryData D) (h : (UChannelEntry.create writer eventtype
      fullpackmode nreservations : UChannelEntry D).heap a = some n) (ha : 0 < a) :
      a = 1 ∧ n.older = some 0 ∧ n.seqId = 1 := by
    simp only [UChannelEntry.create, if_neg ha.ne'] at h
    split at h
    · cases h
      split <;> exact ⟨‹_›, rfl, rfl⟩
    · cases h
  constructor
  · intro a n hn ha
    obtain ⟨rfl, holder, -⟩ := hone a n hn ha
    exact holder
  · intro _ a n hn ha
    rw [(hone a n hn ha).2.2]
    exact Nat.one_ne_zero

theorem Traced.moves {src dst taken : List ℕ} (h : Traced e)
    (hm : Moves e.heap e'.heap src dst taken) (hev : e'.eventtype = e.eventtype) : Traced e' where
  older a n' hn' ha := by
    obtain ⟨n, hn, -, holder, -⟩ := hm.exists_of_some hn'
    rw [holder, h.older a n hn ha]
  ungapped hevent a n' hn' ha := by
    obtain ⟨n, hn, -, -, -, hseq, -⟩ := hm.exists_of_some hn'
    rw [hseq]
    exact h.ungapped (hev ▸ hevent) a n hn ha

theorem Traced.cleaned (h : Traced e) (k o : ℕ) : Traced (e.cleaned k o) := by
  have hheap {a : ℕ} {n : UChannelEntryData D} (hn : (e.cleaned k o).heap a = some n) :
      e.heap a = some n := by
    have hn : (if a < k then none else e.heap a) = some n := hn
    split at hn
    · cases hn
    · exact hn
  exact ⟨fun a n hn => h.older a n (hheap hn), fun hev a n hn => h.ungapped hev a n (hheap hn)⟩

theorem Traced.written {data : D} {w : DataTimeSpec} {l : UChannelEntryData D}
    {e' : UChannelEntry D} (h : Traced e) (hL : Linked e) (hl : e.heap e.latest = some l)
    (hz : l.seqId ≠ 0) (hseq : l.seqId + 1 < 4294967296) (hw : e.written l data w = some e') :
    Traced e' := by
  have hfr := hL.fresh_eq
  have hlt := hL.cleanup_lt
  have hle := hL.oldest_le
  have holder := h.older e.latest l hl (by omega)
  rcases written_cases hw with ⟨start, ts, rfl, -⟩ | ⟨rfl, hev, -⟩
  · -- a point is the new sentinel, the one that was filled, or an old one
    have hheap {a : ℕ} {n : UChannelEntryData D} (hn : (e.filled l start data ts).heap a = some n)
        (ha : 0 < a) : n.older = some (a - 1) ∧
          (n.seqId ≠ 0 ∨ a < e.latest ∧ e.heap a = some n) := by
      rw [filled_heap] at hn
      split at hn
      · cases hn
        refine ⟨congrArg some (by omega), .inl ?_⟩
        show (l.seqId + 1) % 4294967296 ≠ 0
        rw [Nat.mod_eq_of_lt hseq]
        exact Nat.succ_ne_zero _
      · split at hn
        · next hlast =>
          cases hn
          exact ⟨hlast ▸ holder, .inl hz⟩
        · have := (hL.mem_range hn).2
          exact ⟨h.older a n hn ha, .inr ⟨by omega, hn⟩⟩
    refine ⟨fun a n hn ha => (hheap hn ha).1, fun hev a n hn ha => ?_⟩
    rcases (hheap hn ha).2 with hne | ⟨-, hold⟩
    · exact hne
    · exact h.ungapped hev a n hold ha
  · refine ⟨fun a n hn ha => ?_, fun hevent => absurd (hev.symm.trans hevent) Bool.false_ne_true⟩
    rw [gapped_heap] at hn
    split at hn
    · cases hn
      exact congrArg some (by omega)
    · split at hn
      · cases hn
        exact congrArg some (by omega)
      · split at hn
        · next hlast =>
          cases hn
          exact hlast ▸ holder
        · exact h.older a n hn ha

theorem traced_step {op : Op D} (hS : Sound e)
    (hseq : e.lastId + (if op.isWrite then 1 else 0) < 4294967296) (h : Traced e)
    (hstep : advance conv e op = .ok e') : Traced e' := by
  obtain ⟨work, hstep⟩ := advance_eq_ok hstep
  by_cases hop : ∃ data w current, op = .newData data w current
  · obtain ⟨data, w, current, rfl⟩ := hop
    obtain ⟨l, hl⟩ := hS.linked.exists_latest
    obtain ⟨k, o, -, hL', hl', ⟨-, rfl, -⟩ | ⟨m, _, _, -, hw, -, -, hmoves, hframe⟩⟩ :=
      newData_outcome hS.linked hS.manned hl hstep
    · exact h.cleaned k o
    · have hm := (h.cleaned k o).written hL' hl' (hS.ordered.last l hl).2.1
        (lastId_eq hl ▸ hseq) hw
      exact hm.moves hmoves hframe.eventtype
  · push Not at hop
    obtain ⟨⟨_, _, _, hm, -⟩, hs, -⟩ := step_shape hS.linked hS.manned hop hstep
    exact h.moves hm hs.eventtype

theorem traced_of_run {ops : List (Op D)} {s : UChannelEntry D} (hS : Sound s)
    (hw : s.lastId + writes ops < 4294967296) (hrun : exec (advance conv) s ops = .ok e)
    (h : Traced s) : Traced e :=
  invariant_of_run (fun _ _ _ => traced_step) hS hw hrun h

/-! ### The search -/

/-- In events, the search ends at the last one that does not come after the tick. -/
theorem findBefore_events {fuel : ℕ} (hT : Tidy e) (hR : Traced e) (hev : e.eventtype = true)
    (hob : e.oldest ≤ b) (hbl : b < e.latest) (hf : b - e.oldest < fuel)
    (hlate : ∀ x k, b < x → x < e.latest → e.heap x = some k → t < k.timeOrTimeEnd) :
    (∃ a n, findBefore e.heap e.oldest t fuel b = .ok (some a) ∧ e.oldest ≤ a ∧ a < e.latest ∧
        e.heap a = some n ∧ n.timeOrTimeEnd ≤ t ∧
        ∀ x k, a < x → x < e.latest → e.heap x = some k → t < k.timeOrTimeEnd) ∨
      findBefore e.heap e.oldest t fuel b = .ok none ∧
        ∀ x k, e.oldest ≤ x → x < e.latest → e.heap x = some k → t < k.timeOrTimeEnd := by
  have hlt := hT.linked.cleanup_lt
  induction fuel generalizing b with
  | zero => omega
  | succ fuel ih =>
    obtain ⟨m, hm⟩ := hT.linked.exists_node (a := b) (by omega) (by omega)
    simp only [findBefore, deref_eq_ok.mpr hm, bind, Except.bind]
    by_cases hbt : m.timeOrTimeEnd ≤ t
    · rw [if_neg (by simpa [afterTick] using hbt)]
      exact .inl ⟨b, m, rfl, hob, hbl, hm, hbt, hlate⟩
    rw [if_pos (by simpa [afterTick] using hbt)]
    have hlate' (x : ℕ) (k : UChannelEntryData D) (hx : b ≤ x) (hxl : x < e.latest)
        (hk : e.heap x = some k) : t < k.timeOrTimeEnd := by
      rcases hx.lt_or_eq with hx | rfl
      · exact hlate x k hx hxl hk
      · rw [← Option.some.inj (hm.symm.trans hk)]
        omega
    by_cases hbo : b = e.oldest
    · rw [if_pos hbo]
      exact .inr ⟨rfl, fun x k hx => hlate' x k (hbo ▸ hx)⟩
    · rw [if_neg hbo]
      obtain ⟨j, hj⟩ := hT.linked.exists_node (a := b - 1) (by omega) (by omega)
      simp only [hT.linked.older_eq b m hm (by omega), follow, deref_eq_ok.mpr hj]
      rw [if_neg (hR.ungapped hev _ _ hj (by omega))]
      exact ih (by omega) (by omega) (by omega) fun x k hx => hlate' x k (by omega)

theorem Linked.lt_of_freed (hL : Linked e) (ha : e.heap a = none) (hal : a ≤ e.latest)
    (hn : e.heap b = some n) : a < b := by
  by_contra hlt
  obtain ⟨k, hk⟩ := hL.exists_node ((hL.mem_range hn).1.trans (Nat.not_lt.mp hlt)) hal
  cases ha.symm.trans hk

/-- When the oldest point is a gap, the search does not stop there. It ends at a point that holds
at the tick, in a gap, or at a freed point when all points come after the tick. -/
theorem findBefore_retired {fuel : ℕ} (hT : Tidy e) (hR : Traced e)
    (hgap : ∀ n, e.heap e.oldest = some n → n.seqId = 0) (hm : e.heap b = some m)
    (hmz : m.seqId ≠ 0) (hbl : b < e.latest) (hf : b < fuel)
    (hlate : ∀ x k, b < x → e.heap x = some k → t < k.timeOrTimeEnd) :
    (∃ a n, findBefore e.heap e.oldest t fuel b = .ok (some a) ∧ a < e.latest ∧
        e.heap a = some n ∧ n.seqId ≠ 0 ∧ n.timeOrTimeEnd ≤ t ∧
        ∀ x k, a < x → e.heap x = some k → t < k.timeOrTimeEnd) ∨
      (∃ a, findBefore e.heap e.oldest t fuel b = .ok none ∧ GapAt e t a) ∨
      ∃ f, findBefore e.heap e.oldest t fuel b = .error f ∧
        ∀ x k, e.heap x = some k → t < k.timeOrTimeEnd := by
  induction fuel generalizing b m with
  | zero => omega
  | succ fuel ih =>
    simp only [findBefore, deref_eq_ok.mpr hm, bind, Except.bind]
    by_cases hbt : m.timeOrTimeEnd ≤ t
    · rw [if_neg (by simpa [afterTick] using hbt)]
      exact .inl ⟨b, m, rfl, hbl, hm, hmz, hbt, hlate⟩
    have hlate' (x : ℕ) (k : UChannelEntryData D) (hx : b ≤ x) (hk : e.heap x = some k) :
        t < k.timeOrTimeEnd := by
      rcases hx.lt_or_eq with hx | rfl
      · exact hlate x k hx hk
      · rw [← Option.some.inj (hm.symm.trans hk)]
        omega
    have hbo : b ≠ e.oldest := fun heq => hmz (hgap m (heq ▸ hm))
    have hpos : 0 < b := Nat.pos_of_ne_zero fun hzero => hmz (hT.seqId_zero (hzero ▸ hm))
    rw [if_pos (by simpa [afterTick] using hbt), if_neg hbo]
    simp only [hR.older b m hm hpos, follow]
    cases hj : e.heap (b - 1) with
    | none =>
      refine .inr (.inr ⟨.freedPointer, by simp only [deref, hj], fun x k hk => ?_⟩)
      have := hT.linked.lt_of_freed hj (by omega) hk
      exact hlate' x k (by omega) hk
    | some j =>
      simp only [deref_eq_ok.mpr hj]
      by_cases hjz : j.seqId = 0
      · rw [if_pos hjz]
        by_cases hjt : j.timeOrTimeEnd ≤ t
        · -- the tick is in the gap
          rw [if_pos (by simpa [beforeTick] using hjt)]
          exact .inr (.inl ⟨b - 1, rfl, j, m, hj, hjz, hjt, by rwa [Nat.sub_add_cancel hpos],
            hlate' b m le_rfl hm⟩)
        rw [if_neg (by simpa [beforeTick] using hjt)]
        have hpos' : 0 < b - 1 := Nat.pos_of_ne_zero fun hzero => by
          rw [hzero] at hj
          have := hT.ordered.zero j hj
          omega
        simp only [hR.older (b - 1) j hj hpos']
        have hlate'' (x : ℕ) (k : UChannelEntryData D) (hx : b - 1 ≤ x) (hk : e.heap x = some k) :
            t < k.timeOrTimeEnd := by
          rcases hx.lt_or_eq with hx | rfl
          · exact hlate' x k (by omega) hk
          · rw [← Option.some.inj (hj.symm.trans hk)]
            omega
        cases hi : e.heap (b - 1 - 1) with
        | none =>
          refine .inr (.inr ⟨.freedPointer, by simp only [deref, hi], fun x k hk => ?_⟩)
          have := hT.linked.lt_of_freed hi (by omega) hk
          exact hlate'' x k (by omega) hk
        | some i =>
          have hiz := (hT.ordered.gap (b - 1 - 1) i j hi
            (by rwa [Nat.sub_add_cancel hpos']) hjz).1
          have hio : b - 1 - 1 ≠ e.oldest := fun heq => hiz (hgap i (heq ▸ hi))
          simp only [deref_eq_ok.mpr hi]
          rw [if_neg (by simp [hio])]
          exact ih hi hiz (by omega) (by omega) fun x k hx => hlate'' x k (by omega)
      · rw [if_neg hjz]
        exact ih hj hjz (by omega) (by omega) fun x k hx => hlate' x k (by omega)

/-- Two nodes of a stream after which, and before which, the tick comes. -/
theorem Ordered.le_of_spans (hO : Ordered e) (hL : Linked e) (hev : e.eventtype = false)
    (hm : e.heap (a + 1) = some m) (hmt : t < m.timeOrTimeEnd) (hn : e.heap b = some n)
    (hnt : n.timeOrTimeEnd ≤ t) : b ≤ a := by
  by_contra hlt
  have := hO.time_le hL hev (by omega : a + 1 ≤ b) hm hn
  omega

/-! ### The points -/

/-- The last point that passes a test. -/
theorem getLast?_filter_reachable {f : Point D → Bool} {q : Point D} (hoa : e.oldest ≤ a)
    (hal : a < e.latest) (hq : pointAt e a = some q) (hf : f q = true)
    (hafter : ∀ p ∈ pointsFrom e (a + 1), f p = false) :
    ((reachable e).filter f).getLast? = some q := by
  have hcons : pointsFrom e a = q :: pointsFrom e (a + 1) := by
    rw [pointsFrom_cons hal, hq]
    rfl
  have hnil : (pointsFrom e (a + 1)).filter f = [] :=
    List.filter_eq_nil_iff.mpr fun p hp => by rw [hafter p hp]; exact Bool.false_ne_true
  rw [reachable, pointsFrom_split hoa hal.le, hcons, List.filter_append,
    List.filter_cons_of_pos hf, hnil, List.getLast?_concat]

/-- Points are late when their nodes are. -/
theorem late_of_mem (hlate : ∀ x k, a ≤ x → x < e.latest → e.heap x = some k → k.seqId ≠ 0 →
    t < k.timeOrTimeEnd) : ∀ p ∈ pointsFrom e a, t < p.1.1 := by
  intro p hp
  obtain ⟨x, hax, hxl, hx⟩ := mem_pointsFrom hp
  obtain ⟨k, m, hk, -, hz, rfl⟩ := pointAt_eq_some hx
  exact hlate x k hax hxl hk hz

theorem lastBefore_eq_none (hlate : ∀ p ∈ reachable e, t < p.1.1) : lastBefore e t = none := by
  rw [lastBefore, List.filter_eq_nil_iff.mpr fun p hp => by simpa using hlate p hp]
  rfl

/-- What is documented for a reader by time. -/
theorem documented_timed (hs : c.sequentialRead = false) : documented e sel c t =
    ((reachable e).filter fun p => sel.documented e.eventtype false t p.1).getLast? := by
  rw [documented, onOffer, hs]
  rfl

theorem documented_eq_none (hs : c.sequentialRead = false)
    (h : ∀ p ∈ reachable e, sel.documented e.eventtype false t p.1 = false) :
    documented e sel c t = none := by
  have hnil : ((reachable e).filter fun p => sel.documented e.eventtype false t p.1) = [] :=
    List.filter_eq_nil_iff.mpr fun p hp => by rw [h p hp]; exact Bool.false_ne_true
  rw [documented_timed hs, hnil]
  rfl

/-- All that is documented starts at or before the tick. -/
theorem Selector.le_of_documented {eventtype isSequential : Bool} {ts : ℕ × ℕ}
    (h : sel.documented eventtype isSequential t ts = true) : ts.1 ≤ t := by
  cases sel with
  | matchIntervalStart =>
    cases eventtype with
    | false =>
      have h : (decide (ts.1 ≤ t) && decide (t < ts.2)) = true := h
      rw [Bool.and_eq_true] at h
      exact of_decide_eq_true h.1
    | true =>
      cases isSequential with
      | true => exact of_decide_eq_true h
      | false => exact (of_decide_eq_true h).le
  | matchIntervalStartOrEarlier => exact of_decide_eq_true h

theorem documented_eq_none_of_late (hs : c.sequentialRead = false)
    (hlate : ∀ p ∈ reachable e, t < p.1.1) : documented e sel c t = none :=
  documented_eq_none hs fun p hp => eq_false_of_ne_true fun h =>
    absurd (Selector.le_of_documented h) (Nat.not_le.mpr (hlate p hp))

/-! ### Readers by time -/

/-- A stream of which the oldest point is a gap that starts after the tick. -/
theorem Tidy.selects_iff_late (hT : Tidy e) (hR : Traced e) (hled : Led e)
    (hev : e.eventtype = false) (hs : c.sequentialRead = false) (hidle : c.accessed = none)
    (hv : e.valid = true) (htaken : newestTaken e = false) (hlate : StartsLate e t) :
    Selects e sel c t ↔ ∃ a < e.oldest, GapAt e t a := by
  obtain ⟨n, hn, hz, ht⟩ := hlate
  obtain ⟨hol, p, hp, hpz⟩ := hT.newest hled htaken
  have hfr := hT.linked.fresh_eq
  have hall (x : ℕ) (k : UChannelEntryData D) (hx : e.oldest ≤ x) (hk : e.heap x = some k) :
      t < k.timeOrTimeEnd :=
    ht.trans_le (hT.ordered.time_le hT.linked hev hx hn hk)
  have hdoc : documented e sel c t = none :=
    documented_eq_none_of_late hs (late_of_mem fun x k hx _ hk _ => hall x k hx hk)
  rcases (@findBefore_retired D e (e.latest - 1) t p (e.fresh + 1)) hT hR
      (fun k hk => Option.some.inj (hn.symm.trans hk) ▸ hz) hp hpz (by omega) (by omega)
      (fun x k hx hk => hall x k (by omega) hk) with
    ⟨a, k, hfind, hal, hk, hkz, hkt, hafter⟩ | ⟨a, hfind, hgap⟩ | ⟨f, hfind, hafter⟩
  · -- a retired point is found
    obtain ⟨q, hq⟩ := Option.isSome_iff_exists.mp ((pointAt_isSome hT.linked hk hal).mpr hkz)
    obtain ⟨c', haccess, hacc, hidx, hs'⟩ :=
      (hT.accessData_found hv hs hidle htaken hfind).2 a q k rfl hq hal hk
    obtain ⟨k', m, hk', hm, -, rfl⟩ := pointAt_eq_some hq
    obtain rfl := Option.some.inj (hk.symm.trans hk')
    have hmt := hafter (a + 1) m (Nat.lt_succ_self a) hm
    rw [selects_iff_of_found hidle hk haccess hacc hidx hs', hdoc, hev]
    have hvalid : sel.validTiming false t (k.timeOrTimeEnd, m.timeOrTimeEnd) = true := by
      cases sel with
      | matchIntervalStart =>
        simp only [Selector.validTiming, Bool.not_false, Bool.true_and, Bool.false_and,
          Bool.or_false, Bool.or_eq_true, Bool.and_eq_true, decide_eq_true_eq]
        exact .inl ⟨⟨by omega, hkt⟩, hmt⟩
      | matchIntervalStartOrEarlier => exact decide_eq_true hkt
    rw [if_neg Bool.false_ne_true, if_pos hvalid]
    refine iff_of_false (fun h => nomatch h.2) ?_
    rintro ⟨g, -, j, j', hj, hjz, hjt, hj', hjt'⟩
    have hag := hT.ordered.le_of_spans hT.linked hev hj' hjt' hk hkt
    rcases hag.lt_or_eq with hlt | rfl
    · exact absurd (hafter g j hlt hj) (Nat.not_lt.mpr hjt)
    · exact hkz (Option.some.inj (hj.symm.trans hk) ▸ hjz)
  · rw [selects_iff_of_nothing ((hT.accessData_found hv hs hidle htaken hfind).1 rfl)]
    refine iff_of_true hdoc ⟨a, ?_, hgap⟩
    obtain ⟨j, -, hj, -, hjt, -⟩ := hgap
    by_contra hle
    have := hall a j (Nat.not_lt.mp hle) hj
    omega
  · have herr : accessData e c t = .error f := by
      rw [hT.accessData_search hv hs htaken, hfind]
      rfl
    refine iff_of_false (not_selects_of_error herr) ?_
    rintro ⟨g, -, j, -, hj, -, hjt, -⟩
    have := hafter g j hj
    omega

/-- A reader by time, on a stream that can be read. -/
theorem Tidy.selects_iff_stream (hT : Tidy e) (hR : Traced e) (hled : Led e)
    (hev : e.eventtype = false) (hs : c.sequentialRead = false) (hidle : c.accessed = none)
    (hv : e.valid = true) (htaken : newestTaken e = false) :
    Selects e sel c t ↔ StreamWhen e sel t := by
  by_cases hlate : StartsLate e t
  · rw [hT.selects_iff_late hR hled hev hs hidle hv htaken hlate]
    refine ⟨fun h => ⟨fun _ => h, ?_⟩, fun h => h.1 hlate⟩
    obtain ⟨n, hn, -, ht⟩ := hlate
    have hafter : ∀ p ∈ reachable e, t < p.1.1 := late_of_mem fun x k hx _ hk _ =>
      ht.trans_le (hT.ordered.time_le hT.linked hev hx hn hk)
    cases sel with
    | matchIntervalStart => exact fun p hp => absurd hp.2.1 (Nat.not_le.mpr (hafter p hp.1))
    | matchIntervalStartOrEarlier =>
      intro p hp
      rw [lastBefore_eq_none hafter] at hp
      cases hp
  obtain ⟨hol, p, hp, hpz⟩ := hT.newest hled htaken
  have hfr := hT.linked.fresh_eq
  have hgap : ∀ n ∈ e.heap e.oldest, n.seqId = 0 → n.timeOrTimeEnd ≤ t :=
    fun n hn hz => Nat.not_lt.mp fun hlt => hlate ⟨n, hn, hz, hlt⟩
  obtain ⟨x, hx, hfound, hnone⟩ := (@findBefore_spec D e (e.latest - 1) t p e.heap (e.fresh + 1))
    hT hev (fun _ _ => rfl) hgap (by omega) (by omega) hp hpz (fun _ _ _ _ => by omega)
    (fun _ => by omega) (by omega)
  obtain ⟨habsent, hpoint⟩ := hT.accessData_found hv hs hidle htaken hx
  have hdocumented (ts : ℕ × ℕ) : Selector.matchIntervalStart.documented e.eventtype false t ts =
      (decide (ts.1 ≤ t) && decide (t < ts.2)) := by
    rw [hev]
    rfl
  have hwhen : StreamWhen e sel t ↔ _ := and_iff_right fun h => absurd h hlate
  rw [hwhen]
  cases x with
  | none =>
    have hno (q : Point D) : ¬ Matches e t q := fun hq => by
      obtain ⟨a, hoa, hold, -⟩ := (matches_iff hT hev hol hp hpz).mp hq
      exact hnone rfl a hoa hold
    rw [selects_iff_of_nothing (habsent rfl)]
    cases sel with
    | matchIntervalStart =>
      refine iff_of_true (documented_eq_none hs fun q hq => ?_) fun q hq => absurd hq (hno q)
      rw [hdocumented, Bool.and_eq_false_iff]
      by_contra hin
      rw [not_or] at hin
      exact hno q ⟨hq, by simpa using hin.1, .inl (by simpa using hin.2)⟩
    | matchIntervalStartOrEarlier =>
      have hlast : documented e .matchIntervalStartOrEarlier c t = lastBefore e t :=
        documented_timed hs
      rw [hlast]
      constructor
      · intro h q hq
        rw [h] at hq
        cases hq
      · intro h
        by_contra hne
        obtain ⟨q, hq⟩ := Option.ne_none_iff_exists'.mp hne
        exact hno q (h q hq).1
  | some a =>
    obtain ⟨hoa, hold⟩ := hfound a rfl
    obtain ⟨n, hn, hz, hal, hnt, hnext⟩ := id hold
    obtain ⟨q, hq⟩ := Option.isSome_iff_exists.mp ((pointAt_isSome hT.linked hn hal).mpr hz)
    have hmatch : Matches e t q := (matches_iff hT hev hol hp hpz).mpr ⟨a, hoa, hold, hq⟩
    have hunique (q' : Point D) (h : Matches e t q') : q' = q := by
      obtain ⟨b, -, hold', hb⟩ := (matches_iff hT hev hol hp hpz).mp h
      obtain rfl := hold.unique hT hev hold'
      exact Option.some.inj (hb.symm.trans hq)
    have hafter : ∀ q' ∈ pointsFrom e (a + 1), t < q'.1.1 := late_of_mem fun x k hx hxl hk _ => by
      rcases hnext with hlast | ⟨m, hm, hmt⟩
      · omega
      · exact hmt.trans_le (hT.ordered.time_le hT.linked hev hx hm hk)
    obtain ⟨c', haccess, hacc, hidx, hs'⟩ := hpoint a q n rfl hq hal hn
    rw [selects_iff_of_found hidle hn haccess hacc hidx hs']
    cases sel with
    | matchIntervalStart =>
      have hall : (∀ p, Matches e t p → p.2.isSome ∧ p.1 ≠ (t, t)) ↔
          q.2.isSome ∧ q.1 ≠ (t, t) :=
        ⟨fun h => h q hmatch, fun h p hp => hunique p hp ▸ h⟩
      rw [hall]
      refine and_congr_right fun _ => ?_
      obtain ⟨⟨start, stop⟩, d⟩ := q
      have hstart : start ≤ t := hmatch.2.1
      by_cases hstop : t < stop
      · have hdoc : documented e .matchIntervalStart c t = some ((start, stop), d) := by
          rw [documented_timed hs]
          refine getLast?_filter_reachable hoa hal hq ?_ fun q' hq' => ?_
          · rw [hdocumented, Bool.and_eq_true]
            exact ⟨decide_eq_true hstart, decide_eq_true hstop⟩
          · rw [hdocumented, decide_eq_false (Nat.not_le.mpr (hafter q' hq')), Bool.false_and]
        have hvalid : Selector.matchIntervalStart.validTiming false t (start, stop) = true := by
          simp only [Selector.validTiming, Bool.not_false, Bool.true_and, Bool.false_and,
            Bool.or_false, Bool.or_eq_true, Bool.and_eq_true, decide_eq_true_eq]
          exact .inl ⟨⟨by omega, hstart⟩, hstop⟩
        rw [hdoc, if_pos hvalid]
        refine iff_of_true rfl fun heq => ?_
        have := (Prod.mk.inj heq).2
        omega
      · have hdoc : documented e .matchIntervalStart c t = none :=
          documented_eq_none hs fun q' hq' => by
            rw [hdocumented, Bool.and_eq_false_iff]
            by_contra hin
            rw [not_or] at hin
            have hmatch' : Matches e t q' :=
              ⟨hq', by simpa using hin.1, .inl (by simpa using hin.2)⟩
            rw [hunique q' hmatch'] at hin
            exact hstop (by simpa using hin.2)
        have hvalid : Selector.matchIntervalStart.validTiming false t (start, stop) = true ↔
            (start, stop) = (t, t) := by
          simp only [Selector.validTiming, Bool.not_false, Bool.true_and, Bool.false_and,
            Bool.or_false, Bool.or_eq_true, Bool.and_eq_true, decide_eq_true_eq, Prod.mk.injEq]
          omega
        rw [hdoc]
        by_cases heq : (start, stop) = (t, t)
        · rw [if_pos (hvalid.mpr heq)]
          exact iff_of_false (fun h => by cases h) fun h => h heq
        · rw [if_neg (mt hvalid.mp heq)]
          exact iff_of_true rfl heq
    | matchIntervalStartOrEarlier =>
      have hlast : lastBefore e t = some q := getLast?_filter_reachable hoa hal hq
        (decide_eq_true hmatch.2.1) fun q' hq' => decide_eq_false (Nat.not_le.mpr (hafter q' hq'))
      have hdoc : documented e .matchIntervalStartOrEarlier c t = some q :=
        (documented_timed hs).trans hlast
      have hvalid : Selector.matchIntervalStartOrEarlier.validTiming false t q.1 = true :=
        decide_eq_true hmatch.2.1
      rw [hdoc, if_pos hvalid, hlast]
      constructor
      · rintro ⟨hsome, -⟩ p hp
        obtain rfl := Option.some.inj hp
        exact ⟨hmatch, hsome⟩
      · exact fun h => ⟨(h q rfl).2, rfl⟩

/-- A reader by time, on events that can be read. -/
theorem Tidy.selects_iff_events (hT : Tidy e) (hR : Traced e) (hled : Led e)
    (hev : e.eventtype = true) (hs : c.sequentialRead = false) (hidle : c.accessed = none)
    (hv : e.valid = true) (htaken : newestTaken e = false) :
    Selects e sel c t ↔ EventWhen e sel t := by
  obtain ⟨hol, p, hp, hpz⟩ := hT.newest hled htaken
  have hfr := hT.linked.fresh_eq
  have hlt := hT.linked.cleanup_lt
  rcases (@findBefore_events D e (e.latest - 1) t (e.fresh + 1)) hT hR hev (by omega) (by omega)
      (by omega) (fun _ _ _ _ => by omega) with
    ⟨a, n, hfind, hoa, hal, hn, hnt, hafter⟩ | ⟨hfind, hafter⟩
  · have hz : n.seqId ≠ 0 := hR.ungapped hev a n hn (by omega)
    obtain ⟨q, hq⟩ := Option.isSome_iff_exists.mp ((pointAt_isSome hT.linked hn hal).mpr hz)
    obtain ⟨c', haccess, hacc, hidx, hs'⟩ :=
      (hT.accessData_found hv hs hidle htaken hfind).2 a q n rfl hq hal hn
    have hpoint : q.1 = (n.timeOrTimeEnd, n.timeOrTimeEnd) := by
      obtain ⟨n', m, hn', -, -, rfl⟩ := pointAt_eq_some hq
      obtain rfl := Option.some.inj (hn.symm.trans hn')
      rw [hev]
      rfl
    have hlate : ∀ q' ∈ pointsFrom e (a + 1), t < q'.1.1 :=
      late_of_mem fun x k hx hxl hk _ => hafter x k hx hxl hk
    have hle : q.1.1 ≤ t := by
      rw [hpoint]
      exact hnt
    have hlast : lastBefore e t = some q := getLast?_filter_reachable hoa hal hq
      (decide_eq_true hle) fun q' hq' => decide_eq_false (Nat.not_le.mpr (hlate q' hq'))
    have hwhen : EventWhen e sel t ↔ q.2.isSome ∧
        (sel = .matchIntervalStart → (∃ q' ∈ reachable e, q'.1.1 = t) → q.1.1 = t) := by
      rw [EventWhen, hlast]
      exact ⟨fun h => h q rfl, fun h p hp => Option.some.inj hp ▸ h⟩
    rw [selects_iff_of_found hidle hn haccess hacc hidx hs', hwhen]
    refine and_congr_right fun _ => ?_
    cases sel with
    | matchIntervalStart =>
      have hdocumented (ts : ℕ × ℕ) :
          Selector.matchIntervalStart.documented e.eventtype false t ts = decide (ts.1 = t) := by
        rw [hev]
        rfl
      have hvalid : Selector.matchIntervalStart.validTiming false t q.1 = decide (q.1.1 = t) := by
        rw [hpoint]
        simp [Selector.validTiming]
      rw [hvalid]
      by_cases heq : q.1.1 = t
      · have hdoc : documented e .matchIntervalStart c t = some q := by
          rw [documented_timed hs]
          refine getLast?_filter_reachable hoa hal hq ?_ fun q' hq' => ?_
          · rw [hdocumented, decide_eq_true heq]
          · rw [hdocumented, decide_eq_false (hlate q' hq').ne']
        rw [hdoc, if_pos (decide_eq_true heq)]
        exact iff_of_true rfl fun _ _ => heq
      · rw [if_neg (by rw [decide_eq_false heq]; exact Bool.false_ne_true), documented_timed hs,
          List.getLast?_eq_none_iff, List.filter_eq_nil_iff]
        constructor
        · rintro h - ⟨q', hq', ht⟩
          exact absurd ((hdocumented q'.1).trans (decide_eq_true ht)) (h q' hq')
        · intro h q' hq' ht
          rw [hdocumented] at ht
          exact heq (h rfl ⟨q', hq', of_decide_eq_true ht⟩)
    | matchIntervalStartOrEarlier =>
      have hdoc : documented e .matchIntervalStartOrEarlier c t = some q :=
        (documented_timed hs).trans hlast
      have hvalid : Selector.matchIntervalStartOrEarlier.validTiming false t q.1 = true :=
        decide_eq_true hle
      rw [hdoc, if_pos hvalid]
      exact iff_of_true rfl nofun
  · have hlate : ∀ q ∈ reachable e, t < q.1.1 :=
      late_of_mem fun x k hx hxl hk _ => hafter x k hx hxl hk
    rw [selects_iff_of_nothing ((hT.accessData_found hv hs hidle htaken hfind).1 rfl), EventWhen,
      lastBefore_eq_none hlate]
    exact iff_of_true (documented_eq_none_of_late hs hlate) nofun

/-! ### Sequential readers -/

/-- Accesses that come back where they were leave the counts as they were. -/
theorem Reader.counts_eq {heap : Heap D} (hT : Tidy e) (hR : Reader e i r c)
    (hm : Moves e.heap heap [r] [r] []) (a : ℕ) :
    (heap a).map (·.readAccesses) = (e.heap a).map (·.readAccesses) := by
  cases hn : e.heap a with
  | none => rw [((hm a).1 hn).1]
  | some n =>
    obtain ⟨k, hk, hcount⟩ := (hm a).2 n hn
    have hlt : [r].count a < n.readAccesses := by
      by_cases har : r = a
      · obtain ⟨n', hn', hone⟩ := hR.exists_node hT
        rw [har] at hn'
        obtain rfl := Option.some.inj (hn.symm.trans hn')
        rw [har, List.count_singleton_self]
        exact hone
      · rw [List.count_eq_zero.mpr fun h => har (List.mem_singleton.mp h).symm]
        exact Nat.pos_of_ne_zero (hT.accounted.readAccesses_ne_zero hn)
    have hk' : k = n.readAccesses := Nat.add_right_cancel (hcount hlt)
    rw [hk, hk']
    rfl

theorem Reader.documented_eq (hR : Reader e i r c) : documented e sel c t =
    (pointsFrom e r).head?.filter fun p => sel.documented e.eventtype true t p.1 := by
  rw [documented, onOffer, if_pos hR.sequential, hR.index, hR.sequential, Option.toList_some,
    List.flatMap_singleton]
  cases pointsFrom e r with
  | nil => rfl
  | cons p points =>
    cases h : sel.documented e.eventtype true t p.1 <;> simp [h, Option.filter]

/-- A sequential reader of an entry that is valid. -/
theorem Tidy.selects_iff_sequential (hT : Tidy e) (hR : Reader e i r c) (hv : e.valid = true) :
    Selects e sel c t ↔ SequentialWhen e sel r t := by
  obtain ⟨heap, c', res, r', haccess, hT', hm, hpts, -, hidx, hres⟩ :=
    (@Tidy.accessData_eq D e i r c t) hT hR hv
  rcases hres with ⟨rfl, hR', hlate⟩ | ⟨ts, d, rfl, hH, hlt, hts, hcons⟩
  · -- there is no point, or it is too late
    have hread : (DataReader.create sel t).access e c = .ok (⟨sel, t, false, none⟩, heap, c') := by
      rw [DataReader.access, DataReader.create, if_pos rfl]
      exact bind_eq_ok.mpr ⟨_, haccess, rfl⟩
    have hdoc : documented e sel c t = none := by
      rw [hR.documented_eq, Option.filter_eq_none_iff]
      exact fun p hp h => absurd (Selector.le_of_documented h) (Nat.not_le.mpr (hlate p hp))
    have hwhen : SequentialWhen e sel r t ↔ atGap e r = false := by
      constructor
      · rintro ⟨-, h⟩
        by_contra hgap
        obtain ⟨p, hp, hle⟩ := h (eq_true_of_ne_false hgap)
        exact absurd hle (Nat.not_le.mpr (hlate p hp))
      · intro hgap
        refine ⟨fun p hp hle => absurd hle (Nat.not_le.mpr (hlate p hp)), fun h => ?_⟩
        rw [hgap] at h
        cases h
    have hstay : r' = r ↔ atGap e r = false := by
      rw [hidx]
      cases atGap e r <;> simp
    rw [hwhen, ← hstay]
    constructor
    · rintro ⟨rd, heap₁, c₁, hrd, hresult⟩
      cases hread.symm.trans hrd
      rw [hdoc] at hresult
      obtain ⟨-, heap', c'', hrel, huntouched⟩ := hresult
      cases hrel
      exact Option.some.inj (hR'.index.symm.trans (huntouched.index.trans hR.index))
    · intro heq
      rw [heq] at hm hR'
      refine ⟨_, _, _, hread, ?_⟩
      rw [hdoc]
      exact ⟨rfl, _, _, rfl, hR.counts_eq hT hm, hR'.index.trans hR.index.symm,
        hR'.idle.trans hR.idle.symm⟩
  · have hread : (DataReader.create sel t).access e c =
        .ok (⟨sel, t, false, d.map (Prod.mk ts)⟩, heap, c') := by
      rw [DataReader.access, DataReader.create, if_pos rfl]
      refine bind_eq_ok.mpr ⟨_, haccess, ?_⟩
      cases d with
      | none => rfl
      | some d =>
        have hvalid : sel.validTiming c'.sequentialRead t ts = true := by
          rw [hH.sequential]
          cases sel <;> simp [Selector.validTiming, hts]
        exact if_pos hvalid
    have hhead : (pointsFrom e r).head? = some (ts, d) := by
      rw [hcons]
      rfl
    have hwhen : SequentialWhen e sel r t ↔
        d.isSome ∧ (sel = .matchIntervalStart → e.eventtype = false → t < ts.2) := by
      rw [SequentialWhen, hhead]
      exact ⟨fun h => h.1 (ts, d) rfl hts, fun h => ⟨fun p hp _ => Option.some.inj hp ▸ h,
        fun _ => ⟨(ts, d), rfl, hts⟩⟩⟩
    rw [hwhen]
    cases d with
    | none =>
      have hwrong := (@not_selects_of_accessed D e t c c' sel heap) hR.idle hread
        (by rw [hH.accessed]; exact Option.some_ne_none r')
      exact iff_of_false hwrong fun h => absurd h.1 Bool.false_ne_true
    | some d =>
      have hdata : ((ts, some d) : Point D).2 = some d := rfl
      rw [selects_iff_of_data hdata hread, hR.documented_eq, hhead, Option.filter_some]
      cases sel <;> cases e.eventtype <;> simp [Selector.documented, hts]

/-! ### Any token -/

/-- Without a valid entry there is no result, and by time there is none when the newest point has
no data. -/
theorem Tidy.accessData_nothing_of (hT : Tidy e)
    (h : e.valid = false ∨ c.sequentialRead = false ∧ newestTaken e = true) :
    accessData e c t = .ok (e.heap, c, none) := by
  rcases h with hv | ⟨hs, htaken⟩
  · rw [accessData, hv]
    rfl
  · exact hT.accessData_nothing hs (.inr htaken)

theorem Tidy.selects_iff (hT : Tidy e) (hR : Traced e) (hled : Led e) (hc : Token e c) :
    Selects e sel c t ↔ SelectsWhen e sel c t := by
  rw [SelectsWhen]
  by_cases hnothing : e.valid = false ∨ c.sequentialRead = false ∧ newestTaken e = true
  · rw [if_pos hnothing]
    exact selects_iff_of_nothing (hT.accessData_nothing_of hnothing)
  rw [if_neg hnothing]
  rw [not_or, not_and] at hnothing
  have hv : e.valid = true := eq_true_of_ne_false hnothing.1
  cases hs : c.sequentialRead with
  | true =>
    obtain ⟨i, r, hreader⟩ := hc.2 hs
    rw [if_pos rfl, hT.selects_iff_sequential hreader hv, hreader.index]
    exact ⟨fun h r' hr' => Option.some.inj hr' ▸ h, fun h => h r rfl⟩
  | false =>
    have htaken : newestTaken e = false := eq_false_of_ne_true (hnothing.2 hs)
    rw [if_neg Bool.false_ne_true]
    cases hev : e.eventtype with
    | true => exact hT.selects_iff_events hR hled hev hs hc.1 hv htaken
    | false => exact hT.selects_iff_stream hR hled hev hs hc.1 hv htaken

/-- In each state after a run of careful operations, with fewer than `2 ^ 32 - 1` writes, a reader
gives the documented point in these cases and in no other. -/
theorem selects_iff_of_run {writer eventtype fullpackmode : Bool} {nreservations : ℕ}
    {ops : List (Op D)} (hcare : Allowed (advance conv) Careful
      (UChannelEntry.create writer eventtype fullpackmode nreservations) ops)
    (hw : writes ops < 4294967295) (hrun : exec (advance conv)
      (UChannelEntry.create writer eventtype fullpackmode nreservations) ops = .ok e)
    (hc : Token e c) (sel : Selector) (t : ℕ) : Selects e sel c t ↔ SelectsWhen e sel c t := by
  have hid := lastId_create (D := D) writer eventtype fullpackmode nreservations
  have hS : Sound (UChannelEntry.create writer eventtype fullpackmode nreservations :
    UChannelEntry D) := sound_create ..
  exact (tidy_of_run hcare hw hrun).selects_iff
    (traced_of_run hS (by omega) hrun (traced_create ..)) (led_of_run hS (by omega) hrun (.inr rfl))
    hc

/-- A stream with a gap. -/
def streamWithGap : List (Op ℕ) :=
  [.setValid 1, .link false 0 0, .newData 5 (.of 0 10 zero_ten) true,
    .newData 6 (.of 20 30 twenty_thirty) true]

theorem selects_iff_streamWithGap :
    ∃ e, exec (advance (.verbatim ℕ)) (UChannelEntry.create true false false 0)
      streamWithGap = .ok e ∧ (Selects e .matchIntervalStart timedReader 25 ↔
        SelectsWhen e .matchIntervalStart timedReader 25) := by
  obtain ⟨e, he, -⟩ := exists_of_endsIn (advance (.verbatim ℕ))
    (UChannelEntry.create true false false 0) streamWithGap (fun _ => true) (by decide +kernel)
  have hcare : Allowed (advance (.verbatim ℕ)) Careful (UChannelEntry.create true false false 0)
      streamWithGap :=
    (@allowed_of_checks _ _ _ _ _ _ _ (fun e op => decide (Careful e op)))
      (fun _ _ h => of_decide_eq_true h) (by decide +kernel)
  exact ⟨e, he, selects_iff_of_run hcare (by decide) he
    ⟨rfl, fun hs => absurd hs Bool.false_ne_true⟩ _ _⟩

/-- For a tick in the gap, the point before it is not found. -/
theorem not_selects_streamWithGap :
    ∃ e, exec (advance (.verbatim ℕ)) (UChannelEntry.create true false false 0)
        streamWithGap = .ok e ∧ Token e timedReader ∧
      documented e .matchIntervalStartOrEarlier timedReader 15 = some ((0, 10), some 5) ∧
      ¬ Selects e .matchIntervalStartOrEarlier timedReader 15 := by
  obtain ⟨e, he, htest⟩ := exists_of_endsIn (advance (.verbatim ℕ))
    (UChannelEntry.create true false false 0) streamWithGap
    (fun e => documented e .matchIntervalStartOrEarlier timedReader 15 = some ((0, 10), some 5) &&
      ((DataReader.create .matchIntervalStartOrEarlier 15).access e timedReader).toOption.map
        (·.1.data) = some none) (by decide +kernel)
  rw [Bool.and_eq_true, decide_eq_true_eq, decide_eq_true_eq] at htest
  obtain ⟨hdoc, hnone⟩ := htest
  refine ⟨e, he, ⟨rfl, fun hs => absurd hs Bool.false_ne_true⟩, hdoc, ?_⟩
  rintro ⟨rd, heap, c', hrd, hres⟩
  rw [hdoc] at hres
  obtain ⟨d, -, hd⟩ := hres
  rw [hrd] at hnone
  have hdata : rd.data = none := Option.some.inj hnone
  cases hdata.symm.trans hd

end Dueca.Entry
