import Dueca.Entry.Tidy

/-!
# Skipping unread points

A sequential reader may skip all of its unread points, one of them, all but the last, or those of
before a tick. The number skipped is a difference of sequence ids. Skipping all points but the
last goes back when there is none, and skipping those of before a tick counts from the id 0 when
the reader stands at a gap.
-/

namespace Dueca.Entry

open Dueca.Lib UChannelEntryData

variable {D B : Type} {e : UChannelEntry D} {conv : DataSetConverter D B}
variable {i r a b t : ℕ} {c : Client} {n m : UChannelEntryData D}

/-! ### Where the reader goes -/

theorem switchAccess_ok {h : Heap D} (ha : h a = some n) (hb : h b = some m) :
    ∃ h', switchAccess h c a b = .ok (h', { c with readIndex := some b }) := by
  have hinc : incrementReadAccess h b = .ok (store h b m.increment) :=
    modifyAt_eq_ok.mpr ⟨m, hb, rfl⟩
  obtain ⟨k, hk⟩ : ∃ k, store h b m.increment a = some k := by
    rw [store_apply]
    split
    · exact ⟨_, rfl⟩
    · exact ⟨n, ha⟩
  have hdec : releaseReadAccess (store h b m.increment) a =
      .ok (store (store h b m.increment) a k.decrement) := modifyAt_eq_ok.mpr ⟨k, hk, rfl⟩
  exact ⟨_, bind_eq_ok.mpr ⟨_, hinc, bind_eq_ok.mpr ⟨_, hdec, rfl⟩⟩⟩

/-- A reader that has stepped from `r` to `a` goes on to `b`. -/
theorem switchAccess_goes {heap : Heap D} (hm : Moves e.heap heap [r] [a] [])
    (hn : e.heap a = some n) (hb : e.heap b = some m) :
    ∃ heap', switchAccess heap c a b = .ok (heap', { c with readIndex := some b }) ∧
      Moves e.heap heap' [r] [b] [] := by
  obtain ⟨_, hn'⟩ := hm.node hn
  obtain ⟨_, hb'⟩ := hm.node hb
  obtain ⟨heap', hsw⟩ := switchAccess_ok (c := c) hn' hb'
  exact ⟨heap', hsw, hm.trans (switchAccess_moves hsw).1⟩

/-- The node before the sentinel. -/
theorem Tidy.exists_newest (hT : Tidy e) : ∃ l p, e.heap e.latest = some l ∧
    l.older = some (e.latest - 1) ∧ e.heap (e.latest - 1) = some p := by
  have hlt := hT.linked.cleanup_lt
  have hle := hT.linked.oldest_le
  obtain ⟨l, hl⟩ := hT.linked.exists_latest
  obtain ⟨p, hp⟩ := hT.linked.exists_node (a := e.latest - 1) (by omega) (by omega)
  exact ⟨l, p, hl, hT.linked.older_eq e.latest l hl (by omega), hp⟩

/-- Skipping all points goes to the sentinel. -/
theorem Tidy.flushAll_eq (hT : Tidy e) (hR : Reader e i r c) (hne : r ≠ e.latest) :
    ∃ heap a n p, Moves e.heap heap [r] [e.latest] [] ∧ r ≤ a ∧ e.heap a = some n ∧
      n.seqId ≠ 0 ∧ pointsFrom e a = pointsFrom e r ∧ e.heap (e.latest - 1) = some p ∧
      flushAll e c = .ok (heap, { c with readIndex := some e.latest },
        (idDifference p.seqId n.seqId + 1) % 4294967296) := by
  obtain ⟨n₀, hn₀, -⟩ := hR.exists_node hT
  obtain ⟨heap, a, n, hskip, hm, ha, hz, hpts, hle, -⟩ := hT.skipGap hn₀
  obtain ⟨l, p, hl, holder, hp⟩ := hT.exists_newest
  obtain ⟨_, ha'⟩ := hm.node ha
  obtain ⟨_, hl'⟩ := hm.node hl
  obtain ⟨_, hp'⟩ := hm.node hp
  obtain ⟨heap', hsw, hgoes⟩ := switchAccess_goes (c := c) hm ha hl
  refine ⟨heap', a, n, p, hgoes, hle, ha, hz, hpts, hp, ?_⟩
  rw [flushAll]
  refine bind_eq_ok.mpr ⟨(), require_eq_ok.mpr hR.sequential, bind_eq_ok.mpr ⟨r,
    follow_eq_ok.mpr hR.index, ?_⟩⟩
  rw [if_neg hne]
  exact bind_eq_ok.mpr ⟨_, hskip, bind_eq_ok.mpr ⟨_, deref_eq_ok.mpr ha',
    bind_eq_ok.mpr ⟨_, deref_eq_ok.mpr hl', bind_eq_ok.mpr ⟨_, follow_eq_ok.mpr holder,
      bind_eq_ok.mpr ⟨_, deref_eq_ok.mpr hp', bind_eq_ok.mpr ⟨_, hsw, rfl⟩⟩⟩⟩⟩⟩

theorem flushAll_latest (hR : Reader e i e.latest c) : flushAll e c = .ok (e.heap, c, 0) := by
  simp only [flushAll, hR.sequential, hR.index, follow, require, bind, Except.bind, if_true]
  rfl

/-- Skipping a point goes to the node behind it. There must be one. -/
theorem Tidy.flushOne_eq (hT : Tidy e) (hR : Reader e i r c) (hne : r ≠ e.latest) :
    ∃ a n, e.heap a = some n ∧ n.seqId ≠ 0 ∧ pointsFrom e a = pointsFrom e r ∧
      (a = r ∨ ∃ n₀, e.heap r = some n₀ ∧ n₀.seqId = 0 ∧ a = r + 1) ∧
      (a < e.latest → ∃ heap, Moves e.heap heap [r] [a + 1] [] ∧
        flushOne e c = .ok (heap, { c with readIndex := some (a + 1) }, 1)) ∧
      (a = e.latest → flushOne e c = .error .nullPointer) := by
  obtain ⟨n₀, hn₀, -⟩ := hR.exists_node hT
  obtain ⟨heap₁, a, n, hskip, hm, ha, hz, hpts, -, hcase⟩ := hT.skipGap hn₀
  obtain ⟨k, ha'⟩ := hm.node ha
  have hflush : flushOne e c = follow n.newer >>= fun b =>
      switchAccess heap₁ c a b >>= fun x => pure (x.1, x.2, 1) := by
    rw [flushOne]
    simp only [require, hR.sequential, hR.index, follow, bind, Except.bind, if_true, if_neg hne,
      hskip, deref_eq_ok.mpr ha']
  refine ⟨a, n, ha, hz, hpts, hcase.imp And.right fun h => ⟨n₀, hn₀, h⟩, fun hlt => ?_,
    fun heq => ?_⟩
  · obtain ⟨m, hm'⟩ := hT.linked.exists_node (a := a + 1)
      (by have := (hT.linked.mem_range ha).1; omega) hlt
    obtain ⟨heap, hsw, hgoes⟩ := switchAccess_goes (c := c) hm ha hm'
    refine ⟨heap, hgoes, ?_⟩
    rw [hflush, hT.linked.newer_of_lt ha hlt]
    exact bind_eq_ok.mpr ⟨_, rfl, bind_eq_ok.mpr ⟨_, hsw, rfl⟩⟩
  · rw [hflush, hT.linked.newer_eq a n ha, if_pos heq]
    rfl

theorem flushOne_latest (hR : Reader e i e.latest c) : flushOne e c = .ok (e.heap, c, 0) := by
  simp only [flushOne, hR.sequential, hR.index, follow, require, bind, Except.bind, if_true]
  rfl

/-- Skipping all points but the last goes to the node before the sentinel, also from the
sentinel. -/
theorem Tidy.spinToLast_eq (hT : Tidy e) (hR : Reader e i r c) (hne : r ≠ e.latest - 1) :
    ∃ heap a n p, Moves e.heap heap [r] [e.latest - 1] [] ∧ r ≤ a ∧ e.heap a = some n ∧
      n.seqId ≠ 0 ∧ pointsFrom e a = pointsFrom e r ∧ e.heap (e.latest - 1) = some p ∧
      spinToLast e c = .ok (heap, { c with readIndex := some (e.latest - 1) },
        idDifference p.seqId n.seqId) := by
  obtain ⟨n₀, hn₀, -⟩ := hR.exists_node hT
  obtain ⟨heap, a, n, hskip, hm, ha, hz, hpts, hle, -⟩ := hT.skipGap hn₀
  obtain ⟨l, p, hl, holder, hp⟩ := hT.exists_newest
  obtain ⟨_, ha'⟩ := hm.node ha
  obtain ⟨_, hp'⟩ := hm.node hp
  obtain ⟨heap', hsw, hgoes⟩ := switchAccess_goes (c := c) hm ha hp
  refine ⟨heap', a, n, p, hgoes, hle, ha, hz, hpts, hp, ?_⟩
  rw [spinToLast]
  refine bind_eq_ok.mpr ⟨(), require_eq_ok.mpr hR.sequential, bind_eq_ok.mpr ⟨r,
    follow_eq_ok.mpr hR.index, bind_eq_ok.mpr ⟨l, deref_eq_ok.mpr hl, ?_⟩⟩⟩
  simp only [holder]
  rw [if_neg hne]
  exact bind_eq_ok.mpr ⟨_, hskip, bind_eq_ok.mpr ⟨_, deref_eq_ok.mpr ha',
    bind_eq_ok.mpr ⟨_, deref_eq_ok.mpr hp', bind_eq_ok.mpr ⟨_, hsw, rfl⟩⟩⟩⟩

theorem Tidy.spinToLast_newest (hT : Tidy e) (hR : Reader e i (e.latest - 1) c) :
    spinToLast e c = .ok (e.heap, c, 0) := by
  obtain ⟨l, p, hl, holder, -⟩ := hT.exists_newest
  rw [spinToLast]
  refine bind_eq_ok.mpr ⟨(), require_eq_ok.mpr hR.sequential, bind_eq_ok.mpr ⟨_,
    follow_eq_ok.mpr hR.index, bind_eq_ok.mpr ⟨l, deref_eq_ok.mpr hl, ?_⟩⟩⟩
  simp only [holder, if_true]
  rfl

/-- The test with which a reader goes back: the node does not come before the tick. -/
def comesLate (e : UChannelEntry D) (t : ℕ) (n : UChannelEntryData D) : Bool :=
  if e.eventtype then n.onOrAfterTick t else n.afterTick t

theorem Tidy.spinToLastBefore_taken (hT : Tidy e) (hR : Reader e i r c)
    (hm : e.heap (e.latest - 1) = some m) (hd : m.data = none) :
    spinToLastBefore e c t = .ok (e.heap, c, 0) := by
  obtain ⟨l, p, hl, holder, hp⟩ := hT.exists_newest
  obtain rfl := Option.some.inj (hp.symm.trans hm)
  rw [spinToLastBefore]
  refine bind_eq_ok.mpr ⟨(), require_eq_ok.mpr hR.sequential, bind_eq_ok.mpr ⟨r,
    follow_eq_ok.mpr hR.index, bind_eq_ok.mpr ⟨l, deref_eq_ok.mpr hl, bind_eq_ok.mpr ⟨_,
      follow_eq_ok.mpr holder, bind_eq_ok.mpr ⟨p, deref_eq_ok.mpr hp, ?_⟩⟩⟩⟩⟩
  rw [hd, if_pos Option.isNone_none]
  rfl

/-- Skipping the points of before a tick goes to the last node `b` that comes before the tick, or
behind it when that is a gap. -/
theorem Tidy.spinToLastBefore_eq (hT : Tidy e) (hR : Reader e i r c) (hlt : r < e.latest)
    (hm : e.heap (e.latest - 1) = some m) (hd : m.data ≠ none) :
    ∃ b nb s ns, r ≤ b ∧ b < e.latest ∧ e.heap b = some nb ∧
      (∀ x k, b < x → x < e.latest → e.heap x = some k → comesLate e t k = true) ∧
      (b ≠ r → comesLate e t nb = false) ∧
      (nb.seqId ≠ 0 ∧ s = b ∨ nb.seqId = 0 ∧ s = b + 1) ∧ e.heap s = some ns ∧ ns.seqId ≠ 0 ∧
      pointsFrom e s = pointsFrom e b ∧
      (s = r → spinToLastBefore e c t = .ok (e.heap, c, 0)) ∧
      (s ≠ r → ∀ n, e.heap r = some n → ∃ heap, Moves e.heap heap [r] [s] [] ∧
        spinToLastBefore e c t =
          .ok (heap, { c with readIndex := some s }, idDifference ns.seqId n.seqId)) := by
  obtain ⟨l, p, hl, holder, hp⟩ := hT.exists_newest
  obtain rfl := Option.some.inj (hp.symm.trans hm)
  have hfr := hT.linked.fresh_eq
  obtain ⟨b, hb, h₁, h₂, hlate, hat⟩ := (@spinBack_spec D e (e.latest - 1) (comesLate e t) r
    (e.fresh + 1)) hT.linked (hR.range hT).1 (by omega) (by omega) (by omega)
  obtain ⟨nb, hnb⟩ := hT.linked.exists_node (a := b)
    (by have := (hR.range hT).1; omega) (by omega)
  -- a gap is followed by a point
  obtain ⟨s, ns, hs, hns, hnsz, hpts, hcase⟩ : ∃ s ns, afterGap e.heap b = .ok s ∧
      e.heap s = some ns ∧ ns.seqId ≠ 0 ∧ pointsFrom e s = pointsFrom e b ∧
      (nb.seqId ≠ 0 ∧ s = b ∨ nb.seqId = 0 ∧ s = b + 1) := by
    by_cases hz : nb.seqId = 0
    · obtain ⟨hblt, hpts, k, hk, hkz⟩ := hT.behind_gap hnb hz
      refine ⟨b + 1, k, ?_, hk, hkz, hpts.symm, .inr ⟨hz, rfl⟩⟩
      rw [afterGap]
      refine bind_eq_ok.mpr ⟨nb, deref_eq_ok.mpr hnb, ?_⟩
      rw [if_pos hz]
      exact follow_eq_ok.mpr (hT.linked.newer_of_lt hnb hblt)
    · refine ⟨b, nb, ?_, hnb, hz, rfl, .inl ⟨hz, rfl⟩⟩
      rw [afterGap]
      refine bind_eq_ok.mpr ⟨nb, deref_eq_ok.mpr hnb, ?_⟩
      rw [if_neg hz]
      rfl
  have hspin : spinToLastBefore e c t = (if s = r then pure (e.heap, c, 0) else do
      let m ← deref e.heap s
      let o ← deref e.heap r
      let x ← switchAccess e.heap c r s
      pure (x.1, x.2, idDifference m.seqId o.seqId)) := by
    have hb : spinBack e.heap (fun n => if e.eventtype then n.onOrAfterTick t else n.afterTick t)
        r (e.fresh + 1) (e.latest - 1) = .ok b := hb
    rw [spinToLastBefore, hR.sequential, hR.index]
    simp only [follow, require, bind, Except.bind, if_true, deref_eq_ok.mpr hl, holder,
      deref_eq_ok.mpr hp, hb, hs]
    rw [if_neg (by simpa using hd)]
  refine ⟨b, nb, s, ns, h₁, by omega, hnb, fun x k hx hxl hk => hlate x k hx (by omega) hk,
    fun hne => hat hne nb hnb, hcase, hns, hnsz, hpts, fun heq => ?_, fun hne n hn => ?_⟩
  · rw [hspin, if_pos heq]
    rfl
  · obtain ⟨heap, hsw, hgoes⟩ := switchAccess_goes (c := c) (Moves.refl e.heap [r]) hn hns
    refine ⟨heap, hgoes, ?_⟩
    rw [hspin, if_neg hne]
    exact bind_eq_ok.mpr ⟨ns, deref_eq_ok.mpr hns, bind_eq_ok.mpr ⟨n, deref_eq_ok.mpr hn,
      bind_eq_ok.mpr ⟨_, hsw, rfl⟩⟩⟩

/-! ### What skipping should do -/

/-- The reader skips the first `k` of its unread points, and tells their number. -/
def Flushed (e : UChannelEntry D) (i r k : ℕ) (res : Except Fault (Heap D × Client × ℕ)) : Prop :=
  ∃ heap c' r', res = .ok (heap, c', k) ∧ c'.readIndex = some r' ∧
    pointsFrom (e.reread i heap c') r' = (pointsFrom e r).drop k

/-- Each operation skips the right points: all, one, all but the last, and only points that are not
newer than the tick. -/
structure FlushesRight (e : UChannelEntry D) (i r : ℕ) (c : Client) (t : ℕ) : Prop where
  all : Flushed e i r (pointsFrom e r).length (flushAll e c)
  one : Flushed e i r (min (pointsFrom e r).length 1) (flushOne e c)
  last : Flushed e i r ((pointsFrom e r).length - min (pointsFrom e r).length 1) (spinToLast e c)
  before : ∃ k ≤ (pointsFrom e r).length, Flushed e i r k (spinToLastBefore e c t) ∧
    ∀ p ∈ (pointsFrom e r).take k, p.1.1 ≤ t

/-- The data of the newest point was taken, or there is no point yet. -/
def newestTaken (e : UChannelEntry D) : Bool := (e.heap (e.latest - 1)).any (·.data.isNone)

/-- No unread point that is newer than the tick comes before a node that is not late. On a stream
there is no such point. -/
def InTurn (e : UChannelEntry D) (r t : ℕ) : Prop :=
  ∀ a b n m, r ≤ a → a < b → b < e.latest → e.heap a = some n → n.seqId ≠ 0 →
    e.heap b = some m → comesLate e t m = false → n.timeOrTimeEnd ≤ t

/-- A point is unread; and the data of the newest point was taken, or the reader does not stand at
a gap, and the unread points are in turn. -/
def FlushesWhen (e : UChannelEntry D) (r t : ℕ) : Prop :=
  pointsFrom e r ≠ [] ∧ (newestTaken e = true ∨ atGap e r = false ∧ InTurn e r t)

theorem flushed_goes {heap : Heap D} {s k k' : ℕ} (hm : Moves e.heap heap [r] [s] []) :
    Flushed e i r k (.ok (heap, { c with readIndex := some s }, k')) ↔
      k' = k ∧ pointsFrom e s = (pointsFrom e r).drop k := by
  constructor
  · rintro ⟨_, _, r', hok, hr', hpts⟩
    cases hok
    cases hr'
    exact ⟨rfl, (reread_pointsFrom hm).symm.trans hpts⟩
  · rintro ⟨rfl, hpts⟩
    exact ⟨heap, _, s, rfl, rfl, (reread_pointsFrom hm).trans hpts⟩

theorem flushed_stays (hR : Reader e i r c) : Flushed e i r 0 (.ok (e.heap, c, 0)) :=
  ⟨e.heap, c, r, rfl, hR.index, reread_pointsFrom (Moves.refl e.heap [])⟩

/-- When a point is unread, the node before the sentinel is one. -/
theorem Tidy.newest_of_unread (hT : Tidy e) (hn : e.heap a = some n) (hun : pointsFrom e a ≠ []) :
    a < e.latest ∧ ∃ p, e.heap (e.latest - 1) = some p ∧ p.seqId ≠ 0 ∧
      (pointsFrom e (e.latest - 1)).length = 1 := by
  have hlt : a < e.latest := by
    rcases (hT.linked.mem_range hn).2.lt_or_eq with h | rfl
    · exact h
    · exact absurd pointsFrom_latest hun
  obtain ⟨l, p, -, -, hp⟩ := hT.exists_newest
  have hone : 1 < e.latest := by
    by_contra hone
    obtain rfl : a = 0 := by omega
    obtain ⟨-, hpts, -⟩ := hT.behind_gap hn (hT.seqId_zero hn)
    rw [hpts, show 0 + 1 = e.latest by omega] at hun
    exact hun pointsFrom_latest
  have hpz := hT.last_point hp hone
  obtain ⟨ts, -, -, hcons⟩ := hT.pointsFrom_cons hp (by omega) hpz
  rw [Nat.sub_add_cancel hone.le, pointsFrom_latest] at hcons
  exact ⟨hlt, p, hp, hpz, congrArg List.length hcons⟩

/-- Skipping all points, or one, or all but the last, does what it should when one is unread. -/
theorem Tidy.flushed_of_unread (hT : Tidy e) (hR : Reader e i r c) (hun : pointsFrom e r ≠ []) :
    Flushed e i r (pointsFrom e r).length (flushAll e c) ∧
      Flushed e i r (min (pointsFrom e r).length 1) (flushOne e c) ∧
      Flushed e i r ((pointsFrom e r).length - min (pointsFrom e r).length 1)
        (spinToLast e c) := by
  obtain ⟨n₀, hn₀, -⟩ := hR.exists_node hT
  obtain ⟨hlt, p, hp, hpz, hone⟩ := hT.newest_of_unread hn₀ hun
  have hpos := List.length_pos_of_ne_nil hun
  refine ⟨?_, ?_, ?_⟩
  · obtain ⟨heap, a, n, p', hm, -, ha, hz, hpts, hp', hflush⟩ := hT.flushAll_eq hR hlt.ne
    obtain rfl := Option.some.inj (hp.symm.trans hp')
    have hla := (hT.newest_of_unread ha (hpts ▸ hun)).1
    obtain ⟨hdiff, hsmall⟩ := hT.idDifference_eq (by omega : a ≤ e.latest - 1) ha hz hp hpz
    rw [hpts] at hdiff hsmall
    rw [hflush, flushed_goes hm, pointsFrom_latest, List.drop_length]
    exact ⟨by omega, rfl⟩
  · obtain ⟨a, n, ha, hz, hpts, -, hgo, -⟩ := hT.flushOne_eq hR hlt.ne
    have hla := (hT.newest_of_unread ha (hpts ▸ hun)).1
    obtain ⟨heap, hm, hflush⟩ := hgo hla
    obtain ⟨ts, -, -, hcons⟩ := hT.pointsFrom_cons ha hla hz
    rw [hflush, Nat.min_eq_right hpos, flushed_goes hm, ← hpts, hcons]
    exact ⟨rfl, rfl⟩
  · rw [Nat.min_eq_right hpos]
    by_cases hend : r = e.latest - 1
    · subst hend
      rw [hT.spinToLast_newest hR, hone]
      exact flushed_stays hR
    · obtain ⟨heap, a, n, p', hm, hle, ha, hz, hpts, hp', hspin⟩ := hT.spinToLast_eq hR hend
      obtain rfl := Option.some.inj (hp.symm.trans hp')
      have hla := (hT.newest_of_unread ha (hpts ▸ hun)).1
      obtain ⟨hdiff, -⟩ := hT.idDifference_eq (by omega : a ≤ e.latest - 1) ha hz hp hpz
      have hdrop := hT.pointsFrom_drop (by omega : a ≤ e.latest - 1) ha hz hp hpz
      rw [hpts] at hdiff hdrop
      have hk : idDifference p.seqId n.seqId = (pointsFrom e r).length - 1 := by omega
      rw [hspin, flushed_goes hm, ← hk]
      exact ⟨rfl, hdrop⟩

/-- When no point is unread, a reader at the sentinel goes back, and one before it is lost. -/
theorem Tidy.unread_of_flushesRight (hT : Tidy e) (hR : Reader e i r c)
    (hF : FlushesRight e i r c t) : pointsFrom e r ≠ [] := by
  intro hnil
  obtain ⟨l, p, hl, -, hp⟩ := hT.exists_newest
  have hlt := hT.linked.cleanup_lt
  have hle := hT.linked.oldest_le
  rcases (hR.range hT).2.lt_or_eq with h | rfl
  · obtain ⟨a, n, ha, hz, hpts, -, -, hlost⟩ := hT.flushOne_eq hR h.ne
    have hla : a = e.latest := by
      by_contra hne
      have := (hT.linked.mem_range ha).2
      obtain ⟨ts, -, -, hcons⟩ := hT.pointsFrom_cons ha (by omega) hz
      rw [hpts, hnil] at hcons
      cases hcons
    obtain ⟨_, _, _, hok, -⟩ := hF.one
    rw [hlost hla] at hok
    cases hok
  · obtain ⟨heap, a, n, p', hm, hla, ha, hz, -, hp', hspin⟩ :=
      hT.spinToLast_eq hR (by omega)
    obtain rfl := Option.some.inj (hp.symm.trans hp')
    obtain rfl : a = e.latest := le_antisymm (hT.linked.mem_range ha).2 hla
    have hsmall := (hT.ordered.last n ha).2.2
    have hlast := hF.last
    rw [hspin, flushed_goes hm, pointsFrom_latest] at hlast
    -- the ids of the two differ by one
    have hid : p.seqId + 1 = n.seqId := by
      by_cases hpz : p.seqId = 0
      · have hone : ¬ 1 < e.latest := fun hone => hT.last_point hp hone hpz
        have := (hT.ordered.first e.latest n ha).mpr (by omega)
        omega
      · have := hT.ordered.seq_succ (e.latest - 1) p n hp
          (by rwa [Nat.sub_add_cancel (by omega)]) hpz hz
        omega
    have hzero : idDifference p.seqId n.seqId = 0 := hlast.1
    rw [idDifference] at hzero
    omega

/-! ### Skipping the points of before a tick -/

/-- The points that the difference of two ids skips are those of the nodes between. -/
theorem Tidy.take_ids (hT : Tidy e) (hab : a ≤ b) (hn : e.heap a = some n) (hz : n.seqId ≠ 0)
    (hm : e.heap b = some m) (hmz : m.seqId ≠ 0) :
    (pointsFrom e a).take (idDifference m.seqId n.seqId) =
      (List.range' a (b - a)).filterMap (pointAt e) := by
  have hlen := (hT.idDifference_eq hab hn hz hm hmz).1
  have hsplit := @pointsFrom_split D e a b hab (hT.linked.mem_range hm).2
  have hlen' := congrArg List.length hsplit
  rw [List.length_append] at hlen'
  rw [hsplit]
  exact List.take_left' (by omega)

/-- Counting from a gap, with its id 0, gives too many. -/
theorem Tidy.not_flushed_from_gap {heap : Heap D} {s k : ℕ} {ns : UChannelEntryData D}
    (hT : Tidy e) (hn : e.heap r = some n) (hz : n.seqId = 0) (hs : e.heap s = some ns)
    (hsz : ns.seqId ≠ 0) (hk : k ≤ (pointsFrom e r).length)
    (hm : Moves e.heap heap [r] [s] []) :
    ¬ Flushed e i r k
      (.ok (heap, { c with readIndex := some s }, idDifference ns.seqId n.seqId)) := by
  rw [flushed_goes hm]
  rintro ⟨hid, hpts⟩
  obtain ⟨l, hl⟩ := hT.linked.exists_latest
  have hsmall := (hT.ordered.last l hl).2.2
  obtain ⟨-, hbehind, m, hm', hmz⟩ := hT.behind_gap hn hz
  have h₁ := hT.seqId_add hl hs hsz
  have h₂ := hT.seqId_add hl hm' hmz
  have hlen := congrArg List.length hpts
  rw [List.length_drop] at hlen
  rw [← hbehind] at h₂
  rw [hz, idDifference] at hid
  omega

/-- Skipping the points of before a tick, when a point is unread. -/
theorem Tidy.flushedBefore_iff (hT : Tidy e) (hR : Reader e i r c) (hun : pointsFrom e r ≠ []) :
    (∃ k ≤ (pointsFrom e r).length, Flushed e i r k (spinToLastBefore e c t) ∧
        ∀ p ∈ (pointsFrom e r).take k, p.1.1 ≤ t) ↔
      newestTaken e = true ∨ atGap e r = false ∧ InTurn e r t := by
  obtain ⟨n, hn, -⟩ := hR.exists_node hT
  obtain ⟨hlt, p, hp, -, -⟩ := hT.newest_of_unread hn hun
  have hstays {res} (h : res = .ok (e.heap, c, 0)) : ∃ k ≤ (pointsFrom e r).length,
      Flushed e i r k res ∧ ∀ p ∈ (pointsFrom e r).take k, p.1.1 ≤ t :=
    ⟨0, Nat.zero_le _, h ▸ flushed_stays hR, nofun⟩
  have htaken : newestTaken e = true ↔ p.data = none := by simp [newestTaken, hp]
  rw [htaken]
  by_cases hd : p.data = none
  · exact ⟨fun _ => .inl hd, fun _ => hstays (hT.spinToLastBefore_taken hR hp hd)⟩
  have hgap : atGap e r = false ↔ n.seqId ≠ 0 := by simp [atGap, hn]
  obtain ⟨b, nb, s, ns, hrb, hb, hnb, hlate, hat, hcase, hs, hsz, -, hstay, hgo⟩ :=
    (@Tidy.spinToLastBefore_eq D e i r t c p) hT hR hlt hp hd
  have hbs : b ≤ s ∧ s ≤ b + 1 := by rcases hcase with ⟨-, rfl⟩ | ⟨-, rfl⟩ <;> omega
  rw [hgap, or_iff_right hd]
  constructor
  · rintro ⟨k, hk, hflush, hkept⟩
    have hz : n.seqId ≠ 0 := fun hz => by
      have hne : s ≠ r := fun h => hsz (by
        subst h
        rwa [← Option.some.inj (hn.symm.trans hs)])
      obtain ⟨heap, hm, hspin⟩ := hgo hne n hn
      rw [hspin] at hflush
      exact hT.not_flushed_from_gap hn hz hs hsz hk hm hflush
    refine ⟨hz, fun a b' na m hra hab hbl hna hnaz hm' hnot => ?_⟩
    -- the node that is not late is not behind `b`
    have hbb : b' ≤ b := by
      by_contra h
      rw [hlate b' m (by omega) hbl hm'] at hnot
      cases hnot
    obtain ⟨heap, hm, hspin⟩ := hgo (by omega) n hn
    rw [hspin, flushed_goes hm] at hflush
    rw [← hflush.1, hT.take_ids (by omega) hn hz hs hsz] at hkept
    obtain ⟨q, hq⟩ := Option.isSome_iff_exists.mp
      ((pointAt_isSome hT.linked hna (by omega)).mpr hnaz)
    obtain ⟨_, _, hna', -, -, rfl⟩ := pointAt_eq_some hq
    obtain rfl := Option.some.inj (hna.symm.trans hna')
    exact hkept _ (List.mem_filterMap.mpr ⟨a, by rw [List.mem_range'_1]; omega, hq⟩)
  · rintro ⟨hz, hturn⟩
    by_cases hend : s = r
    · exact hstays (hstay hend)
    · obtain ⟨heap, hm, hspin⟩ := hgo hend n hn
      have hdiff := (hT.idDifference_eq (by omega : r ≤ s) hn hz hs hsz).1
      refine ⟨idDifference ns.seqId n.seqId, by omega, ?_, fun q hq => ?_⟩
      · rw [hspin, flushed_goes hm]
        exact ⟨rfl, hT.pointsFrom_drop (by omega) hn hz hs hsz⟩
      · rw [hT.take_ids (by omega) hn hz hs hsz] at hq
        obtain ⟨a, ha, hq⟩ := List.mem_filterMap.mp hq
        rw [List.mem_range'_1] at ha
        obtain ⟨na, _, hna, -, hnaz, rfl⟩ := pointAt_eq_some hq
        have hab : a < b := by
          rcases hcase with ⟨-, rfl⟩ | ⟨hbz, rfl⟩
          · omega
          · have hne : a ≠ b := fun h => hnaz (by
              subst h
              rwa [← Option.some.inj (hnb.symm.trans hna)])
            omega
        exact hturn a b na nb ha.1 hab hb hna hnaz hnb (hat (by omega))

theorem Tidy.flushesRight_iff (hT : Tidy e) (hR : Reader e i r c) :
    FlushesRight e i r c t ↔ FlushesWhen e r t := by
  constructor
  · intro hF
    have hun := hT.unread_of_flushesRight hR hF
    exact ⟨hun, (hT.flushedBefore_iff hR hun).mp hF.before⟩
  · rintro ⟨hun, hwhen⟩
    obtain ⟨hall, hone, hlast⟩ := hT.flushed_of_unread hR hun
    exact ⟨hall, hone, hlast, (hT.flushedBefore_iff hR hun).mpr hwhen⟩

/-- In each state after a run of careful operations, with fewer than `2 ^ 32 - 1` writes, a reader
skips the right points in these cases and in no other. -/
theorem flushesRight_iff_of_run {writer eventtype fullpackmode : Bool} {nreservations : ℕ}
    {ops : List (Op D)} (hcare : Allowed (advance conv) Careful
      (UChannelEntry.create writer eventtype fullpackmode nreservations) ops)
    (hw : writes ops < 4294967295) (hrun : exec (advance conv)
      (UChannelEntry.create writer eventtype fullpackmode nreservations) ops = .ok e)
    (hR : Reader e i r c) (t : ℕ) : FlushesRight e i r c t ↔ FlushesWhen e r t :=
  (tidy_of_run hcare hw hrun).flushesRight_iff hR

theorem flushesRight_iff_three_points :
    ∃ e c, exec (advance (.verbatim ℕ)) (UChannelEntry.create true false false 0)
      [.setValid 1, .link true 0 0, .newData 5 (.of 0 10) true, .newData 6 (.of 10 20) true,
        .newData 7 (.of 30 40) true] = .ok e ∧ Reader e 0 1 c ∧
      (FlushesRight e 0 1 c 15 ↔ FlushesWhen e 1 15) := by
  obtain ⟨e, he, htest⟩ := exists_of_endsIn (advance (.verbatim ℕ))
    (UChannelEntry.create true false false 0)
    [.setValid 1, .link true 0 0, .newData 5 (.of 0 10) true, .newData 6 (.of 10 20) true,
      .newData 7 (.of 30 40) true] (fun e => readerTest e 0 1) (by decide +kernel)
  obtain ⟨c, hR⟩ := exists_reader_of_test htest
  have hcare : Allowed (advance (.verbatim ℕ)) Careful (UChannelEntry.create true false false 0)
      [.setValid 1, .link true 0 0, .newData 5 (.of 0 10) true, .newData 6 (.of 10 20) true,
        .newData 7 (.of 30 40) true] :=
    (@allowed_of_checks _ _ _ _ _ _ _ (fun e op => decide (Careful e op)))
      (fun _ _ h => of_decide_eq_true h) (by decide +kernel)
  exact ⟨e, c, he, hR, flushesRight_iff_of_run hcare (by decide) he hR 15⟩

/-- The number that an operation tells. -/
def told (res : Except Fault (Heap D × Client × ℕ)) : Option ℕ := res.toOption.map (·.2.2)

theorem told_of_flushed {k : ℕ} {res : Except Fault (Heap D × Client × ℕ)}
    (h : Flushed e i r k res) : told res = some k := by
  obtain ⟨heap, c', r', rfl, -⟩ := h
  rfl

/-- A reader that has read the only point tells that it skips `2 ^ 32 - 1` points. -/
theorem not_flushesRight_exhausted :
    ∃ e c, exec (advance (.verbatim ℕ)) (UChannelEntry.create true false false 0)
      [.setValid 1, .link true 0 0, .newData 5 (.of 0 10) true, .accessData 0 5,
        .releaseData 0] = .ok e ∧ Reader e 0 2 c ∧ told (spinToLast e c) = some 4294967295 ∧
      ∀ t, ¬ FlushesRight e 0 2 c t := by
  obtain ⟨e, he, htest⟩ := exists_of_endsIn (advance (.verbatim ℕ))
    (UChannelEntry.create true false false 0)
    [.setValid 1, .link true 0 0, .newData 5 (.of 0 10) true, .accessData 0 5, .releaseData 0]
    (fun e => readerTest e 0 2 && (pointsFrom e 2).isEmpty && (e.clients[0]?).any fun c =>
      told (spinToLast e c) = some 4294967295) (by decide +kernel)
  simp only [Bool.and_eq_true, List.isEmpty_iff] at htest
  obtain ⟨⟨hreader, hnil⟩, htold⟩ := htest
  obtain ⟨c, hR⟩ := exists_reader_of_test hreader
  rw [hR.record, Option.any_some, decide_eq_true_eq] at htold
  refine ⟨e, c, he, hR, htold, fun t hF => ?_⟩
  have hlast := told_of_flushed hF.last
  rw [htold, hnil] at hlast
  cases hlast

end Dueca.Entry
