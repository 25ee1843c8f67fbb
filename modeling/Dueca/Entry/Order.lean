import Dueca.Entry.Counts
import Dueca.Lib.Linked

/-!
# The order of the points of an entry

Along the chain of an entry the sequence ids count up from point to point, with
the gaps left out, and the times of a stream do not decrease. Each accepted write
adds one data point behind those there were.
-/

namespace Dueca.Entry

open Dueca.Lib UChannelEntryData

variable {D B : Type} {e : UChannelEntry D}

/-- The ids count up, gaps have no data and stand alone, and the times of a stream
do not decrease. -/
structure Ordered (e : UChannelEntry D) : Prop where
  seq_succ : ∀ a n m, e.heap a = some n → e.heap (a + 1) = some m → n.seqId ≠ 0 →
    m.seqId ≠ 0 → m.seqId = n.seqId + 1
  gap : ∀ a n m, e.heap a = some n → e.heap (a + 1) = some m → m.seqId = 0 → n.seqId ≠ 0 ∧
    ∃ k, e.heap (a + 2) = some k ∧ k.seqId = n.seqId + 1
  gap_data : ∀ a n, e.heap a = some n → n.seqId = 0 → n.data = none
  gap_lt : ∀ a n, e.heap a = some n → n.seqId = 0 → a = 0 ∨ a + 1 < e.latest
  last : ∀ l, e.heap e.latest = some l → l.data = none ∧ l.seqId ≠ 0 ∧ l.seqId < 4294967296
  /-- The point with id 1 is the first one, behind a point for time 0. -/
  first : ∀ a n, e.heap a = some n → (n.seqId = 1 ↔ a = 1)
  zero : ∀ n, e.heap 0 = some n → n.timeOrTimeEnd = 0
  times : e.eventtype = false → ∀ a n m, e.heap a = some n → e.heap (a + 1) = some m →
    n.timeOrTimeEnd ≤ m.timeOrTimeEnd

theorem ordered_create (writer eventtype fullpackmode : Bool) (nreservations : ℕ) :
    Ordered (UChannelEntry.create writer eventtype fullpackmode nreservations :
      UChannelEntry D) := by
  have hheap (a : ℕ) (n : UChannelEntryData D)
      (h : (UChannelEntry.create writer eventtype fullpackmode nreservations :
        UChannelEntry D).heap a = some n) :
      (a = 0 ∧ n.seqId = 0 ∨ a = 1 ∧ n.seqId = 1) ∧ n.data = none ∧ n.timeOrTimeEnd = 0 := by
    simp only [UChannelEntry.create] at h
    split at h
    · cases h
      exact ⟨.inl ⟨‹_›, rfl⟩, rfl, rfl⟩
    · split at h
      · cases h
        split <;> exact ⟨.inr ⟨‹_›, rfl⟩, rfl, rfl⟩
      · cases h
  constructor
  · intro a n m hn hm
    have := hheap _ _ hn
    have := hheap _ _ hm
    omega
  · intro a n m hn hm
    have := hheap _ _ hn
    have := hheap _ _ hm
    omega
  · exact fun a n hn _ => (hheap a n hn).2.1
  · intro a n hn hz
    have := hheap _ _ hn
    omega
  · intro l hl
    have := hheap _ _ hl
    have hlatest : (UChannelEntry.create writer eventtype fullpackmode nreservations :
      UChannelEntry D).latest = 1 := rfl
    exact ⟨this.2.1, by omega, by omega⟩
  · intro a n hn
    have := hheap _ _ hn
    omega
  · exact fun n hn => (hheap 0 n hn).2.2
  · intro _ a n m hn hm
    rw [(hheap _ _ hn).2.2, (hheap _ _ hm).2.2]

/-- Moving accesses keeps the order. -/
theorem Ordered.moves {e' : UChannelEntry D} {src dst taken : List ℕ} (hO : Ordered e)
    (hm : Moves e.heap e'.heap src dst taken) (hl : e'.latest = e.latest)
    (hev : e'.eventtype = e.eventtype) : Ordered e' where
  seq_succ a n' m' hn' hm' hnz hmz := by
    obtain ⟨n, hn, -, -, -, hns, -⟩ := hm.exists_of_some hn'
    obtain ⟨m, hm, -, -, -, hms, -⟩ := hm.exists_of_some hm'
    rw [hns] at hnz ⊢
    rw [hms] at hmz ⊢
    exact hO.seq_succ a n m hn hm hnz hmz
  gap a n' m' hn' hm' hmz := by
    obtain ⟨n, hn, -, -, -, hns, -⟩ := hm.exists_of_some hn'
    obtain ⟨m, hm₀, -, -, -, hms, -⟩ := hm.exists_of_some hm'
    obtain ⟨hnz, k, hk, hks⟩ := hO.gap a n m hn hm₀ (hms ▸ hmz)
    obtain ⟨c, hc, -⟩ := (hm _).2 k hk
    exact ⟨hns ▸ hnz, _, hc, hns ▸ hks⟩
  gap_data a n' hn' hz := by
    obtain ⟨n, hn, -, -, -, hns, hdata⟩ := hm.exists_of_some hn'
    rw [hdata, hO.gap_data a n hn (hns ▸ hz), ite_self]
  gap_lt a n' hn' hz := by
    obtain ⟨n, hn, -, -, -, hns, -⟩ := hm.exists_of_some hn'
    rw [hl]
    exact hO.gap_lt a n hn (hns ▸ hz)
  last l' hl' := by
    rw [hl] at hl'
    obtain ⟨l, hl₀, -, -, -, hls, hdata⟩ := hm.exists_of_some hl'
    rw [hdata, hls, (hO.last l hl₀).1, ite_self]
    exact ⟨rfl, (hO.last l hl₀).2⟩
  first a n' hn' := by
    obtain ⟨n, hn, -, -, -, hns, -⟩ := hm.exists_of_some hn'
    rw [hns]
    exact hO.first a n hn
  zero n' hn' := by
    obtain ⟨n, hn, ht, -⟩ := hm.exists_of_some hn'
    rw [ht]
    exact hO.zero n hn
  times hs a n' m' hn' hm' := by
    obtain ⟨n, hn, hnt, -⟩ := hm.exists_of_some hn'
    obtain ⟨m, hm, hmt, -⟩ := hm.exists_of_some hm'
    rw [hnt, hmt]
    exact hO.times (hev ▸ hs) a n m hn hm

/-- A clean-up only takes points off the front. -/
theorem Ordered.cleaned (hO : Ordered e) (c o : ℕ) : Ordered (e.cleaned c o) := by
  have hheap {a : ℕ} {n : UChannelEntryData D} (h : (e.cleaned c o).heap a = some n) :
      c ≤ a ∧ e.heap a = some n := by
    have h : (if a < c then none else e.heap a) = some n := h
    split at h
    · cases h
    · exact ⟨by omega, h⟩
  refine ⟨fun a n m hn hm => hO.seq_succ a n m (hheap hn).2 (hheap hm).2, fun a n m hn hm hz => ?_,
    fun a n hn => hO.gap_data a n (hheap hn).2, fun a n hn => hO.gap_lt a n (hheap hn).2, fun l hl => hO.last l (hheap hl).2,
    fun a n hn => hO.first a n (hheap hn).2, fun n hn => hO.zero n (hheap hn).2,
    fun hs a n m hn hm => hO.times hs a n m (hheap hn).2 (hheap hm).2⟩
  obtain ⟨hnz, k, hk, hks⟩ := hO.gap a n m (hheap hn).2 (hheap hm).2 hz
  refine ⟨hnz, k, ?_, hks⟩
  have := (hheap hn).1
  show (if a + 2 < c then none else e.heap (a + 2)) = some k
  rw [if_neg (by omega), hk]

/-! ### Writing -/

section Written

variable {l n m : UChannelEntryData D} {start ts a : ℕ} {data : D}

theorem filled_heap : (e.filled l start data ts).heap a =
    if a = e.fresh then some (sentinel ts e.latest (l.fill start data))
    else if a = e.latest then some { l.fill start data with newer := some e.fresh }
    else e.heap a := by
  simp only [UChannelEntry.filled, UChannelEntry.appended, UChannelEntry.withLast, store_apply]
  split
  · rfl
  · split <;> rfl

theorem gapped_heap : (e.gapped l start data ts).heap a =
    if a = e.fresh + 1 then
      some (sentinel ts e.fresh (withData start (some data) (some e.latest) l.seqId))
    else if a = e.fresh then
      some { withData start (some data) (some e.latest) l.seqId with newer := some (e.fresh + 1) }
    else if a = e.latest then some { l with seqId := 0, newer := some e.fresh }
    else e.heap a := by
  simp only [UChannelEntry.gapped, UChannelEntry.appended, UChannelEntry.withGap, store_apply]
  split
  · rfl
  · split
    · rfl
    · rfl

theorem filled_heap_latest (hL : Linked e) : (e.filled l start data ts).heap e.latest =
    some { l.fill start data with newer := some e.fresh } := by
  have := hL.fresh_eq
  rw [filled_heap, if_neg (by omega), if_pos rfl]

theorem filled_heap_succ (hL : Linked e) : (e.filled l start data ts).heap (e.latest + 1) =
    some (sentinel ts e.latest (l.fill start data)) := by
  rw [filled_heap, if_pos hL.fresh_eq.symm]

theorem filled_heap_of_lt (hL : Linked e) (ha : a < e.latest) :
    (e.filled l start data ts).heap a = e.heap a := by
  have := hL.fresh_eq
  rw [filled_heap, if_neg (by omega), if_neg (by omega)]

theorem gapped_heap_latest (hL : Linked e) : (e.gapped l start data ts).heap e.latest =
    some { l with seqId := 0, newer := some e.fresh } := by
  have := hL.fresh_eq
  rw [gapped_heap, if_neg (by omega), if_neg (by omega), if_pos rfl]

theorem gapped_heap_succ (hL : Linked e) : (e.gapped l start data ts).heap (e.latest + 1) =
    some { withData start (some data) (some e.latest) l.seqId with
      newer := some (e.fresh + 1) } := by
  have := hL.fresh_eq
  rw [gapped_heap, if_neg (by omega), if_pos (by omega)]

theorem gapped_heap_succ_succ (hL : Linked e) :
    (e.gapped l start data ts).heap (e.latest + 2) =
      some (sentinel ts e.fresh (withData start (some data) (some e.latest) l.seqId)) := by
  have := hL.fresh_eq
  rw [gapped_heap, if_pos (by omega)]

theorem gapped_heap_of_lt (hL : Linked e) (ha : a < e.latest) :
    (e.gapped l start data ts).heap a = e.heap a := by
  have := hL.fresh_eq
  rw [gapped_heap, if_neg (by omega), if_neg (by omega), if_neg (by omega)]

theorem Ordered.filled (hO : Ordered e) (hL : Linked e) (hl : e.heap e.latest = some l)
    (hseq : l.seqId + 1 < 4294967296)
    (hstart : e.eventtype = false → ∀ n, e.heap (e.latest - 1) = some n → n.timeOrTimeEnd ≤ start)
    (hts : e.eventtype = false → start ≤ ts) : Ordered (e.filled l start data ts) := by
  have hfr := hL.fresh_eq
  have hpos : 0 < e.latest := by have := hL.cleanup_lt; have := hL.oldest_le; omega
  obtain ⟨hldata, hlnz, hlt⟩ := hO.last l hl
  have hnext : (sentinel ts e.latest (l.fill start data)).seqId = l.seqId + 1 := by
    simp only [sentinel, nextSeqId, fill]
    omega
  -- a point is an old one, the filled sentinel or the new one
  have hheap {a : ℕ} {n : UChannelEntryData D} (h : (e.filled l start data ts).heap a = some n) :
      a < e.latest ∧ e.heap a = some n ∨
        a = e.latest ∧ n = { l.fill start data with newer := some e.fresh } ∨
        a = e.latest + 1 ∧ n = sentinel ts e.latest (l.fill start data) := by
    rw [filled_heap] at h
    split at h
    · exact .inr (.inr ⟨by omega, (Option.some.inj h).symm⟩)
    · split at h
      · exact .inr (.inl ⟨by omega, (Option.some.inj h).symm⟩)
      · have := (hL.mem_range h).2
        exact .inl ⟨by omega, h⟩
  constructor
  · intro a n m hn hm hnz hmz
    rcases hheap hn with ⟨ha, hn⟩ | ⟨ha, rfl⟩ | ⟨ha, rfl⟩ <;>
      rcases hheap hm with ⟨ha', hm⟩ | ⟨ha', rfl⟩ | ⟨ha', rfl⟩ <;> try omega
    · exact hO.seq_succ a n m hn hm hnz hmz
    · exact hO.seq_succ a n l hn (ha' ▸ hl) hnz hmz
    · exact hnext
  · intro a n m hn hm hz
    rcases hheap hm with ⟨ha', hm'⟩ | ⟨ha', rfl⟩ | ⟨ha', rfl⟩
    · rcases hheap hn with ⟨ha, hn⟩ | ⟨ha, rfl⟩ | ⟨ha, rfl⟩ <;> try omega
      obtain ⟨hnz, k, hk, hks⟩ := hO.gap a n m hn hm' hz
      refine ⟨hnz, ?_⟩
      rw [filled_heap]
      by_cases hk' : a + 2 = e.latest
      · obtain rfl := Option.some.inj (hk.symm.trans (hk' ▸ hl))
        rw [if_neg (by omega), if_pos hk']
        exact ⟨_, rfl, hks⟩
      · rw [if_neg (by omega), if_neg hk']
        exact ⟨k, hk, hks⟩
    · exact absurd hz hlnz
    · omega
  · intro a n hn hz
    rcases hheap hn with ⟨-, hn⟩ | ⟨-, rfl⟩ | ⟨-, rfl⟩
    · exact hO.gap_data a n hn hz
    · exact absurd hz hlnz
    · rfl
  · intro a n hn hz
    have hlatest : (e.filled l start data ts).latest = e.latest + 1 := hfr
    rcases hheap hn with ⟨-, hn⟩ | ⟨-, rfl⟩ | ⟨-, rfl⟩
    · have := hO.gap_lt a n hn hz
      omega
    · exact absurd hz hlnz
    · omega
  · intro l' hl'
    have hlatest : (e.filled l start data ts).latest = e.latest + 1 := hfr
    rcases hheap hl' with ⟨ha, -⟩ | ⟨ha, -⟩ | ⟨-, rfl⟩
    · omega
    · omega
    · exact ⟨rfl, by omega, by omega⟩
  · intro a n hn
    rcases hheap hn with ⟨-, hn⟩ | ⟨ha, rfl⟩ | ⟨ha, rfl⟩
    · exact hO.first a n hn
    · exact hO.first a l (ha ▸ hl)
    · omega
  · intro n hn
    rcases hheap hn with ⟨-, hn⟩ | ⟨ha, -⟩ | ⟨ha, -⟩
    · exact hO.zero n hn
    · omega
    · omega
  · intro hs a n m hn hm
    rcases hheap hn with ⟨ha, hn⟩ | ⟨ha, rfl⟩ | ⟨ha, rfl⟩ <;>
      rcases hheap hm with ⟨ha', hm⟩ | ⟨ha', rfl⟩ | ⟨ha', rfl⟩ <;> try omega
    · exact hO.times hs a n m hn hm
    · exact hstart hs n (by rw [← ha']; exact hn)
    · exact hts hs

theorem Ordered.gapped (hO : Ordered e) (hL : Linked e) (hl : e.heap e.latest = some l)
    (hseq : l.seqId + 1 < 4294967296) (hone : l.seqId ≠ 1) (hlt : l.timeOrTimeEnd ≤ start)
    (hts : start ≤ ts) : Ordered (e.gapped l start data ts) := by
  have hfr := hL.fresh_eq
  have hpos : 0 < e.latest := by have := hL.cleanup_lt; have := hL.oldest_le; omega
  obtain ⟨hldata, hlnz, -⟩ := hO.last l hl
  have hnext : (sentinel ts e.fresh (withData start (some data) (some e.latest) l.seqId)).seqId =
      l.seqId + 1 := by
    simp only [sentinel, nextSeqId, withData]
    omega
  -- a point is an old one, the gap, the new data point or the new sentinel
  have hheap {a : ℕ} {n : UChannelEntryData D} (h : (e.gapped l start data ts).heap a = some n) :
      a < e.latest ∧ e.heap a = some n ∨
        a = e.latest ∧ n = { l with seqId := 0, newer := some e.fresh } ∨
        a = e.latest + 1 ∧ n = { withData start (some data) (some e.latest) l.seqId with
          newer := some (e.fresh + 1) } ∨
        a = e.latest + 2 ∧
          n = sentinel ts e.fresh (withData start (some data) (some e.latest) l.seqId) := by
    rw [gapped_heap] at h
    split at h
    · exact .inr (.inr (.inr ⟨by omega, (Option.some.inj h).symm⟩))
    · split at h
      · exact .inr (.inr (.inl ⟨by omega, (Option.some.inj h).symm⟩))
      · split at h
        · exact .inr (.inl ⟨by omega, (Option.some.inj h).symm⟩)
        · have := (hL.mem_range h).2
          exact .inl ⟨by omega, h⟩
  constructor
  · intro a n m hn hm hnz hmz
    rcases hheap hn with ⟨ha, hn⟩ | ⟨ha, rfl⟩ | ⟨ha, rfl⟩ | ⟨ha, rfl⟩ <;>
      rcases hheap hm with ⟨ha', hm⟩ | ⟨ha', rfl⟩ | ⟨ha', rfl⟩ | ⟨ha', rfl⟩ <;> try omega
    · exact hO.seq_succ a n m hn hm hnz hmz
    · exact absurd rfl hmz
    · exact absurd rfl hnz
    · exact hnext
  · intro a n m hn hm hz
    rcases hheap hm with ⟨ha', hm'⟩ | ⟨ha', rfl⟩ | ⟨ha', rfl⟩ | ⟨ha', rfl⟩
    · rcases hheap hn with ⟨ha, hn⟩ | ⟨ha, rfl⟩ | ⟨ha, rfl⟩ | ⟨ha, rfl⟩ <;> try omega
      obtain ⟨hnz, k, hk, hks⟩ := hO.gap a n m hn hm' hz
      have hk' := hO.gap_lt _ m hm' hz
      refine ⟨hnz, k, ?_, hks⟩
      rw [gapped_heap, if_neg (by omega), if_neg (by omega), if_neg (by omega), hk]
    · rcases hheap hn with ⟨ha, hn⟩ | ⟨ha, rfl⟩ | ⟨ha, rfl⟩ | ⟨ha, rfl⟩ <;> try omega
      have hnz : n.seqId ≠ 0 := by
        intro hz'
        have hgap := hO.gap_lt a n hn hz'
        have hfirst := hO.first e.latest l hl
        omega
      refine ⟨hnz, ?_⟩
      rw [gapped_heap, if_neg (by omega), if_pos (by omega)]
      exact ⟨_, rfl, hO.seq_succ a n l hn (ha' ▸ hl) hnz hlnz⟩
    · exact absurd hz hlnz
    · omega
  · intro a n hn hz
    rcases hheap hn with ⟨-, hn⟩ | ⟨-, rfl⟩ | ⟨-, rfl⟩ | ⟨-, rfl⟩
    · exact hO.gap_data a n hn hz
    · exact hldata
    · exact absurd hz hlnz
    · rfl
  · intro a n hn hz
    have hlatest : (e.gapped l start data ts).latest = e.latest + 2 := by
      show e.fresh + 1 = e.latest + 2
      omega
    rcases hheap hn with ⟨-, hn⟩ | ⟨ha, rfl⟩ | ⟨-, rfl⟩ | ⟨-, rfl⟩
    · have := hO.gap_lt a n hn hz
      omega
    · omega
    · exact absurd hz hlnz
    · omega
  · intro l' hl'
    have hlatest : (e.gapped l start data ts).latest = e.latest + 2 := by
      show e.fresh + 1 = e.latest + 2
      omega
    rcases hheap hl' with ⟨ha, -⟩ | ⟨ha, -⟩ | ⟨ha, -⟩ | ⟨-, rfl⟩
    · omega
    · omega
    · omega
    · exact ⟨rfl, by omega, by omega⟩
  · intro a n hn
    have hfirst := hO.first e.latest l hl
    rcases hheap hn with ⟨-, hn⟩ | ⟨ha, rfl⟩ | ⟨ha, rfl⟩ | ⟨ha, rfl⟩
    · exact hO.first a n hn
    · dsimp only
      omega
    · simp only [withData]
      omega
    · omega
  · intro n hn
    rcases hheap hn with ⟨-, hn⟩ | ⟨ha, -⟩ | ⟨ha, -⟩ | ⟨ha, -⟩
    · exact hO.zero n hn
    · omega
    · omega
    · omega
  · intro hs a n m hn hm
    rcases hheap hn with ⟨ha, hn⟩ | ⟨ha, rfl⟩ | ⟨ha, rfl⟩ | ⟨ha, rfl⟩ <;>
      rcases hheap hm with ⟨ha', hm⟩ | ⟨ha', rfl⟩ | ⟨ha', rfl⟩ | ⟨ha', rfl⟩ <;> try omega
    · exact hO.times hs a n m hn hm
    · exact hO.times hs a n l hn (ha' ▸ hl)
    · exact hlt
    · exact hts

/-- The last point with a new point behind it. -/
theorem Linked.grown {k : UChannelEntryData D} {h : Heap D} (hL : Linked e)
    (hl : e.heap e.latest = some l) (hn : n.older = l.older) (hnewer : n.newer = some e.fresh)
    (hk : k.older = some e.latest) (hkn : k.newer = none)
    (hh : ∀ a, h a = if a = e.fresh then some k else if a = e.latest then some n else e.heap a) :
    Linked { e with heap := h, fresh := e.fresh + 1, latest := e.fresh } := by
  have hfr := hL.fresh_eq
  have hle := hL.oldest_le
  refine ⟨hL.cleanup_lt, show e.oldest ≤ e.fresh by omega, rfl, fun a => ?_, fun a m hm => ?_,
    fun a m hm ha => ?_⟩
  · have hlt := hL.cleanup_lt
    have := hL.live a
    show (h a).isSome ↔ e.cleanup ≤ a ∧ a ≤ e.fresh
    rw [hh]
    split
    · simp only [Option.isSome_some, true_iff]
      omega
    · split
      · simp only [Option.isSome_some, true_iff]
        omega
      · rw [this]
        omega
  · show m.newer = if a = e.fresh then none else some (a + 1)
    have hm : h a = some m := hm
    rw [hh] at hm
    split at hm
    · next ha =>
      cases hm
      rw [if_pos ha, hkn]
    · rw [if_neg ‹_›]
      split at hm
      · cases hm
        rw [hnewer]
        exact congrArg some (by omega)
      · have := (hL.mem_range hm).2
        exact hL.newer_of_lt hm (by omega)
  · have hm : h a = some m := hm
    rw [hh] at hm
    split at hm
    · cases hm
      rw [hk]
      exact congrArg some (by omega)
    · split at hm
      · next hlast =>
        cases hm
        exact hn.trans (hL.older_eq a l (hlast ▸ hl) ha)
      · exact hL.older_eq a m hm ha

theorem Linked.filled (hL : Linked e) (hl : e.heap e.latest = some l) :
    Linked (e.filled l start data ts) :=
  hL.grown hl (n := { l.fill start data with newer := some e.fresh }) rfl rfl rfl rfl
    fun _ => filled_heap

theorem Linked.gapped (hL : Linked e) (hl : e.heap e.latest = some l) :
    Linked (e.gapped l start data ts) := by
  -- the gap comes first, then the sentinel behind the data
  let p := withData start (some data) (some e.latest) l.seqId
  have hgap : Linked { e with
      heap := (e.withGap l p).heap, fresh := e.fresh + 1, latest := e.fresh } :=
    hL.grown hl (n := { l with seqId := 0, newer := some e.fresh }) (k := p) rfl rfl rfl rfl
      fun a => by simp only [UChannelEntry.withGap, store_apply]
  exact hgap.grown (l := p) (n := { p with newer := some (e.fresh + 1) }) (store_self _ _ _) rfl
    rfl rfl rfl fun a => by
      simp only [store_apply]
      rfl

end Written

/-! ### One operation -/

/-- The parts of an entry that only a write changes. -/
structure SameChain (e e' : UChannelEntry D) : Prop where
  cleanup : e'.cleanup = e.cleanup
  oldest : e'.oldest = e.oldest
  latest : e'.latest = e.latest
  fresh : e'.fresh = e.fresh
  eventtype : e'.eventtype = e.eventtype
  writer : e'.writer = e.writer

theorem Linked.same {e' : UChannelEntry D} {src dst taken : List ℕ} (hL : Linked e)
    (hm : Moves e.heap e'.heap src dst taken) (hs : SameChain e e') : Linked e' :=
  hL.moves hm hs.cleanup hs.oldest hs.latest hs.fresh

theorem withClient_eq_ok {e' : UChannelEntry D} {i : ℕ}
    {f : Client → Except Fault (Heap D × Client)} (h : withClient e i f = .ok e') :
    ∃ c heap c', e.clients[i]? = some c ∧ c.linked = true ∧ f c = .ok (heap, c') ∧
      e' = { e with heap, clients := e.clients.set i c' } := by
  rw [withClient] at h
  split at h
  · cases h
  · rename_i c hc
    split at h
    · rename_i hlinked
      simp only [bind_eq_ok, pure_eq_ok] at h
      obtain ⟨⟨heap, c'⟩, hf, rfl⟩ := h
      exact ⟨c, heap, c', hc, hlinked, hf, rfl⟩
    · cases h

theorem dropResult_eq_ok {R : Type} {res : Except Fault (Heap D × Client × R)} {h : Heap D}
    {c : Client} (hd : dropResult res = .ok (h, c)) : ∃ r, res = .ok (h, c, r) := by
  simp only [dropResult, bind_eq_ok, pure_eq_ok, Prod.mk.injEq] at hd
  obtain ⟨⟨h', c', r⟩, hr, rfl, rfl⟩ := hd
  exact ⟨r, hr⟩

theorem accessData_shape {c c' : Client} {h' : Heap D} {t : ℕ} {res : Option (Reading D)}
    (hL : Linked e) (h : accessData e c t = .ok (h', c', res)) :
    ∃ src dst, Moves e.heap h' src dst [] := by
  rw [accessData] at h
  split at h
  · simp only [pure_eq_ok, Prod.mk.injEq] at h
    exact ⟨[], [], h.1 ▸ Moves.refl _ _⟩
  · split at h
    · obtain ⟨r, _, r', _, _, _, _, hm, _⟩ := accessSequential_cases hL h
      exact ⟨[r], [r'], hm⟩
    · rcases accessTimed_cases h with ⟨rfl, -, -⟩ | ⟨_, _, b, n, _, _, _, _, hn, _, _, _, _, rfl, _⟩
      · exact ⟨[], [], Moves.refl _ _⟩
      · exact ⟨[], [b], Moves.increment hn []⟩

theorem Skips.shape {c c' : Client} {h' : Heap D} (hs : Skips e c h' c') :
    ∃ src dst, Moves e.heap h' src dst [] := by
  obtain ⟨-, r, r', -, hm, -⟩ := hs
  exact ⟨[r], [r'], hm⟩

/-- A step of a client that moves accesses and takes no data. -/
theorem shape_withClient {e' : UChannelEntry D} {i : ℕ}
    {f : Client → Except Fault (Heap D × Client)}
    (hf : ∀ c heap c', f c = .ok (heap, c') → ∃ src dst, Moves e.heap heap src dst [])
    (hM : Manned e) (h : withClient e i f = .ok e') :
    (∃ src dst, Moves e.heap e'.heap src dst []) ∧ SameChain e e' ∧ Manned e' := by
  obtain ⟨c, heap, c', -, -, hfc, rfl⟩ := withClient_eq_ok h
  exact ⟨hf c heap c' hfc, ⟨rfl, rfl, rfl, rfl, rfl, rfl⟩, hM.1, hM.2⟩

theorem manned_staffed {stop : ℕ} (hM : Manned e) : Manned (e.staffed stop).1 := by
  refine ⟨?_, fun hw => ?_⟩
  · show (e.pclients ++ List.replicate e.vacancies _).length ≤ e.transporters
    have := hM.packers_le
    simp only [List.length_append, List.length_replicate, UChannelEntry.vacancies]
    split <;> omega
  · have hw : e.writer = false := hw
    show e.pclients ++ List.replicate e.vacancies _ = []
    simp [hM.no_packers hw, UChannelEntry.vacancies, hw]

theorem manned_set {e' : UChannelEntry D} {idx : ℕ} {q : PackerClient} (hM : Manned e)
    (hp : e'.pclients = e.pclients.set idx q) (ht : e'.transporters = e.transporters)
    (hw : e'.writer = e.writer) : Manned e' := by
  refine ⟨?_, fun h => ?_⟩
  · rw [hp, ht, List.length_set]
    exact hM.1
  · rw [hp, hM.no_packers (hw ▸ h), List.set_nil]

/-- Every operation but a write only moves accesses, and only `releaseOnlyAccess`
takes data. -/
theorem step_shape {conv : DataSetConverter D B} {op : Op D} {e' : UChannelEntry D}
    {work : List PackUnit} (hL : Linked e) (hM : Manned e)
    (hop : ∀ data t current, op ≠ .newData data t current)
    (h : step conv e op = .ok (e', work)) :
    (∃ src dst taken, Moves e.heap e'.heap src dst taken ∧ ∀ a ∈ taken, ∃ i c,
        op = .releaseOnlyAccess i ∧ e.clients[i]? = some c ∧ c.accessed = some a) ∧
      SameChain e e' ∧ Manned e' := by
  have plain (h : (∃ src dst, Moves e.heap e'.heap src dst []) ∧ SameChain e e' ∧ Manned e') :
      (∃ src dst taken, Moves e.heap e'.heap src dst taken ∧ ∀ a ∈ taken, ∃ i c,
          op = .releaseOnlyAccess i ∧ e.clients[i]? = some c ∧ c.accessed = some a) ∧
        SameChain e e' ∧ Manned e' := by
    obtain ⟨⟨src, dst, hm⟩, hrest⟩ := h
    exact ⟨⟨src, dst, [], hm, fun a ha => nomatch ha⟩, hrest⟩
  have still (hheap : e'.heap = e.heap) (hs : SameChain e e') (hM : Manned e') :
      (∃ src dst taken, Moves e.heap e'.heap src dst taken ∧ ∀ a ∈ taken, ∃ i c,
          op = .releaseOnlyAccess i ∧ e.clients[i]? = some c ∧ c.accessed = some a) ∧
        SameChain e e' ∧ Manned e' :=
    plain ⟨⟨[], [], hheap ▸ Moves.refl _ _⟩, hs, hM⟩
  cases op with
  | newData data t current => exact absurd rfl (hop data t current)
  | link sequentialRead span depth =>
    simp only [step, bind_eq_ok, pure_eq_ok, Prod.mk.injEq] at h
    obtain ⟨_, h, rfl, rfl⟩ := h
    rcases link_cases h with ⟨-, n, heap, hn, -, rfl, rfl⟩ | ⟨-, rfl⟩
    · exact plain ⟨⟨[], [e.oldest], Moves.increment hn []⟩, ⟨rfl, rfl, rfl, rfl, rfl, rfl⟩,
        hM.1, hM.2⟩
    · exact still rfl ⟨rfl, rfl, rfl, rfl, rfl, rfl⟩ ⟨hM.1, hM.2⟩
  | detach i =>
    simp only [step, bind_eq_ok, pure_eq_ok, Prod.mk.injEq] at h
    obtain ⟨_, h, rfl, rfl⟩ := h
    refine plain (shape_withClient (fun c heap c' hc => ?_) hM h)
    obtain ⟨-, ⟨-, r, -, hm⟩ | ⟨-, rfl⟩⟩ := detach_cases hc
    · exact ⟨[r], [], hm⟩
    · exact ⟨[], [], Moves.refl _ _⟩
  | accessData i t =>
    simp only [step, bind_eq_ok, pure_eq_ok, Prod.mk.injEq] at h
    obtain ⟨_, h, rfl, rfl⟩ := h
    refine plain (shape_withClient (fun c heap c' hc => ?_) hM h)
    obtain ⟨r, hr⟩ := dropResult_eq_ok hc
    exact accessData_shape hL hr
  | releaseData i =>
    simp only [step, bind_eq_ok, pure_eq_ok, Prod.mk.injEq] at h
    obtain ⟨_, h, rfl, rfl⟩ := h
    refine plain (shape_withClient (fun c heap c' hc => ?_) hM h)
    obtain ⟨a, -, ⟨-, _, _, b, -, -, -, hm, -⟩ | ⟨-, hm, -⟩⟩ := releaseData_cases hc
    · exact ⟨[a], [b], hm⟩
    · exact ⟨[a], [], hm⟩
  | releaseDataNoStep i =>
    simp only [step, bind_eq_ok, pure_eq_ok, Prod.mk.injEq] at h
    obtain ⟨_, h, rfl, rfl⟩ := h
    refine plain (shape_withClient (fun c heap c' hc => ?_) hM h)
    obtain ⟨a, -, -, ⟨-, hm⟩ | ⟨-, hm⟩⟩ := releaseDataNoStep_cases hc
    · exact ⟨[a], [a], hm⟩
    · exact ⟨[a], [], hm⟩
  | releaseOnlyAccess i =>
    simp only [step, bind_eq_ok, pure_eq_ok, Prod.mk.injEq] at h
    obtain ⟨_, h, rfl, rfl⟩ := h
    obtain ⟨c, heap, c', hci, -, hc, rfl⟩ := withClient_eq_ok h
    obtain ⟨a, ha, hcase⟩ := releaseOnlyAccess_cases hc
    have taker : ∀ x ∈ [a], ∃ j d, Op.releaseOnlyAccess (D := D) i = .releaseOnlyAccess j ∧
        e.clients[j]? = some d ∧ d.accessed = some x := by
      intro x hx
      rw [List.mem_singleton] at hx
      exact ⟨i, c, rfl, hci, hx ▸ ha⟩
    rcases hcase with ⟨-, _, b, -, -, hm, -⟩ | ⟨-, hm, -⟩
    · exact ⟨⟨[a], [b], [a], hm, taker⟩, ⟨rfl, rfl, rfl, rfl, rfl, rfl⟩, hM.1, hM.2⟩
    · exact ⟨⟨[a], [], [a], hm, taker⟩, ⟨rfl, rfl, rfl, rfl, rfl, rfl⟩, hM.1, hM.2⟩
  | flushOne i =>
    simp only [step, bind_eq_ok, pure_eq_ok, Prod.mk.injEq] at h
    obtain ⟨_, h, rfl, rfl⟩ := h
    refine plain (shape_withClient (fun c heap c' hc => ?_) hM h)
    obtain ⟨r, hr⟩ := dropResult_eq_ok hc
    exact (flushOne_skips hL hr).shape
  | flushAll i =>
    simp only [step, bind_eq_ok, pure_eq_ok, Prod.mk.injEq] at h
    obtain ⟨_, h, rfl, rfl⟩ := h
    refine plain (shape_withClient (fun c heap c' hc => ?_) hM h)
    obtain ⟨r, hr⟩ := dropResult_eq_ok hc
    exact (flushAll_skips hL hr).shape
  | spinToLast i =>
    simp only [step, bind_eq_ok, pure_eq_ok, Prod.mk.injEq] at h
    obtain ⟨_, h, rfl, rfl⟩ := h
    refine plain (shape_withClient (fun c heap c' hc => ?_) hM h)
    obtain ⟨r, hr⟩ := dropResult_eq_ok hc
    exact (spinToLast_skips hL hr).shape
  | spinToLastBefore i t =>
    simp only [step, bind_eq_ok, pure_eq_ok, Prod.mk.injEq] at h
    obtain ⟨_, h, rfl, rfl⟩ := h
    refine plain (shape_withClient (fun c heap c' hc => ?_) hM h)
    obtain ⟨r, hr⟩ := dropResult_eq_ok hc
    exact (spinToLastBefore_skips hr).shape
  | monitorLatestData =>
    simp only [step, bind_eq_ok, pure_eq_ok, Prod.mk.injEq] at h
    obtain ⟨⟨_, _⟩, h, rfl, rfl⟩ := h
    obtain ⟨-, heap, monitored, rfl, ⟨rfl, -⟩ | ⟨a, n, hn, rfl, -⟩⟩ := monitorLatestData_cases h
    · exact still rfl ⟨rfl, rfl, rfl, rfl, rfl, rfl⟩ ⟨hM.1, hM.2⟩
    · exact plain ⟨⟨[], [a], Moves.increment hn []⟩, ⟨rfl, rfl, rfl, rfl, rfl, rfl⟩, hM.1, hM.2⟩
  | monitorReleaseData =>
    simp only [step, bind_eq_ok, pure_eq_ok, Prod.mk.injEq] at h
    obtain ⟨_, h, rfl, rfl⟩ := h
    obtain ⟨a, heap, -, rfl, hm⟩ := monitorReleaseData_cases h
    exact plain ⟨⟨[a], [], hm⟩, ⟨rfl, rfl, rfl, rfl, rfl, rfl⟩, hM.1, hM.2⟩
  | addRemoteDestination =>
    simp only [step, pure_eq_ok, Prod.mk.injEq] at h
    obtain ⟨rfl, rfl⟩ := h
    exact still rfl ⟨rfl, rfl, rfl, rfl, rfl, rfl⟩ ⟨hM.1.trans (Nat.le_succ _), hM.2⟩
  | incrementVersion =>
    simp only [step, pure_eq_ok, Prod.mk.injEq] at h
    obtain ⟨rfl, rfl⟩ := h
    exact still rfl ⟨rfl, rfl, rfl, rfl, rfl, rfl⟩ ⟨hM.1, hM.2⟩
  | refreshTransporters =>
    simp only [step] at h
    obtain ⟨n, hn⟩ := hL.walkable.exists_oldest
    have hr := refreshTransporters_ok hL.walkable hM h
    obtain ⟨rfl, -⟩ := Prod.mk.inj hr
    exact plain ⟨⟨[], _, bump_moves hn⟩, ⟨rfl, rfl, rfl, rfl, rfl, rfl⟩, manned_staffed hM⟩
  | packData idx seqid fits =>
    simp only [step, bind_eq_ok, pure_eq_ok, Prod.mk.injEq] at h
    obtain ⟨⟨_, _⟩, h, rfl, rfl⟩ := h
    rcases packData_cases h with ⟨-, rfl, -⟩ | ⟨p, heap, p', reading, q, -, -, hacc, rfl, -⟩
    · exact still rfl ⟨rfl, rfl, rfl, rfl, rfl, rfl⟩ hM
    · obtain ⟨r, _, r', _, _, _, -, -, -, hm, -⟩ := accessPackData_cases hL hacc
      exact plain ⟨⟨[r], [r'], hm⟩, ⟨rfl, rfl, rfl, rfl, rfl, rfl⟩, manned_set hM rfl rfl rfl⟩
  | packComplete idx =>
    simp only [step, bind_eq_ok, pure_eq_ok, Prod.mk.injEq] at h
    obtain ⟨_, h, rfl, rfl⟩ := h
    obtain ⟨p, r, n, a, m, b, heap, -, -, -, -, -, -, hm, rfl⟩ := packComplete_cases h
    exact plain ⟨⟨[a], [b], hm⟩, ⟨rfl, rfl, rfl, rfl, rfl, rfl⟩, manned_set hM rfl rfl rfl⟩
  | packFailed idx =>
    simp only [step, packFailed, bind_eq_ok, pure_eq_ok, Prod.mk.injEq] at h
    obtain ⟨_, h, rfl, rfl⟩ := h
    split at h
    · exact absurd h throw_ne_ok
    · simp only [pure_eq_ok] at h
      subst h
      exact still rfl ⟨rfl, rfl, rfl, rfl, rfl, rfl⟩ (manned_set hM rfl rfl rfl)
  | removeSaveUp =>
    simp only [step, bind_eq_ok, pure_eq_ok, Prod.mk.injEq] at h
    obtain ⟨_, -, rfl, rfl⟩ := h
    exact still rfl ⟨rfl, rfl, rfl, rfl, rfl, rfl⟩ ⟨hM.1, hM.2⟩
  | setValid id =>
    simp only [step, bind_eq_ok, pure_eq_ok, Prod.mk.injEq] at h
    obtain ⟨_, -, rfl, rfl⟩ := h
    exact still rfl ⟨rfl, rfl, rfl, rfl, rfl, rfl⟩ ⟨hM.1, hM.2⟩
  | setConfValid =>
    simp only [step, pure_eq_ok, Prod.mk.injEq] at h
    obtain ⟨rfl, rfl⟩ := h
    exact still rfl ⟨rfl, rfl, rfl, rfl, rfl, rfl⟩ ⟨hM.1, hM.2⟩

end Dueca.Entry
