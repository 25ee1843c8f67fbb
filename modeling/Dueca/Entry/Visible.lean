import Dueca.Entry.Sequential
import Mathlib.Data.List.TakeWhile

/-!
# The number of visible points

A sequential reader can ask for the number of points that it can read for a tick, or whether
there is one. The number is the difference of two sequence ids, of the node that is read next and
of the last node that is not too late. A gap has id 0 and no data, so the answers are wrong when
the reader stands at a gap, and when the tick is in a gap.
-/

namespace Dueca.Entry

open Dueca.Lib UChannelEntryData

variable {D B : Type} {e : UChannelEntry D} {conv : DataSetConverter D B} {i r t : ℕ} {c : Client}

/-- The times of the nodes before the sentinel do not decrease. -/
def NonDecreasing (e : UChannelEntry D) : Prop :=
  ∀ a b n m, a ≤ b → b < e.latest → e.heap a = some n → e.heap b = some m →
    n.timeOrTimeEnd ≤ m.timeOrTimeEnd

/-- The tick is in a gap. -/
def InGap (e : UChannelEntry D) (t : ℕ) : Prop :=
  ∃ a n m, e.heap a = some n ∧ n.seqId = 0 ∧ e.heap (a + 1) = some m ∧ n.timeOrTimeEnd ≤ t ∧
    t < m.timeOrTimeEnd

/-- The number of times that a reader gets a point for the tick and gives it back, until it gets
none. -/
def readsBeforeNull (i t : ℕ) : ℕ → UChannelEntry D → Client → Except Fault ℕ
  | 0, _, _ => .error .endlessLoop
  | fuel + 1, e, c => do
    let (heap, c, res) ← accessData e c t
    match res with
    | none => pure 0
    | some _ =>
      let e := e.reread i heap c
      let (heap, c) ← releaseData e c
      pure ((← readsBeforeNull i t fuel (e.reread i heap c) c) + 1)

/-- The number of visible points is that of the reads that succeed, and there is a visible point
when one succeeds. -/
def SetsAgree (e : UChannelEntry D) (i r : ℕ) (c : Client) (t : ℕ) : Prop :=
  ∃ k, readsBeforeNull i t (e.latest + 1) e c = .ok k ∧ getNumVisibleSets e t r = .ok k ∧
    haveVisibleSets e t r = .ok (decide (0 < k))

/-- The first unread point is too late, or its data was taken, or there is none; or the entry is
valid, neither the reader nor the tick is at a gap, and no data was taken from the points that are
not too late. A reader at a gap of an entry that is not valid sees nothing either. -/
def SetsAgreeWhen (e : UChannelEntry D) (r t : ℕ) : Prop :=
  (∀ p ∈ (pointsFrom e r).head?, p.1.1 ≤ t → p.2 = none) ∨
    if e.valid then
      atGap e r = false ∧ ¬ InGap e t ∧ ∀ p ∈ pointsFrom e r, p.1.1 ≤ t → p.2.isSome
    else atGap e r = true

/-! ### Reading -/

/-- The points that can be read for a tick, one after the other. -/
def readable (t : ℕ) (points : List (Point D)) : List (Point D) :=
  points.takeWhile fun p => p.1.1 ≤ t && p.2.isSome

theorem readable_eq_nil {points : List (Point D)} :
    readable t points = [] ↔ ∀ p ∈ points.head?, p.1.1 ≤ t → p.2 = none := by
  cases points with
  | nil => simp [readable]
  | cons p points =>
    rw [readable, List.takeWhile_cons]
    by_cases h₁ : p.1.1 ≤ t <;> cases h₂ : p.2 <;> simp [h₁, h₂]

/-- Reading on goes through as many points as can be read. -/
theorem readsBeforeNull_eq {fuel : ℕ} (hT : Tidy e) (hR : Reader e i r c) (hv : e.valid = true)
    (hf : (pointsFrom e r).length < fuel) :
    readsBeforeNull i t fuel e c = .ok (readable t (pointsFrom e r)).length := by
  induction fuel generalizing e c r with
  | zero => omega
  | succ fuel ih =>
    obtain ⟨heap, c', res, r', haccess, hT', -, hpts, -, -, hres⟩ :=
      (@Tidy.accessData_eq D e i r c t) hT hR hv
    rw [readsBeforeNull, haccess]
    rcases hres with ⟨rfl, -, hlate⟩ | ⟨ts, d, rfl, hH, hlt, hts, hcons⟩
    · have hnil : readable t (pointsFrom e r) = [] :=
        readable_eq_nil.mpr fun p hp hle => absurd hle (Nat.not_le.mpr (hlate p hp))
      rw [hnil]
      rfl
    cases d with
    | none =>
      have hnil : readable t (pointsFrom e r) = [] := by
        rw [readable_eq_nil, hcons]
        simp
      rw [hnil]
      rfl
    | some d =>
      obtain ⟨heap', c'', hrel, hT'', hm, hR''⟩ := hT'.releaseData_eq hH hlt
      have hrest := (@reread_pointsFrom D (e.reread i heap c') i (r' + 1) c'' heap' _ _) hm
      have hrec := ih hT'' hR'' hv (by
        rw [hrest]
        rw [hcons, List.length_cons] at hf
        omega)
      rw [hrest] at hrec
      have hone : readable t (pointsFrom e r) =
          (ts, some d) :: readable t (pointsFrom (e.reread i heap c') (r' + 1)) := by
        rw [hcons, readable, List.takeWhile_cons, if_pos (by simpa using hts)]
        rfl
      simp only [bind, Except.bind, Option.map_some, hrel, hrec, hone]
      rfl

theorem readsBeforeNull_of_invalid {fuel : ℕ} (hv : e.valid = false) :
    readsBeforeNull i t (fuel + 1) e c = .ok 0 := by
  rw [readsBeforeNull, accessData, hv]
  rfl

theorem length_pointsFrom_le (e : UChannelEntry D) (a : ℕ) :
    (pointsFrom e a).length ≤ e.latest := by
  refine (List.length_filterMap_le _ _).trans ?_
  rw [List.length_range']
  omega

/-! ### Counting -/

/-- The points up to the last node that is not too late are those with a start that is not too
late. -/
theorem pointsFrom_visible {b : ℕ} {m : UChannelEntryData D} (hmono : NonDecreasing e)
    (hrb : r ≤ b) (hb : b < e.latest) (hm : e.heap b = some m) (hmt : m.timeOrTimeEnd ≤ t)
    (hlate : ∀ x k, b < x → x < e.latest → e.heap x = some k → t < k.timeOrTimeEnd) :
    ∃ seen, pointsFrom e r = seen ++ pointsFrom e (b + 1) ∧ (∀ p ∈ seen, p.1.1 ≤ t) ∧
      ∀ p ∈ pointsFrom e (b + 1), t < p.1.1 := by
  refine ⟨_, pointsFrom_split (by omega) hb, fun p hp => ?_, fun p hp => ?_⟩
  · obtain ⟨a, ha, hp⟩ := List.mem_filterMap.mp hp
    obtain ⟨n, -, hn, -, -, rfl⟩ := pointAt_eq_some hp
    rw [List.mem_range'_1] at ha
    exact (hmono a b n m (by omega) hb hn hm).trans hmt
  · obtain ⟨a, ha, hp⟩ := List.mem_filterMap.mp hp
    obtain ⟨n, -, hn, -, -, rfl⟩ := pointAt_eq_some hp
    rw [List.mem_range'_1] at ha
    exact hlate a n (by omega) (by omega) hn

/-- Between two nodes with ids there are as many points as the ids say. -/
theorem length_seen {b : ℕ} {n m : UChannelEntryData D} {seen : List (Point D)} (hT : Tidy e)
    (hn : e.heap r = some n) (hz : n.seqId ≠ 0) (hrb : r ≤ b) (hb : b < e.latest)
    (hm : e.heap b = some m) (hmz : m.seqId ≠ 0)
    (hseen : pointsFrom e r = seen ++ pointsFrom e (b + 1)) :
    idDifference m.seqId n.seqId + 1 = seen.length ∧ seen.length < 4294967296 := by
  obtain ⟨hdiff, hsmall⟩ := hT.idDifference_eq hrb hn hz hm hmz
  obtain ⟨ts, -, -, hcons⟩ := hT.pointsFrom_cons hm hb hmz
  rw [hseen, hcons, List.length_cons, List.length_append] at hdiff
  rw [hseen, List.length_append] at hsmall
  omega

/-- A tick is not in a gap when the last node that is not too late is none. -/
theorem not_inGap {b : ℕ} {m : UChannelEntryData D} (hT : Tidy e) (hmono : NonDecreasing e)
    (hb : b < e.latest) (hm : e.heap b = some m) (hmz : m.seqId ≠ 0) (hmt : m.timeOrTimeEnd ≤ t)
    (hlate : ∀ x k, b < x → x < e.latest → e.heap x = some k → t < k.timeOrTimeEnd) :
    ¬ InGap e t := by
  rintro ⟨a, g, k, hg, hgz, hk, hgt, htk⟩
  have hlt := (hT.behind_gap hg hgz).1
  rcases Nat.lt_trichotomy a b with h | rfl | h
  · have := hmono (a + 1) b k m h hb hk hm
    omega
  · exact hmz (Option.some.inj (hg.symm.trans hm) ▸ hgz)
  · have := hlate a g h hlt hg
    omega

/-- The reads that succeed are as many as the points that are not too late, when no data was taken
from these. -/
theorem length_readable {seen rest : List (Point D)} (hseen : ∀ p ∈ seen, p.1.1 ≤ t)
    (hrest : ∀ p ∈ rest, t < p.1.1) :
    (readable t (seen ++ rest)).length = seen.length ↔
      ∀ p ∈ seen ++ rest, p.1.1 ≤ t → p.2.isSome := by
  have hvisible : readable t (seen ++ rest) = seen.takeWhile fun p => p.2.isSome := by
    have hstop : rest.takeWhile (fun p => decide (p.1.1 ≤ t) && p.2.isSome) = [] := by
      cases rest with
      | nil => rfl
      | cons p rest =>
        have := hrest p List.mem_cons_self
        rw [List.takeWhile_cons, if_neg (by simp; omega)]
    induction seen with
    | nil => exact hstop
    | cons p seen ih =>
      have hp := hseen p List.mem_cons_self
      have ih := ih fun q hq => hseen q (List.mem_cons_of_mem p hq)
      rw [readable] at ih ⊢
      rw [List.cons_append, List.takeWhile_cons, List.takeWhile_cons, ih]
      simp [hp]
  have hall : (seen.takeWhile fun p => p.2.isSome).length = seen.length ↔
      ∀ p ∈ seen, p.2.isSome := by
    rw [← List.takeWhile_eq_self_iff]
    exact ⟨(List.takeWhile_prefix _).eq_of_length, congrArg List.length⟩
  rw [hvisible, hall]
  constructor
  · intro h p hp hle
    rcases List.mem_append.mp hp with hp | hp
    · exact h p hp
    · exact absurd hle (Nat.not_le.mpr (hrest p hp))
  · exact fun h p hp => h p (List.mem_append_left _ hp) (hseen p hp)

/-! ### Agreement -/

theorem atGap_eq {n : UChannelEntryData D} (hn : e.heap r = some n) :
    atGap e r = decide (n.seqId = 0) := by
  simp [atGap, hn]

theorem haveVisibleSets_eq {n : UChannelEntryData D} (hn : e.heap r = some n) :
    haveVisibleSets e t r = .ok (n.data.isSome && decide (n.timeOrTimeEnd ≤ t)) := by
  rw [haveVisibleSets]
  refine bind_eq_ok.mpr ⟨n, deref_eq_ok.mpr hn, ?_⟩
  cases n.data with
  | none => rfl
  | some d =>
    refine congrArg Except.ok ?_
    rw [Bool.eq_iff_iff]
    simp [afterTick]

/-- The reads that succeed. -/
theorem Tidy.readsBeforeNull (hT : Tidy e) (hR : Reader e i r c) :
    Entry.readsBeforeNull i t (e.latest + 1) e c =
      .ok (if e.valid then (readable t (pointsFrom e r)).length else 0) := by
  cases hv : e.valid with
  | false => exact readsBeforeNull_of_invalid hv
  | true =>
    exact readsBeforeNull_eq hT hR hv (Nat.lt_succ_of_le (length_pointsFrom_le e r))

/-- At a node without data, or too late, nothing is counted. -/
theorem setsAgree_iff_of_nothing {n : UChannelEntryData D} (hT : Tidy e) (hR : Reader e i r c)
    (hn : e.heap r = some n) (h : n.data = none ∨ t < n.timeOrTimeEnd) :
    SetsAgree e i r c t ↔ (e.valid = true → readable t (pointsFrom e r) = []) := by
  have hhave : haveVisibleSets e t r = .ok false := by
    rw [haveVisibleSets_eq hn]
    rcases h with h | h <;> simp [h]
  have hiff : SetsAgree e i r c t ↔
      (if e.valid then (readable t (pointsFrom e r)).length else 0) = 0 := by
    rw [SetsAgree, hT.readsBeforeNull hR, getNumVisibleSets_zero hT hn h, hhave]
    constructor
    · rintro ⟨k, hk, hzero, -⟩
      exact Except.ok.inj (hk.trans hzero.symm)
    · exact fun hzero => ⟨0, congrArg Except.ok hzero, rfl, rfl⟩
  rw [hiff]
  cases e.valid <;> simp

/-- At a node with data that is not too late, the count is right when the tick is not in a gap. -/
theorem setsAgree_iff_of_visible {n : UChannelEntryData D} (hT : Tidy e) (hR : Reader e i r c)
    (hmono : NonDecreasing e) (hn : e.heap r = some n) (hd : n.data ≠ none)
    (ht : n.timeOrTimeEnd ≤ t) :
    SetsAgree e i r c t ↔ e.valid = true ∧ ¬ InGap e t ∧
      ∀ p ∈ pointsFrom e r, p.1.1 ≤ t → p.2.isSome := by
  have hhave : haveVisibleSets e t r = .ok true := by
    rw [haveVisibleSets_eq hn, Option.isSome_iff_ne_none.mpr hd, decide_eq_true ht]
    rfl
  obtain ⟨b, m, hrb, hb, hm, hmt, hlate, hcount⟩ := getNumVisibleSets_of_visible hT hn hd ht
  have hz : n.seqId ≠ 0 := fun hz => hd (hT.ordered.gap_data r n hn hz)
  obtain ⟨ts, -, -, hcons⟩ := hT.pointsFrom_cons hn (by omega) hz
  obtain ⟨l, hl⟩ := hT.linked.exists_latest
  have hsmall := (hT.ordered.last l hl).2.2
  have hids := seqId_add_length hT.linked hT.ordered hl hn (by omega) hz
  have hiff : SetsAgree e i r c t ↔ e.valid = true ∧ (readable t (pointsFrom e r)).length ≠ 0 ∧
      (readable t (pointsFrom e r)).length =
        (idDifference m.seqId n.seqId + 1) % 4294967296 := by
    rw [SetsAgree, hT.readsBeforeNull hR, hcount, hhave]
    constructor
    · rintro ⟨k, hk, hk', hpos⟩
      have hk := Except.ok.inj hk
      have hpos := of_decide_eq_true (Except.ok.inj hpos).symm
      cases hv : e.valid with
      | false =>
        rw [hv, if_neg Bool.false_ne_true] at hk
        omega
      | true =>
        rw [hv, if_pos rfl] at hk
        exact ⟨rfl, by omega, hk.trans (Except.ok.inj hk').symm⟩
    · rintro ⟨hv, hne, heq⟩
      rw [hv, if_pos rfl]
      exact ⟨_, rfl, congrArg Except.ok heq.symm,
        congrArg Except.ok (decide_eq_true (Nat.pos_of_ne_zero hne)).symm⟩
  rw [hiff, and_congr_right_iff]
  intro hv
  by_cases hmz : m.seqId = 0
  · -- the tick is in the gap at `b`, and the difference wraps around
    obtain ⟨-, -, k, hk, -⟩ := hT.behind_gap hm hmz
    have hbr : b ≠ r := fun h => hz (by
      subst h
      rw [Option.some.inj (hn.symm.trans hm)]
      exact hmz)
    have hlt := (hT.ordered.gap_lt b m hm hmz).resolve_left (by omega)
    have hgap : InGap e t := ⟨b, m, k, hm, hmz, hk, hmt, hlate (b + 1) k (by omega) hlt hk⟩
    have hle : (readable t (pointsFrom e r)).length ≤ (pointsFrom e r).length :=
      (List.takeWhile_prefix _).length_le
    have hlen := congrArg List.length hcons
    rw [List.length_cons] at hlen
    constructor
    · rintro ⟨hne, heq⟩
      rw [hmz, idDifference] at heq
      omega
    · exact fun h => absurd hgap h.1
  · obtain ⟨seen, hseen, hvis, hrest⟩ := pointsFrom_visible hmono hrb hb hm hmt hlate
    obtain ⟨hlen, hsmall'⟩ := length_seen hT hn hz hrb hb hm hmz hseen
    have hgap := not_inGap hT hmono hb hm hmz hmt hlate
    rw [hlen, Nat.mod_eq_of_lt hsmall', hseen, length_readable hvis hrest]
    constructor
    · exact fun h => ⟨hgap, h.2⟩
    · rintro ⟨-, h⟩
      have hall := (length_readable hvis hrest).mpr h
      exact ⟨by omega, h⟩

/-- The answers agree with reading just in the cases that are named above. -/
theorem Tidy.setsAgree_iff (hT : Tidy e) (hR : Reader e i r c) (hmono : NonDecreasing e) :
    SetsAgree e i r c t ↔ SetsAgreeWhen e r t := by
  obtain ⟨n, hn, -⟩ := hR.exists_node hT
  rw [SetsAgreeWhen, ← readable_eq_nil, atGap_eq hn]
  by_cases hz : n.seqId = 0
  · rw [setsAgree_iff_of_nothing hT hR hn (.inl (hT.ordered.gap_data r n hn hz))]
    cases e.valid <;> simp [hz]
  by_cases hnothing : n.data = none ∨ t < n.timeOrTimeEnd
  · rw [setsAgree_iff_of_nothing hT hR hn hnothing]
    have hnil : readable t (pointsFrom e r) = [] := by
      rw [readable_eq_nil]
      rcases (hR.range hT).2.lt_or_eq with hlt | rfl
      · obtain ⟨ts, -, hts, hcons⟩ := hT.pointsFrom_cons hn hlt hz
        rw [hcons]
        rintro p ⟨⟩ hle
        have hle : ts.1 ≤ t := hle
        exact hnothing.resolve_right (by omega)
      · simp
    simp [hnil]
  · rw [not_or, Nat.not_lt] at hnothing
    rw [setsAgree_iff_of_visible hT hR hmono hn hnothing.1 hnothing.2]
    have hlt : r < e.latest := by
      rcases (hR.range hT).2.lt_or_eq with h | rfl
      · exact h
      · exact absurd (hT.ordered.last n hn).1 hnothing.1
    obtain ⟨ts, -, hts, hcons⟩ := hT.pointsFrom_cons hn hlt hz
    have hne : readable t (pointsFrom e r) ≠ [] := fun hnil => by
      rw [readable_eq_nil, hcons] at hnil
      exact hnothing.1 (hnil (ts, n.data) rfl (hts ▸ hnothing.2))
    cases e.valid <;> simp [hz, hne]

/-- The times of a stream do not decrease. -/
theorem Tidy.nonDecreasing (hT : Tidy e) (hev : e.eventtype = false) : NonDecreasing e :=
  fun _ _ _ _ hab _ hn hm => hT.ordered.time_le hT.linked hev hab hn hm

/-- In each state after a run of careful operations, with fewer than `2 ^ 32 - 1` writes, the
answers that a reader gets agree with its reading in these cases and in no other. -/
theorem visibleSets_agree_iff_of_run {writer eventtype fullpackmode : Bool} {nreservations : ℕ}
    {ops : List (Op D)} (hcare : Allowed (advance conv) Careful
      (UChannelEntry.create writer eventtype fullpackmode nreservations) ops)
    (hw : writes ops < 4294967295) (hrun : exec (advance conv)
      (UChannelEntry.create writer eventtype fullpackmode nreservations) ops = .ok e)
    (hmono : NonDecreasing e) (hR : Reader e i r c) (t : ℕ) :
    SetsAgree e i r c t ↔ SetsAgreeWhen e r t :=
  (tidy_of_run hcare hw hrun).setsAgree_iff hR hmono

/-- A stream with a reader, and two points with a gap between them. -/
def pointsAroundGap : List (Op ℕ) :=
  [.setValid 1, .link true 0 0, .newData 5 (.of 0 10 zero_ten) true,
    .newData 6 (.of 20 30 twenty_thirty) true]

theorem visibleSets_agree_iff_around_gap :
    ∃ e c, exec (advance (.verbatim ℕ)) (UChannelEntry.create true false false 0)
      pointsAroundGap = .ok e ∧ Reader e 0 1 c ∧ (SetsAgree e 0 1 c 25 ↔ SetsAgreeWhen e 1 25) := by
  obtain ⟨e, he, htest⟩ := exists_of_endsIn (advance (.verbatim ℕ))
    (UChannelEntry.create true false false 0) pointsAroundGap
    (fun e => readerTest e 0 1 && !e.eventtype) (by decide +kernel)
  rw [Bool.and_eq_true, Bool.not_eq_true'] at htest
  obtain ⟨c, hR⟩ := exists_reader_of_test htest.1
  have hcare : Allowed (advance (.verbatim ℕ)) Careful (UChannelEntry.create true false false 0)
      pointsAroundGap :=
    (@allowed_of_checks _ _ _ _ _ _ _ (fun e op => decide (Careful e op)))
      (fun _ _ h => of_decide_eq_true h) (by decide +kernel)
  exact ⟨e, c, he, hR, visibleSets_agree_iff_of_run hcare (by decide) he
    ((tidy_of_run hcare (by decide) he).nonDecreasing htest.2) hR 25⟩

/-- One read succeeds, but no point is counted. -/
def miscounts (e : UChannelEntry ℕ) (r t : ℕ) : Bool :=
  (e.clients[0]?).any fun c =>
    (readsBeforeNull 0 t (e.latest + 1) e c).toOption = some 1 &&
      (getNumVisibleSets e t r).toOption = some 0

theorem not_setsAgree_of_miscounts {e : UChannelEntry ℕ} {c : Client} (hR : Reader e 0 r c)
    (h : miscounts e r t = true) : ¬ SetsAgree e 0 r c t := by
  rintro ⟨k, hk, hk', -⟩
  rw [miscounts, hR.record, Option.any_some, hk, hk'] at h
  simp only [Except.toOption, Bool.and_eq_true, decide_eq_true_eq, Option.some.injEq] at h
  omega

/-- The answer is wrong for a reader that stands at a gap; and so it is for a tick in a gap. -/
theorem not_setsAgree_at_gap :
    (∃ e c, exec (advance (.verbatim ℕ)) (UChannelEntry.create true false false 0)
      (pointsAroundGap ++ [.accessData 0 25, .releaseData 0]) = .ok e ∧ NonDecreasing e ∧
      Reader e 0 2 c ∧ ¬ SetsAgree e 0 2 c 25) ∧
    ∃ e c, exec (advance (.verbatim ℕ)) (UChannelEntry.create true false false 0)
      pointsAroundGap = .ok e ∧ NonDecreasing e ∧ Reader e 0 1 c ∧ ¬ SetsAgree e 0 1 c 15 := by
  constructor
  · obtain ⟨e, he, htest⟩ := exists_of_endsIn (advance (.verbatim ℕ))
      (UChannelEntry.create true false false 0)
      (pointsAroundGap ++ [.accessData 0 25, .releaseData 0])
      (fun e => !e.eventtype && (readerTest e 0 2 && miscounts e 2 25)) (by decide +kernel)
    simp only [Bool.and_eq_true, Bool.not_eq_true'] at htest
    obtain ⟨c, hR⟩ := exists_reader_of_test htest.2.1
    exact ⟨e, c, he, (tidy_of_checks (by decide +kernel) (by decide) he).nonDecreasing htest.1, hR,
      not_setsAgree_of_miscounts hR htest.2.2⟩
  · obtain ⟨e, he, htest⟩ := exists_of_endsIn (advance (.verbatim ℕ))
      (UChannelEntry.create true false false 0) pointsAroundGap
      (fun e => !e.eventtype && (readerTest e 0 1 && miscounts e 1 15)) (by decide +kernel)
    simp only [Bool.and_eq_true, Bool.not_eq_true'] at htest
    obtain ⟨c, hR⟩ := exists_reader_of_test htest.2.1
    exact ⟨e, c, he, (tidy_of_checks (by decide +kernel) (by decide) he).nonDecreasing htest.1, hR,
      not_setsAgree_of_miscounts hR htest.2.2⟩

end Dueca.Entry
