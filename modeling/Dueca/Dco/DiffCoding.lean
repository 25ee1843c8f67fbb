import Dueca.Lib.Flagged
import Dueca.Dco.Diff

/-!
# What a packed difference gives back

The flags of `IndexMemory` are groups of flagged items: each call of `changed` begins an item,
and what is packed behind it are its symbols. A difference between two values is a list of
items that does not depend on what else is in the store, and a receiver that takes these items
ends with a value equal to the one packed, if its own value agrees with it wherever the
reference does.
-/

namespace Dueca.Dco

open Dueca.Lib

/-- A member or an element: whether it is different, and what is packed for it. -/
abbrev Item := Bool × Bytes

/-- The items so far are packed behind `s0`. -/
def Holds (s0 : Bytes) (w : GroupWriter UInt8) (st : IndexMemory × Bytes) : Prop :=
  match w.last with
  | none => w.closed = [] ∧ st = ({}, s0)
  | some (d, n, p) =>
    n < 128 ∧ st = (⟨some (s0 ++ w.closed).length, d, some n⟩, s0 ++ w.closed ++ 0 :: p)

abbrev pushAll (w : GroupWriter UInt8) (items : List Item) : GroupWriter UInt8 :=
  GroupWriter.pushAll flagByte 128 w items

abbrev push (w : GroupWriter UInt8) (x : Item) : GroupWriter UInt8 :=
  GroupWriter.push flagByte 128 w x

/-- Items are before a receiver, and behind them `tail`. -/
def Ahead (items : List Item) (tail : Bytes) (st : IndexRecall × Bytes) : Prop :=
  Grouped.Ahead flagByte 128 items tail st.1.count st.1.differs st.2

/-! ### Flags -/

theorem placeData_append (i b : UInt8) (s t : Bytes) :
    placeData i s.length (s ++ b :: t) = .ok (s ++ i :: t) := by
  rw [placeData, if_pos (by simp)]
  simp

theorem Holds.closeoff {s0 : Bytes} {w : GroupWriter UInt8} {im : IndexMemory} {s : Bytes}
    (h : Holds s0 w (im, s)) (hlast : w.last ≠ none) :
    im.closeoff s = .ok (s0 ++ w.finish flagByte) := by
  unfold Holds at h
  split at h
  · contradiction
  · rename_i d n p hw
    obtain ⟨rfl, rfl⟩ := Prod.mk.inj h.2
    simp only [IndexMemory.closeoff, Option.getD_some, GroupWriter.finish, hw]
    rw [placeData_append, List.append_assoc]

/-- Marking a member begins an item. -/
theorem Holds.changed {s0 : Bytes} {w : GroupWriter UInt8} {im : IndexMemory} {s : Bytes}
    (h : Holds s0 w (im, s)) (diff : Bool) :
    ∃ im' s', im.changed s diff = .ok (im', s') ∧
      ∀ p, Holds s0 (push w (diff, p)) (im', s' ++ p) := by
  cases hw : w.last with
  | none =>
    simp only [Holds, hw] at h
    obtain ⟨hclosed, hst⟩ := h
    obtain ⟨rfl, rfl⟩ := Prod.mk.inj hst
    refine ⟨_, _, rfl, fun p => ?_⟩
    simp only [push, GroupWriter.push, hw, Holds, hclosed, List.append_nil]
    exact ⟨by decide, by rw [List.append_assoc, List.singleton_append]⟩
  | some x =>
    obtain ⟨d, n, q⟩ := x
    have hclose := h.closeoff (by rw [hw]; nofun)
    simp only [Holds, hw] at h
    obtain ⟨hn, hst⟩ := h
    obtain ⟨rfl, rfl⟩ := Prod.mk.inj hst
    by_cases hsame : d = diff ∧ n ≠ 0x7f
    · -- one more for the open flag byte
      refine ⟨⟨some (s0 ++ w.closed).length, d, some (n + 1)⟩, s0 ++ w.closed ++ 0 :: q,
        if_pos hsame, fun p => ?_⟩
      have hroom : d = (diff, p).1 ∧ n + 1 < 128 := ⟨hsame.1, by omega⟩
      simp only [push, GroupWriter.push, hw, if_pos hroom, Holds]
      exact ⟨hroom.2, by rw [List.append_assoc, List.cons_append]⟩
    · refine ⟨⟨some (s0 ++ w.finish flagByte).length, diff, some 0⟩,
        s0 ++ w.finish flagByte ++ [0], ?_, fun p => ?_⟩
      · simp only [IndexMemory.changed, if_neg hsame, hclose]
        rfl
      · have hroom : ¬ (d = (diff, p).1 ∧ n + 1 < 128) :=
          fun hr => hsame ⟨hr.1, by omega⟩
        simp only [push, GroupWriter.push, hw, if_neg hroom, Holds]
        exact ⟨by decide, by rw [List.append_assoc, List.singleton_append]⟩

theorem flagByte_decodes :
    ∀ d : Bool, ∀ n < 128, decide (flagByte d n &&& 0x80 = 0x80) = d ∧
      (flagByte d n &&& 0x7f).toNat = n := by
  decide +kernel

/-- Recalling a member takes an item. -/
theorem Ahead.changed {e : Bool} {p : Bytes} {items : List Item} {tail : Bytes}
    {im : IndexRecall} {s : Bytes} (h : Ahead ((e, p) :: items) tail (im, s)) :
    ∃ im' s', im.changed s = .ok (e, im', p ++ s') ∧ Ahead items tail (im', s') := by
  obtain ⟨count, differs⟩ := im
  cases count with
  | zero =>
    obtain ⟨n, rest, hs, hn, hrest⟩ := Grouped.Ahead.between h
    obtain rfl : s = flagByte e n :: (p ++ rest) := hs
    obtain ⟨hd, hc⟩ := flagByte_decodes e n hn
    refine ⟨⟨n, e⟩, rest, ?_, hrest⟩
    rw [IndexRecall.changed, if_pos rfl, unPackNat_byte]
    change Except.ok (decide (UInt8.ofNat (flagByte e n).toNat &&& 0x80 = 0x80),
      (⟨(UInt8.ofNat (flagByte e n).toNat &&& 0x7f).toNat,
        decide (UInt8.ofNat (flagByte e n).toNat &&& 0x80 = 0x80)⟩ : IndexRecall), p ++ rest) = _
    rw [UInt8.ofNat_toNat, hd, hc]
  | succ count =>
    obtain ⟨rfl, rest, hs, hrest⟩ := Grouped.Ahead.within h
    obtain rfl : s = p ++ rest := hs
    exact ⟨⟨count, e⟩, rest, if_neg (Nat.succ_ne_zero count), hrest⟩

/-- Equal elements fill groups of 128. -/
theorem pushAll_same (n : ℕ) :
    pushAll {} (List.replicate (n + 1) (false, [])) =
      ⟨List.replicate (n / 128) 0x7f, some (false, n % 128, [])⟩ := by
  induction n with
  | zero => rfl
  | succ n ih =>
    rw [List.replicate_succ', pushAll, GroupWriter.pushAll_append]
    rw [pushAll] at ih
    rw [ih, GroupWriter.pushAll_cons, GroupWriter.pushAll_nil, GroupWriter.push]
    by_cases hroom : n % 128 + 1 < 128
    · have hdiv : (n + 1) / 128 = n / 128 := by omega
      have hmod : (n + 1) % 128 = n % 128 + 1 := by omega
      simp only [hroom, and_self, if_true, hdiv, hmod, List.append_nil]
    · have hdiv : (n + 1) / 128 = n / 128 + 1 := by omega
      have hmod : (n + 1) % 128 = 0 := by omega
      have hfull : n % 128 = 127 := by omega
      simp only [hdiv, hmod, GroupWriter.finish, hfull, List.replicate_succ']
      rfl

theorem sameBytes_succ {passes n : ℕ} (h : n ≤ passes) :
    IndexMemory.sameBytes passes (n + 1) =
      List.replicate (n / 128) 0x7f ++ [UInt8.ofNat (n % 128)] := by
  induction passes generalizing n with
  | zero =>
    obtain rfl := Nat.le_zero.mp h
    rfl
  | succ passes ih =>
    rw [IndexMemory.sameBytes]
    by_cases hmore : n + 1 > 0x80
    · have hdiv : n / 128 = (n - 128) / 128 + 1 := by omega
      have hmod : n % 128 = (n - 128) % 128 := by omega
      have hsub : n + 1 - 0x80 = n - 128 + 1 := by omega
      rw [if_pos hmore, hsub, ih (by omega), hdiv, hmod, List.replicate_succ, List.cons_append]
    · have hdiv : n / 128 = 0 := by omega
      have hmod : n % 128 = n := by omega
      rw [if_neg hmore, hdiv, hmod, Nat.add_sub_cancel]
      rfl

/-- Marking the first element that is different is the same as marking all elements up to
it. -/
theorem holds_firstchange (s : Bytes) (nsame : ℕ) (p : Bytes) :
    Holds s (push (pushAll {} (List.replicate nsame (false, []))) (true, p))
      ((IndexMemory.firstchange s nsame).1, (IndexMemory.firstchange s nsame).2 ++ p) := by
  cases nsame with
  | zero =>
    simp only [List.replicate_zero, pushAll, GroupWriter.pushAll_nil, push, GroupWriter.push,
      Holds, IndexMemory.firstchange]
    exact ⟨by decide, by simp⟩
  | succ n =>
    rw [pushAll_same]
    simp only [push, GroupWriter.push, Holds, IndexMemory.firstchange, GroupWriter.finish,
      Bool.false_eq_true, false_and, if_false, Nat.succ_ne_zero, sameBytes_succ (Nat.le_succ n)]
    refine ⟨by decide, ?_⟩
    simp [flagByte]

/-! ### The templates -/

section Templates

variable {n : ℕ} {α β : Type} [BEq α] [BEq β] {T : PackTraits α} {P : α → Prop}

/-- An operation that packs these items. -/
def Packs (f : IndexMemory × Bytes → Except StoreFault (IndexMemory × Bytes))
    (items : List Item) : Prop :=
  ∀ s0 w st, Holds s0 w st → ∃ st', f st = .ok st' ∧ Holds s0 (pushAll w items) st'

/-- An operation that takes these items, and ends with a value equal to `m`. -/
def Unpacks (f : IndexRecall × Bytes → Except StoreFault (α × IndexRecall × Bytes))
    (items : List Item) (m : α) : Prop :=
  ∀ more tail st, Ahead (items ++ more) tail st →
    ∃ q st', f st = .ok (q, st') ∧ (q == m) = true ∧ Ahead more tail st'

theorem Packs.bind {f g : IndexMemory × Bytes → Except StoreFault (IndexMemory × Bytes)}
    {xs ys : List Item} (hf : Packs f xs) (hg : Packs g ys) :
    Packs (fun st => f st >>= g) (xs ++ ys) := by
  intro s0 w st h
  obtain ⟨st1, hst1, h1⟩ := hf s0 w st h
  obtain ⟨st2, hst2, h2⟩ := hg s0 _ st1 h1
  refine ⟨st2, by simp only [hst1]; exact hst2, ?_⟩
  rwa [pushAll, GroupWriter.pushAll_append]

theorem Unpacks.ok {q m : α} (h : (q == m) = true) : Unpacks (fun st => .ok (q, st)) [] m :=
  fun _ _ st hahead => ⟨q, st, rfl, h, hahead⟩

/-- The item for a value that is packed as a whole. -/
def singleItem (T : PackTraits α) (m r : α) : Item :=
  if m == r then (false, []) else (true, T.packobject m)

theorem packs_single (m r : α) : Packs (packDiffSingle T m r) [singleItem T m r] := by
  rintro s0 w ⟨im, s⟩ h
  unfold packDiffSingle singleItem
  split
  · obtain ⟨im', s', hchanged, hpush⟩ := h.changed false
    have h' := hpush []
    rw [List.append_nil] at h'
    exact ⟨_, hchanged, h'⟩
  · obtain ⟨im', s', hchanged, hpush⟩ := h.changed true
    exact ⟨_, by simp only [hchanged]; rfl, hpush (T.packobject m)⟩

theorem unpacks_single (hT : T.Lawful P) {m r q : α} (hm : P m)
    (hagrees : (m == r) = true → (q == m) = true) :
    Unpacks (unpackDiffSingle T q) [singleItem T m r] m := by
  rintro more tail ⟨im, s⟩ h
  by_cases hmr : (m == r) = true
  · rw [singleItem, if_pos hmr, List.singleton_append] at h
    obtain ⟨im', s', hchanged, hrest⟩ := h.changed
    exact ⟨q, (im', s'), by simp only [unpackDiffSingle, hchanged]; rfl, hagrees hmr, hrest⟩
  · rw [singleItem, if_neg hmr, List.singleton_append] at h
    obtain ⟨im', s', hchanged, hrest⟩ := h.changed
    obtain ⟨q', hq, hbeq⟩ := hT q m s' hm
    refine ⟨q', (im', s'), ?_, hbeq, hrest⟩
    simp only [unpackDiffSingle, hchanged]
    change (T.unpackobject q (T.packobject m ++ s') >>= _) = _
    rw [hq]
    rfl

/-! ### Arrays -/

/-- The items of an array, element by element. -/
def arrayItems (T : PackTraits α) : List α → List α → List Item
  | [], _ => []
  | m :: ms, rs =>
    (if elementDiffers m rs then (true, T.packobject m) else (false, [])) ::
      arrayItems T ms rs.tail

/-- Whether all elements are the same as the reference elements. -/
def allSame : List α → List α → Bool
  | [], _ => true
  | m :: ms, rs => !elementDiffers m rs && allSame ms rs.tail

/-- The item for an array of given size. -/
def fixedItem (T : PackTraits α) (ms rs : List α) : Item :=
  if allSame ms rs then (false, []) else (true, GroupWriter.groups flagByte 128 (arrayItems T ms rs))

/-- Once an element was different, each element is an item of the array. -/
theorem packDiffLoop_differs {s : Bytes} (ms rs : List α) (ii : ℕ) (im : IndexMemory)
    {w : GroupWriter UInt8} {arrayidx : IndexMemory} {s1 : Bytes} (h : Holds s w (arrayidx, s1)) :
    ∃ arrayidx' s2, packDiffLoop T ms rs ii false im (arrayidx, s1) =
        .ok (false, im, arrayidx', s2) ∧
      Holds s (pushAll w (arrayItems T ms rs)) (arrayidx', s2) := by
  induction ms generalizing rs ii w arrayidx s1 with
  | nil => exact ⟨arrayidx, s1, rfl, h⟩
  | cons m ms ih =>
    rw [packDiffLoop, arrayItems]
    by_cases hdiff : elementDiffers m rs = true
    · obtain ⟨idx, s2, hchanged, hpush⟩ := h.changed true
      obtain ⟨idx', s3, hloop, hrest⟩ := ih rs.tail (ii + 1) (hpush (T.packobject m))
      refine ⟨idx', s3, ?_, by rwa [if_pos hdiff]⟩
      simp only [hdiff, if_true, hchanged]
      exact hloop
    · obtain ⟨idx, s2, hchanged, hpush⟩ := h.changed false
      have hnil := hpush []
      rw [List.append_nil] at hnil
      obtain ⟨idx', s3, hloop, hrest⟩ := ih rs.tail (ii + 1) hnil
      refine ⟨idx', s3, ?_, by rwa [if_neg hdiff]⟩
      simp only [hdiff, if_false, hchanged, Bool.false_eq_true]
      exact hloop

theorem packDiffLoop_same {ms rs : List α} (h : allSame ms rs = true) (ii : ℕ)
    (im : IndexMemory) (st : IndexMemory × Bytes) :
    packDiffLoop T ms rs ii true im st = .ok (true, im, st) := by
  induction ms generalizing rs ii with
  | nil => rfl
  | cons m ms ih =>
    rw [allSame, Bool.and_eq_true, Bool.not_eq_true'] at h
    simp only [packDiffLoop, h.1, if_true, Bool.false_eq_true, if_false]
    exact ih h.2 (ii + 1)

/-- The first element that is different begins the item of the array, in which all elements
up to it are marked. -/
theorem packDiffLoop_first {s0 : Bytes} {w : GroupWriter UInt8} {im : IndexMemory} {s : Bytes}
    (h : Holds s0 w (im, s)) (ms rs : List α) (ii : ℕ) (arrayidx : IndexMemory)
    (hdiff : allSame ms rs = false) :
    ∃ im' s' arrayidx' s2,
      packDiffLoop T ms rs ii true im (arrayidx, s) = .ok (false, im', arrayidx', s2) ∧
      (∀ p, Holds s0 (push w (true, p)) (im', s' ++ p)) ∧
      Holds s' (pushAll {} (List.replicate ii (false, []) ++ arrayItems T ms rs))
        (arrayidx', s2) := by
  induction ms generalizing rs ii with
  | nil => cases hdiff
  | cons m ms ih =>
    rw [packDiffLoop, arrayItems]
    by_cases hm : elementDiffers m rs = true
    · obtain ⟨im', s', hchanged, hpush⟩ := h.changed true
      have hfirst := holds_firstchange s' ii (T.packobject m)
      obtain ⟨idx', s2, hloop, hrest⟩ :=
        packDiffLoop_differs (T := T) ms rs.tail (ii + 1) im' hfirst
      refine ⟨im', s', idx', s2, ?_, hpush, ?_⟩
      · simp only [hm, if_true, hchanged]
        exact hloop
      · rwa [if_pos hm, pushAll, GroupWriter.pushAll_append]
    · rw [allSame, Bool.eq_false_iff.mpr hm, Bool.not_false, Bool.true_and] at hdiff
      obtain ⟨im', s', idx', s2, hloop, hpush, hrest⟩ := ih rs.tail (ii + 1) hdiff
      refine ⟨im', s', idx', s2, ?_, hpush, ?_⟩
      · simp only [hm, if_false, if_true, Bool.false_eq_true]
        exact hloop
      · rw [if_neg hm]
        rwa [List.replicate_succ', List.append_assoc, List.singleton_append] at hrest

theorem packs_fixedsize (ms rs : List α) :
    Packs (packDiffFixedsize T ms rs) [fixedItem T ms rs] := by
  rintro s0 w ⟨im, s⟩ h
  unfold packDiffFixedsize fixedItem
  by_cases hsame : allSame ms rs = true
  · obtain ⟨im', s', hchanged, hpush⟩ := h.changed false
    have h' := hpush []
    rw [List.append_nil] at h'
    rw [if_pos hsame]
    exact ⟨_, by simp only [packDiffLoop_same hsame]; exact hchanged, h'⟩
  · rw [Bool.not_eq_true] at hsame
    obtain ⟨im', s', idx', s2, hloop, hpush, hitems⟩ :=
      packDiffLoop_first (T := T) h ms rs 0 {} hsame
    have hne : arrayItems T ms rs ≠ [] := by
      cases ms with
      | nil => cases hsame
      | cons m ms => nofun
    have hclose := hitems.closeoff (GroupWriter.last_pushAll _ hne)
    refine ⟨(im', s' ++ GroupWriter.groups flagByte 128 (arrayItems T ms rs)), ?_, ?_⟩
    · simp only [hloop]
      change (idx'.closeoff s2 >>= _) = _
      rw [hclose]
      rfl
    · rw [hsame]
      exact hpush _

/-- Where an element is the same as the reference element, the element of the receiver is the
same too. -/
def AgreesAll : List α → List α → List α → Prop
  | m :: ms, r :: rs, q :: qs =>
    ((m == r) = true → (q == m) = true) ∧ AgreesAll ms rs qs
  | _, _, _ => True

theorem beq_of_allSame {ms rs qs : List α} (hsame : allSame ms rs = true)
    (hlen : qs.length = ms.length) (h : AgreesAll ms rs qs) : (qs == ms) = true := by
  induction ms generalizing rs qs with
  | nil =>
    obtain rfl := List.eq_nil_of_length_eq_zero hlen
    rfl
  | cons m ms ih =>
    obtain ⟨q, qs, rfl⟩ := List.exists_cons_of_length_eq_add_one hlen
    rw [allSame, Bool.and_eq_true, Bool.not_eq_true'] at hsame
    cases rs with
    | nil => cases hsame.1
    | cons r rs =>
      have hmr : (m == r) = true := by simpa [elementDiffers, bne] using hsame.1
      rw [List.cons_beq_cons, h.1 hmr, ih hsame.2 (Nat.succ.inj hlen) h.2]
      rfl

theorem unpackDiffLoop_items (hT : T.Lawful P) {ms rs qs : List α} (hms : ∀ m ∈ ms, P m)
    (hlen : qs.length = ms.length) (hagrees : AgreesAll ms rs qs) {tail : Bytes}
    {st : IndexRecall × Bytes} (h : Ahead (arrayItems T ms rs) tail st) :
    ∃ qs' im, unpackDiffLoop T qs st = .ok (qs', im, tail) ∧ (qs' == ms) = true := by
  induction ms generalizing rs qs st with
  | nil =>
    obtain rfl := List.eq_nil_of_length_eq_zero hlen
    obtain ⟨im, s⟩ := st
    obtain rfl : s = tail := Grouped.Ahead.nil h
    exact ⟨[], im, rfl, rfl⟩
  | cons m ms ih =>
    obtain ⟨q, qs, rfl⟩ := List.exists_cons_of_length_eq_add_one hlen
    obtain ⟨im, s⟩ := st
    rw [arrayItems] at h
    have hrest : AgreesAll ms rs.tail qs := by
      cases rs with
      | nil => cases ms <;> trivial
      | cons r rs => exact hagrees.2
    by_cases hdiff : elementDiffers m rs = true
    · rw [if_pos hdiff] at h
      obtain ⟨im', s', hchanged, hahead⟩ := h.changed
      obtain ⟨q', hq, hqm⟩ := hT q m s' (hms m List.mem_cons_self)
      obtain ⟨qs', im2, hqs, hbeq⟩ :=
        ih (fun b hb => hms b (List.mem_cons_of_mem _ hb)) (Nat.succ.inj hlen) hrest hahead
      refine ⟨q' :: qs', im2, ?_, by rw [List.cons_beq_cons, hqm, hbeq]; rfl⟩
      simp only [unpackDiffLoop, hchanged]
      change (T.unpackobject q (T.packobject m ++ s') >>= _) = _
      rw [hq]
      change (unpackDiffLoop T qs (im', s') >>= _) = _
      rw [hqs]
      rfl
    · rw [if_neg hdiff] at h
      obtain ⟨im', s', hchanged, hahead⟩ := h.changed
      obtain ⟨qs', im2, hqs, hbeq⟩ :=
        ih (fun b hb => hms b (List.mem_cons_of_mem _ hb)) (Nat.succ.inj hlen) hrest hahead
      have hqm : (q == m) = true := by
        cases rs with
        | nil => exact absurd rfl hdiff
        | cons r rs =>
          refine hagrees.1 ?_
          simpa [elementDiffers, bne] using hdiff
      refine ⟨q :: qs', im2, ?_, by rw [List.cons_beq_cons, hqm, hbeq]; rfl⟩
      simp only [unpackDiffLoop, hchanged]
      change (unpackDiffLoop T qs (im', s') >>= _) = _
      rw [hqs]
      rfl

theorem unpacks_fixedsize (hT : T.Lawful P) {ms rs qs : List α} (hms : ∀ m ∈ ms, P m)
    (hlen : qs.length = ms.length) (hagrees : AgreesAll ms rs qs) :
    Unpacks (unpackDiffFixedsize T qs) [fixedItem T ms rs] ms := by
  rintro more tail ⟨im, s⟩ h
  by_cases hsame : allSame ms rs = true
  · rw [fixedItem, if_pos hsame, List.singleton_append] at h
    obtain ⟨im', s', hchanged, hahead⟩ := h.changed
    exact ⟨qs, (im', s'), by simp only [unpackDiffFixedsize, hchanged]; rfl,
      beq_of_allSame hsame hlen hagrees, hahead⟩
  · rw [fixedItem, if_neg hsame, List.singleton_append] at h
    obtain ⟨im', s', hchanged, hahead⟩ := h.changed
    have hgroups : Grouped flagByte 128 (arrayItems T ms rs) _ := GroupWriter.grouped (by decide) _
    have hbegin : Ahead (arrayItems T ms rs) s' ({}, _ ++ s') := hgroups.ahead
    obtain ⟨qs', im2, hqs, hbeq⟩ := unpackDiffLoop_items hT hms hlen hagrees hbegin
    refine ⟨qs', (im', s'), ?_, hbeq, hahead⟩
    simp only [unpackDiffFixedsize, hchanged]
    change (unpackDiffLoop T qs ({}, GroupWriter.groups flagByte 128 (arrayItems T ms rs) ++ s')
      >>= _) = _
    rw [hqs]
    rfl

/-! ### Differences of any type -/

/-- A difference that is packed takes any value that agrees to the value packed. The items are
not empty when `N` holds. -/
def DiffTraits.Transfers (D : DiffTraits α) (P : α → Prop) (A : α → α → α → Prop) (N : Prop) :
    Prop :=
  ∀ m r, P m → ∃ items : List Item, (N → items ≠ []) ∧
    Packs (D.checkandpackdiff m r) items ∧
    ∀ q, A m r q → Unpacks (D.checkandunpackdiff q) items m

/-- What agrees for a value that is packed as a whole. -/
def AgreesSingle (m r q : α) : Prop := (m == r) = true → (q == m) = true

/-- What agrees for a vector: its size too, when this is not sent. -/
def AgreesVector (fresh : α) (m r q : List α) : Prop :=
  (m.length % 2 ^ 32 = r.length % 2 ^ 32 → q.length = m.length) ∧
    AgreesAll m r (resize fresh q m.length)

/-- What agrees for an optional value. -/
def AgreesOptional (A : α → α → α → Prop) (m r q : FixOptional α) : Prop :=
  (m.valid = r.valid → q.valid = m.valid) ∧ (m.valid = true → A m.value r.value q.value)

variable {A : α → α → α → Prop} {Q : β → Prop} {B : β → β → β → Prop} {N : Prop}

theorem DiffTraits.Transfers.single (hT : T.Lawful P) :
    (DiffTraits.single T).Transfers P AgreesSingle True :=
  fun m r hm => ⟨[singleItem T m r], fun _ => List.cons_ne_nil _ _, packs_single m r,
    fun _ hq => unpacks_single hT hm hq⟩

theorem DiffTraits.Transfers.fixvector (hT : T.Lawful P) :
    (DiffTraits.fixvector T : DiffTraits (FixVector n α)).Transfers (fun v => ∀ a ∈ v.d, P a)
      (fun m r q => AgreesAll m.d r.d q.d) True := by
  refine fun m r hm => ⟨[fixedItem T m.d r.d], fun _ => List.cons_ne_nil _ _,
    packs_fixedsize m.d r.d, fun q hq more tail st h => ?_⟩
  obtain ⟨qs, st', hqs, hbeq, hrest⟩ :=
    unpacks_fixedsize hT hm (q.size_d.trans m.size_d.symm) hq more tail st h
  have hlen : qs.length = n := (length_eq_of_beq hbeq).trans m.size_d
  refine ⟨⟨qs, hlen⟩, st', ?_, hbeq, hrest⟩
  simp only [DiffTraits.fixvector, hqs]
  exact dif_pos hlen

theorem sizeTraits_lawful : sizeTraits.Lawful fun _ => True :=
  fun _ v rest _ => ⟨v, unPackBits_packBits 4 v rest, BEq.refl v⟩

theorem boolTraits_lawful : boolTraits.Lawful fun _ => True :=
  fun _ v rest _ => ⟨v, unPackBool_packBool v rest, BEq.refl v⟩

omit [BEq α] in
theorem resize_length (fresh : α) (as : List α) : resize fresh as as.length = as := by
  simp [resize]

theorem DiffTraits.Transfers.vector (hT : T.Lawful P) (fresh : α) :
    (DiffTraits.vector fresh T).Transfers (fun v => v.length < 2 ^ 32 ∧ ∀ a ∈ v, P a)
      (AgreesVector fresh) True := by
  intro m r hm
  have hpack := packs_single (T := sizeTraits) (BitVec.ofNat 32 m.length)
    (BitVec.ofNat 32 r.length)
  refine ⟨_, fun _ => List.append_ne_nil_of_left_ne_nil (List.cons_ne_nil _ _) _,
    hpack.bind (packs_fixedsize m r), fun q hq => ?_⟩
  have hagrees (hsize : (BitVec.ofNat 32 m.length == BitVec.ofNat 32 r.length) = true) :
      (BitVec.ofNat 32 q.length == BitVec.ofNat 32 m.length) = true := by
    -- the size is not sent: the one of the receiver is the same
    have heq : m.length % 2 ^ 32 = r.length % 2 ^ 32 := by
      have h := congrArg BitVec.toNat (eq_of_beq hsize)
      rwa [BitVec.toNat_ofNat, BitVec.toNat_ofNat] at h
    rw [hq.1 heq]
    exact BEq.refl _
  have hunpack : Unpacks (unpackDiffSingle sizeTraits (BitVec.ofNat 32 q.length))
      [singleItem sizeTraits (BitVec.ofNat 32 m.length) (BitVec.ofNat 32 r.length)]
      (BitVec.ofNat 32 m.length) := unpacks_single sizeTraits_lawful trivial hagrees
  intro more tail st h
  rw [List.append_assoc] at h
  obtain ⟨size, st1, hst1, hsize, hrest⟩ := hunpack _ tail st h
  have hlen : size.toNat = m.length := by
    rw [eq_of_beq hsize, BitVec.toNat_ofNat, Nat.mod_eq_of_lt hm.1]
  have hresize : (if size.toNat ≠ q.length then resize fresh q size.toNat else q) =
      resize fresh q m.length := by
    rw [hlen]
    split
    · rfl
    · rename_i heq
      rw [not_not.mp heq, resize_length]
  obtain ⟨qs, st2, hqs, hbeq, hrest'⟩ :=
    unpacks_fixedsize hT hm.2 (length_resize fresh q m.length) hq.2 more tail st1 hrest
  refine ⟨qs, st2, ?_, hbeq, hrest'⟩
  simp only [DiffTraits.vector, unpackDiffVector, hst1]
  rw [← hresize] at hqs
  exact hqs

theorem DiffTraits.Transfers.optional {D : DiffTraits α} (hD : D.Transfers P A N) :
    D.optional.Transfers (fun v => v.valid = true → P v.value) (AgreesOptional A) True := by
  rintro ⟨valid, m⟩ ⟨rvalid, r⟩ hm
  have hpack := packs_single (T := boolTraits) valid rvalid
  have hunpack (q : FixOptional α) (hq : valid = rvalid → q.valid = valid) :
      Unpacks (unpackDiffSingle boolTraits q.valid) [singleItem boolTraits valid rvalid] valid :=
    unpacks_single boolTraits_lawful trivial fun h => beq_iff_eq.mpr (hq (eq_of_beq h))
  cases valid with
  | false =>
    refine ⟨[singleItem boolTraits false rvalid], fun _ => List.cons_ne_nil _ _,
      fun s0 w st h => ?_, fun q hq more tail st h => ?_⟩
    · obtain ⟨st', hst, h'⟩ := hpack s0 w st h
      exact ⟨st', by simp only [DiffTraits.optional, packDiffOptional, hst]; rfl, h'⟩
    · obtain ⟨b, st', hb, hbeq, hrest⟩ := hunpack q hq.1 more tail st h
      obtain rfl : b = false := eq_of_beq hbeq
      refine ⟨⟨false, q.value⟩, st', ?_, fixOptional_beq_iff.mpr ⟨rfl, nofun⟩, hrest⟩
      simp only [DiffTraits.optional, unpackDiffOptional, hb]
      rfl
  | true =>
    obtain ⟨xs, -, hpack', hunpack'⟩ := hD m r (hm rfl)
    refine ⟨singleItem boolTraits true rvalid :: xs, fun _ => List.cons_ne_nil _ _,
      fun s0 w st h => ?_, fun q hq more tail st h => ?_⟩
    · obtain ⟨st1, hst1, h1⟩ := hpack s0 w st h
      obtain ⟨st2, hst2, h2⟩ := hpack' s0 _ st1 h1
      refine ⟨st2, ?_, h2⟩
      simp only [DiffTraits.optional, packDiffOptional, hst1]
      exact hst2
    · obtain ⟨b, st1, hb, hbeq, hrest⟩ := hunpack q hq.1 (xs ++ more) tail st h
      obtain rfl : b = true := eq_of_beq hbeq
      obtain ⟨v, st2, hv, hvm, hrest'⟩ := hunpack' q.value (hq.2 rfl) more tail st1 hrest
      refine ⟨⟨true, v⟩, st2, ?_, fixOptional_beq_iff.mpr ⟨rfl, fun _ => hvm⟩, hrest'⟩
      simp only [DiffTraits.optional, unpackDiffOptional, hb]
      change (D.checkandunpackdiff q.value st1 >>= _) = _
      rw [hv]
      rfl

theorem DiffTraits.Transfers.prod {D : DiffTraits α} {E : DiffTraits β}
    (hD : D.Transfers P A True) (hE : E.Transfers Q B N) :
    (D.prod E).Transfers (fun v => P v.1 ∧ Q v.2)
      (fun m r q => A m.1 r.1 q.1 ∧ B m.2 r.2 q.2) True := by
  rintro m r ⟨hm, hm'⟩
  obtain ⟨xs, hne, hpack, hunpack⟩ := hD m.1 r.1 hm
  obtain ⟨ys, -, hpack', hunpack'⟩ := hE m.2 r.2 hm'
  refine ⟨xs ++ ys, fun _ => List.append_ne_nil_of_left_ne_nil (hne trivial) _,
    hpack.bind hpack', fun q hq => ?_⟩
  intro more tail st h
  rw [List.append_assoc] at h
  obtain ⟨a, st1, ha, hbeq, hrest⟩ := hunpack q.1 hq.1 _ tail st h
  obtain ⟨b, st2, hb, hbeq', hrest'⟩ := hunpack' q.2 hq.2 more tail st1 hrest
  refine ⟨(a, b), st2, ?_, Bool.and_eq_true_iff.mpr ⟨hbeq, hbeq'⟩, hrest'⟩
  simp only [DiffTraits.prod, ha]
  change (E.checkandunpackdiff q.2 st1 >>= _) = _
  rw [hb]
  rfl

theorem DiffTraits.Transfers.unit :
    DiffTraits.unit.Transfers (fun _ => True) (fun _ _ _ => True) False :=
  fun m _ _ => ⟨[], False.elim, fun _ _ st h => ⟨st, rfl, h⟩,
    fun _ _ => Unpacks.ok (BEq.refl m)⟩

end Templates

/-! ### Objects -/

section Objects

variable (fresh : (t : Ty) → t.Val)

/-- Where a value is the same as the reference, that of the receiver is the same too. -/
def Ty.Agrees : (t : Ty) → t.Val → t.Val → t.Val → Prop
  | .fixvector n t => fun (m r q : FixVector n t.Val) => AgreesAll m.d r.d q.d
  | .vector t => AgreesVector (fresh t)
  | .optional t => AgreesOptional t.Agrees
  | _ => AgreesSingle

def Members.Agrees : (ms : Members) → ms.Val → ms.Val → ms.Val → Prop
  | .nil => fun _ _ _ => True
  | .cons _ t ms => fun (m r q : t.Val × ms.Val) =>
    t.Agrees fresh m.1 r.1 q.1 ∧ ms.Agrees m.2 r.2 q.2

def DcoClass.Agrees : (c : DcoClass) → c.Val → c.Val → c.Val → Prop
  | .root ms => ms.Agrees fresh
  | .derived parent ms => fun (m r q : parent.Val × ms.Val) =>
    parent.Agrees m.1 r.1 q.1 ∧ ms.Agrees fresh m.2 r.2 q.2

def Members.NonEmpty : Members → Prop
  | .nil => False
  | .cons _ _ _ => True

/-- Each class of the chain has members of its own. -/
def DcoClass.HasMembers : DcoClass → Prop
  | .root ms => ms.NonEmpty
  | .derived parent ms => parent.HasMembers ∧ ms.NonEmpty

/-- The difference of two values of a type gives the new value to a receiver that agrees. -/
theorem Ty.transfers (t : Ty) :
    (t.diffTraits fresh).Transfers t.Sized (t.Agrees fresh) True := by
  induction t using Ty.diffTraits.induct with
  | case1 n t => exact .fixvector (t.unpack_pack fresh)
  | case2 t => exact .vector (t.unpack_pack fresh) (fresh t)
  | case3 t ih => exact .optional ih
  | case4 t hfix hvec hopt =>
    have hsingle := DiffTraits.Transfers.single (t.unpack_pack fresh)
    cases t with
    | fixvector n t => exact (hfix n t rfl).elim
    | vector t => exact (hvec t rfl).elim
    | optional t => exact (hopt t rfl).elim
    | prim p => exact hsingle
    | list t => exact hsingle
    | map k t => exact hsingle
    | object c => exact hsingle

theorem Members.transfers (ms : Members) :
    (ms.diffTraits fresh).Transfers ms.Sized (ms.Agrees fresh) ms.NonEmpty := by
  cases ms with
  | nil => exact .unit
  | cons name t ms =>
    intro m r hm
    obtain ⟨items, hne, h⟩ := (t.transfers fresh).prod ms.transfers m r hm
    exact ⟨items, fun _ => hne trivial, h⟩

theorem Members.transfer_packDataDiff (ms : Members) (hne : ms.NonEmpty) {m r : ms.Val}
    (hm : ms.Sized m) :
    ∃ code, (∀ s, ms.packDataDiff fresh m r s = .ok (s ++ code)) ∧
      ∀ q, ms.Agrees fresh m r q → ∀ rest, ∃ q',
        ms.unPackDataDiff fresh q (code ++ rest) = .ok (q', rest) ∧ (q' == m) = true := by
  obtain ⟨items, hitems, hpack, hunpack⟩ := ms.transfers fresh m r hm
  refine ⟨GroupWriter.groups flagByte 128 items, fun s => ?_, fun q hq rest => ?_⟩
  · obtain ⟨⟨im, s'⟩, hst, hholds⟩ := hpack s {} ({}, s) ⟨rfl, rfl⟩
    have hclose := hholds.closeoff (GroupWriter.last_pushAll _ (hitems hne))
    rw [Members.packDataDiff, hst]
    exact hclose
  · have hgroups : Grouped flagByte 128 items (GroupWriter.groups flagByte 128 items) :=
      GroupWriter.grouped (by decide) items
    have hbegin : Ahead (items ++ []) rest ({}, GroupWriter.groups flagByte 128 items ++ rest) := by
      rw [List.append_nil]
      exact hgroups.ahead
    obtain ⟨q', ⟨im, s'⟩, hst, hbeq, hend⟩ := hunpack q hq [] rest _ hbegin
    obtain rfl : s' = rest := hend.nil
    refine ⟨q', ?_, hbeq⟩
    rw [Members.unPackDataDiff, hst]
    rfl

/-- The difference of two objects gives the new object to a receiver that agrees, and it takes
exactly the bytes packed. -/
theorem DcoClass.transfers : (c : DcoClass) → c.HasMembers → ∀ m r : c.Val, c.Sized m →
    ∃ code, (∀ s, c.packDataDiff fresh m r s = .ok (s ++ code)) ∧
      ∀ q, c.Agrees fresh m r q → ∀ rest, ∃ q',
        c.unPackDataDiff fresh q (code ++ rest) = .ok (q', rest) ∧ (q' == m) = true
  | .root ms, hne, _, _, hm => ms.transfer_packDataDiff fresh hne hm
  | .derived parent ms, hne, m, r, hm => by
    obtain ⟨code, hpack, hunpack⟩ := parent.transfers hne.1 m.1 r.1 hm.1
    obtain ⟨code', hpack', hunpack'⟩ := ms.transfer_packDataDiff fresh hne.2 (r := r.2) hm.2
    refine ⟨code ++ code', fun s => ?_, fun q hq rest => ?_⟩
    · change (parent.packDataDiff fresh m.1 r.1 s >>= _) = _
      rw [hpack, ← List.append_assoc]
      exact hpack' (s ++ code)
    · obtain ⟨p, hp, hpbeq⟩ := hunpack q.1 hq.1 (code' ++ rest)
      obtain ⟨q', hq', hbeq⟩ := hunpack' q.2 hq.2 rest
      refine ⟨(p, q'), ?_, Bool.and_eq_true_iff.mpr ⟨hpbeq, hbeq⟩⟩
      change (parent.unPackDataDiff fresh q.1 (code ++ code' ++ rest) >>= _) = _
      rw [List.append_assoc, hp]
      change (ms.unPackDataDiff fresh q.2 (code' ++ rest) >>= _) = _
      rw [hq']
      rfl

end Objects

end Dueca.Dco
