import Mathlib.Order.Nat

/-!
# Changes in a text

A change puts a new text in the place of a span of a text. Changes that stand in order are made in
one pass, in which what stands between them is copied. Further changes before these can be made in
a second pass, with the positions they had in the first text. Changes that come after these, or
among them, would be made in the wrong place.
-/

namespace Dueca.Lib

variable {α : Type*}

/-- A new text for the span from `start` to `stop`. -/
structure Change (α : Type*) where
  start : ℕ
  stop : ℕ
  text : List α

/-- The part of a text between two positions. -/
def slice (txt : List α) (i j : ℕ) : List α := (txt.take j).drop i

/-- A pass over a text from the position `i` on. -/
def splice (txt : List α) : ℕ → List (Change α) → List α
  | i, [] => txt.drop i
  | i, e :: es => slice txt i e.start ++ e.text ++ splice txt e.stop es

/-- The changes stand one after another between `i` and `n`. -/
def Ordered : ℕ → List (Change α) → ℕ → Prop
  | i, [], n => i ≤ n
  | i, e :: es, n => i ≤ e.start ∧ e.start ≤ e.stop ∧ Ordered e.stop es n

/-- The first text, which stands from the position `i` on, with the changes is the second text:
what stands between the changes is the same in both. -/
inductive Spliced : ℕ → List α → List (Change α) → List α → Prop
  | same (i : ℕ) (rest : List α) : Spliced i rest [] rest
  | change {kept old rest out : List α} {e : Change α} {es : List (Change α)} {i : ℕ}
      (hstart : i + kept.length = e.start) (hstop : e.start + old.length = e.stop)
      (hrest : Spliced e.stop rest es out) :
      Spliced i (kept ++ old ++ rest) (e :: es) (kept ++ e.text ++ out)

instance Ordered.decidable : ∀ (i : ℕ) (es : List (Change α)) (n : ℕ), Decidable (Ordered i es n)
  | i, [], n => inferInstanceAs (Decidable (i ≤ n))
  | i, e :: es, n =>
    have := Ordered.decidable e.stop es n
    inferInstanceAs (Decidable (i ≤ e.start ∧ e.start ≤ e.stop ∧ Ordered e.stop es n))

variable {txt : List α} {es ds : List (Change α)} {i j k m n : ℕ}

/-! ### Slices -/

theorem length_slice (hj : j ≤ txt.length) : (slice txt i j).length = j - i := by
  rw [slice, List.length_drop, List.length_take, Nat.min_eq_left hj]

theorem slice_append_slice (hij : i ≤ j) (hjk : j ≤ k) :
    slice txt i j ++ slice txt j k = slice txt i k := by
  have hsplit : (txt.take k).drop j = ((txt.take k).drop i).drop (j - i) := by
    rw [List.drop_drop, Nat.add_sub_cancel' hij]
  have hfirst : (txt.take j).drop i = ((txt.take k).drop i).take (j - i) := by
    rw [List.take_drop, List.take_take, Nat.add_sub_cancel' hij, Nat.min_eq_left hjk]
  rw [slice, slice, slice, hfirst, hsplit, List.take_append_drop]

theorem slice_append_drop (hij : i ≤ j) : slice txt i j ++ txt.drop j = txt.drop i := by
  have hall : ∀ l, slice txt l (txt.length + j) = txt.drop l := fun l => by
    rw [slice, List.take_of_length_le (Nat.le_add_right _ _)]
  rw [← hall j, ← hall i, slice_append_slice hij (Nat.le_add_left _ _)]

/-! ### The order of changes -/

theorem Ordered.le (h : Ordered i es n) : i ≤ n := by
  induction es generalizing i with
  | nil => exact h
  | cons e es ih => exact h.1.trans (h.2.1.trans (ih h.2.2))

theorem Ordered.mono (hij : j ≤ i) (h : Ordered i es n) : Ordered j es n := by
  cases es with
  | nil => exact hij.trans h
  | cons e es => exact ⟨hij.trans h.1, h.2⟩

theorem ordered_append :
    Ordered i (ds ++ es) n ↔ ∃ m, Ordered i ds m ∧ Ordered m es n := by
  induction ds generalizing i with
  | nil =>
    constructor
    · exact fun h => ⟨i, Nat.le_refl i, h⟩
    · rintro ⟨m, him, h⟩
      exact h.mono him
  | cons d ds ih =>
    constructor
    · rintro ⟨hstart, hstop, h⟩
      obtain ⟨m, hds, hes⟩ := ih.1 h
      exact ⟨m, ⟨hstart, hstop, hds⟩, hes⟩
    · rintro ⟨m, ⟨hstart, hstop, hds⟩, hes⟩
      exact ⟨hstart, hstop, ih.2 ⟨m, hds, hes⟩⟩

/-! ### One pass -/

/-- A pass changes the text as it should. -/
theorem spliced_splice (h : Ordered i es txt.length) :
    Spliced i (txt.drop i) es (splice txt i es) := by
  induction es generalizing i with
  | nil => exact .same i _
  | cons e es ih =>
    obtain ⟨hstart, hstop, h⟩ := h
    have hlen := h.le
    have hparts : slice txt i e.start ++ slice txt e.start e.stop ++ txt.drop e.stop =
        txt.drop i := by
      rw [List.append_assoc, slice_append_drop hstop, slice_append_drop hstart]
    rw [← hparts]
    refine .change ?_ ?_ (ih h)
    · rw [length_slice (hstop.trans hlen), Nat.add_sub_cancel' hstart]
    · rw [length_slice hlen, Nat.add_sub_cancel' hstop]

/-- The changes determine the text. -/
theorem Spliced.unique {rest out out' : List α} (h : Spliced i rest es out)
    (h' : Spliced i rest es out') : out = out' := by
  induction h generalizing out' with
  | same i rest =>
    cases h'
    rfl
  | @change kept old rest out e es i hstart hstop hrest ih =>
    generalize hall : kept ++ old ++ rest = all at h'
    cases h' with
    | @change kept' old' rest' out' _ _ _ hstart' hstop' hrest' =>
      have hkept : kept.length = kept'.length := by omega
      have hold : old.length = old'.length := by omega
      rw [List.append_assoc, List.append_assoc] at hall
      obtain ⟨rfl, htail⟩ := List.append_inj hall hkept
      obtain ⟨-, rfl⟩ := List.append_inj htail hold
      rw [ih hrest']

/-! ### Two passes -/

/-- What stands before the changes is copied. -/
theorem splice_eq_append (him : i ≤ m) (h : Ordered m es n) :
    splice txt i es = slice txt i m ++ splice txt m es := by
  cases es with
  | nil => exact (slice_append_drop him).symm
  | cons e es =>
    simp only [splice, ← List.append_assoc]
    rw [slice_append_slice him h.1]

/-- A pass over what a pass has given makes the changes of both, when those of the first one come
after those of the second one. -/
theorem splice_splice_of_le (hds : Ordered i ds m) (hes : Ordered m es txt.length) :
    splice (splice txt 0 es) i ds = splice txt i (ds ++ es) := by
  have hlen := hes.le
  -- Up to `m` the two texts are the same.
  have htake : ∀ j, j ≤ m → (splice txt 0 es).take j = txt.take j := by
    intro j hj
    have hslice : slice txt 0 m = txt.take m := by rw [slice, List.drop_zero]
    rw [splice_eq_append (Nat.zero_le m) hes, hslice, List.take_append_of_le_length,
      List.take_take, Nat.min_eq_left hj]
    rw [List.length_take, Nat.min_eq_left hlen]
    exact hj
  induction ds generalizing i with
  | nil =>
    have him : i ≤ m := hds
    have hi : (txt.take i).length = i := by
      rw [List.length_take, Nat.min_eq_left (him.trans hlen)]
    have hslice : slice txt 0 i = txt.take i := by rw [slice, List.drop_zero]
    rw [splice, List.nil_append, splice_eq_append (Nat.zero_le i) (hes.mono him), hslice,
      List.drop_left' hi]
  | cons d ds ih =>
    obtain ⟨hstart, hstop, hds⟩ := hds
    have hslice : slice (splice txt 0 es) i d.start = slice txt i d.start := by
      rw [slice, slice, htake _ (hstop.trans hds.le)]
    rw [splice, hslice, ih hds, List.cons_append, splice]

/-- Two passes, from back to front, are one. -/
theorem splice_splice (h : Ordered 0 (ds ++ es) txt.length) :
    splice (splice txt 0 es) 0 ds = splice txt 0 (ds ++ es) := by
  obtain ⟨m, hds, hes⟩ := ordered_append.1 h
  exact splice_splice_of_le hds hes

end Dueca.Lib
