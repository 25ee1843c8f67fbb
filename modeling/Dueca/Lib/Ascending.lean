import Mathlib.Data.Nat.Basic
import Mathlib.Order.Basic

/-!
# Queues of elements with ascending numbers

The elements of a queue have numbers that do not go down along it. The numbers are not part of the
elements, but a property of each element says what its number means.
-/

namespace Dueca.Lib

variable {β : Type*} {P Q : ℕ → β → Prop} {hi hi' lo lo' c : ℕ} {d : β} {ds : List β}

/-- The elements have property `P` for numbers that ascend from `lo` to at most `hi`. -/
def Ascends (P : ℕ → β → Prop) (hi : ℕ) : ℕ → List β → Prop
  | lo, [] => lo ≤ hi
  | lo, d :: ds => ∃ c, lo ≤ c ∧ P c d ∧ Ascends P hi c ds

namespace Ascends

theorem le (h : Ascends P hi lo ds) : lo ≤ hi := by
  induction ds generalizing lo with
  | nil => exact h
  | cons d ds ih =>
    obtain ⟨c, hc, -, hrest⟩ := h
    exact hc.trans (ih hrest)

theorem from_le (h : Ascends P hi lo ds) (hle : lo' ≤ lo) : Ascends P hi lo' ds := by
  cases ds with
  | nil => exact hle.trans h
  | cons d ds =>
    obtain ⟨c, hc, hd, hrest⟩ := h
    exact ⟨c, hle.trans hc, hd, hrest⟩

theorem mono (h : Ascends P hi lo ds) (himp : ∀ c d, P c d → Q c d) (hle : hi ≤ hi') :
    Ascends Q hi' lo ds := by
  induction ds generalizing lo with
  | nil => exact h.trans hle
  | cons d ds ih =>
    obtain ⟨c, hc, hd, hrest⟩ := h
    exact ⟨c, hc, himp c d hd, ih hrest⟩

theorem concat (h : Ascends P hi lo ds) (hle : hi ≤ hi') (hd : P hi' d) :
    Ascends P hi' lo (ds ++ [d]) := by
  induction ds generalizing lo with
  | nil => exact ⟨hi', h.trans hle, hd, le_rfl⟩
  | cons e ds ih =>
    obtain ⟨c, hc, he, hrest⟩ := h
    exact ⟨c, hc, he, ih hrest⟩

/-- The last of some elements at the front, or else `d`, and what is behind them. -/
theorem last_of_take (h : Ascends P hi c ds) (hd : P c d) (k : ℕ) :
    ∃ c', c ≤ c' ∧ P c' (((ds.take k).getLast?).getD d) ∧ Ascends P hi c' (ds.drop k) := by
  induction ds generalizing c d k with
  | nil =>
    rw [List.take_nil, List.drop_nil]
    exact ⟨c, le_rfl, hd, h⟩
  | cons e ds ih =>
    cases k with
    | zero => exact ⟨c, le_rfl, hd, h⟩
    | succ k =>
      obtain ⟨c₁, hc₁, he, hrest⟩ := h
      obtain ⟨c', hc', hlast, hbehind⟩ := ih hrest he k
      refine ⟨c', hc₁.trans hc', ?_, hbehind⟩
      rw [List.take_succ_cons, List.getLast?_cons, Option.getD_some]
      exact hlast

theorem eraseIdx (h : Ascends P hi lo ds) (k : ℕ) : Ascends P hi lo (ds.eraseIdx k) := by
  induction ds generalizing lo k with
  | nil => exact h
  | cons d ds ih =>
    obtain ⟨c, hc, hd, hrest⟩ := h
    cases k with
    | zero => exact hrest.from_le hc
    | succ k => exact ⟨c, hc, hd, ih hrest k⟩

end Ascends

end Dueca.Lib
