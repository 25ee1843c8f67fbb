import Mathlib.Data.List.Basic

/-!
# Writing over a part of a list

A window of a list is what it has from one place on. Writing over a part changes the windows that
overlap with this part, and no others.
-/

namespace Dueca.Lib

variable {α : Type*} {xs new : List α} {i j m n : ℕ}

/-- The `n` elements from `i` on. -/
def window (xs : List α) (i n : ℕ) : List α := (xs.drop i).take n

/-- Other elements from `i` on. -/
def overwrite (xs : List α) (i : ℕ) (new : List α) : List α :=
  xs.take i ++ (new ++ xs.drop (i + new.length))

theorem length_overwrite (h : i + new.length ≤ xs.length) :
    (overwrite xs i new).length = xs.length := by
  simp only [overwrite, List.length_append, List.length_take, List.length_drop]
  omega

theorem length_window (h : i + n ≤ xs.length) : (window xs i n).length = n := by
  rw [window, List.length_take, List.length_drop]
  omega

@[simp] theorem window_zero : window xs i 0 = [] := List.take_zero

theorem window_add : window xs i (m + n) = window xs i m ++ window xs (i + m) n := by
  rw [window, window, window, List.take_add, List.drop_drop]

theorem take_eq_window : xs.take n = window xs 0 n := by
  rw [window, List.drop_zero]

/-- A window of what is at the front. -/
theorem window_take (h : i + n ≤ m) : window (xs.take m) i n = window xs i n := by
  rw [window, window, List.drop_take, List.take_take]
  congr 1
  omega

theorem window_overwrite_self (h : i + new.length ≤ xs.length) :
    window (overwrite xs i new) i new.length = new := by
  have hlen : (xs.take i).length = i := by
    rw [List.length_take]
    omega
  rw [window, overwrite, List.drop_left' hlen, List.take_left' rfl]

/-- Elsewhere nothing changes. -/
theorem window_overwrite_apart (h : i + new.length ≤ xs.length)
    (hapart : j + n ≤ i ∨ i + new.length ≤ j) :
    window (overwrite xs i new) j n = window xs j n := by
  have hlen : (xs.take i).length = i := by
    rw [List.length_take]
    omega
  unfold window overwrite
  rcases hapart with hbefore | hbehind
  · rw [List.drop_append_of_le_length (by omega), List.take_append_of_le_length (by
      rw [List.length_drop]; omega), List.drop_take, List.take_take]
    congr 1
    omega
  · obtain ⟨d, rfl⟩ := Nat.exists_eq_add_of_le hbehind
    rw [Nat.add_assoc, ← List.drop_drop, List.drop_left' hlen, ← List.drop_drop,
      List.drop_left' rfl, List.drop_drop]
    congr 2
    omega

end Dueca.Lib
