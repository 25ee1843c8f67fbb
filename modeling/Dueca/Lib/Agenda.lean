import Mathlib.Data.List.Basic
import Mathlib.Order.Basic

/-!
# Agendas

An agenda is a list of entries with the time for which they are planned, in the order in which they
were put on it. At some time the entries for that time and before it are due.
-/

namespace Dueca.Lib

variable {α : Type*} {now : ℕ} {l : List (ℕ × α)} {test : ℕ × α → Bool}

/-- The entries that are due. -/
def due (now : ℕ) (l : List (ℕ × α)) : List (ℕ × α) := l.filter fun x => x.1 ≤ now

/-- The entries that are not due yet. -/
def later (now : ℕ) (l : List (ℕ × α)) : List (ℕ × α) := l.filter fun x => now < x.1

theorem mem_later {x : ℕ × α} : x ∈ later now l ↔ x ∈ l ∧ now < x.1 := by
  simp only [later, List.mem_filter, decide_eq_true_eq]

theorem due_cons_of_le {x : ℕ × α} (h : x.1 ≤ now) : due now (x :: l) = x :: due now l :=
  List.filter_cons_of_pos (by simpa using h)

theorem later_cons_of_le {x : ℕ × α} (h : x.1 ≤ now) : later now (x :: l) = later now l :=
  List.filter_cons_of_neg (by simpa using h)

/-- When the first entry is not due on an agenda in order of time, none is. -/
theorem due_cons_of_lt {x : ℕ × α} (hl : (x :: l).Pairwise fun x y => x.1 ≤ y.1)
    (h : now < x.1) : due now (x :: l) = [] ∧ later now (x :: l) = x :: l := by
  have hall : ∀ y ∈ x :: l, now < y.1 := by
    intro y hy
    rcases List.mem_cons.mp hy with rfl | hy
    · exact h
    · exact Nat.lt_of_lt_of_le h ((List.pairwise_cons.mp hl).1 y hy)
  constructor
  · exact List.filter_eq_nil_iff.mpr fun y hy => by simpa using hall y hy
  · exact List.filter_eq_self.mpr fun y hy => by simpa using hall y hy

/-- On an agenda in order of time, the entries that are due are at the front. -/
theorem takeWhile_eq_due (hl : l.Pairwise fun x y => x.1 ≤ y.1)
    (htest : ∀ x ∈ l, test x = true ↔ x.1 ≤ now) :
    l.takeWhile test = due now l ∧ l.dropWhile test = later now l := by
  induction l with
  | nil => exact ⟨rfl, rfl⟩
  | cons x l ih =>
    obtain ⟨htake, hdrop⟩ := ih (List.pairwise_cons.mp hl).2 fun y hy =>
      htest y (List.mem_cons_of_mem _ hy)
    have hx := htest x List.mem_cons_self
    by_cases hle : x.1 ≤ now
    · rw [List.takeWhile_cons_of_pos (hx.mpr hle), List.dropWhile_cons_of_pos (hx.mpr hle),
        due_cons_of_le hle, later_cons_of_le hle, htake, hdrop]
      exact ⟨rfl, rfl⟩
    · have hnot : ¬test x = true := fun h => hle (hx.mp h)
      obtain ⟨hdue, hlater⟩ := due_cons_of_lt hl (Nat.lt_of_not_le hle)
      rw [List.takeWhile_cons_of_neg hnot, List.dropWhile_cons_of_neg hnot, hdue, hlater]
      exact ⟨rfl, rfl⟩

end Dueca.Lib
