import Mathlib.Algebra.BigOperators.Group.List.Basic
import Mathlib.Algebra.Order.Ring.Int

/-!
# Items that announce their parts

A token announces how many items follow that belong to it, and is one item with these. A list of
tokens needs no brackets then: how it is divided into items follows from what the tokens announce.
-/

namespace Dueca.Lib

variable {τ : Type} (arity : τ → ℕ)

/-- The tokens of a number of complete items. -/
inductive Items : ℕ → List τ → Prop
  | nil : Items 0 []
  | cons {n : ℕ} {t : τ} {ts : List τ} (h : Items (arity t + n) ts) : Items (n + 1) (t :: ts)

/-- The number of tokens, less the number of items that they announce. -/
def balance (ts : List τ) : ℤ := (ts.map fun t => 1 - (arity t : ℤ)).sum

@[simp]
theorem balance_nil : balance arity [] = 0 := rfl

@[simp]
theorem balance_cons (t : τ) (ts : List τ) :
    balance arity (t :: ts) = 1 - arity t + balance arity ts := by
  rw [balance, List.map_cons, List.sum_cons, balance]

@[simp]
theorem balance_append (ts us : List τ) :
    balance arity (ts ++ us) = balance arity ts + balance arity us := by
  rw [balance, List.map_append, List.sum_append, balance, balance]

namespace Items

variable {arity} {n m : ℕ} {t : τ} {ts us vs ws : List τ}

theorem balance_eq (h : Items arity n ts) : balance arity ts = n := by
  induction h with
  | nil => rfl
  | cons h ih =>
    rw [balance_cons, ih]
    push_cast
    omega

theorem append (h : Items arity n ts) (h' : Items arity m us) : Items arity (n + m) (ts ++ us) := by
  induction h with
  | nil => rwa [Nat.zero_add]
  | cons h ih =>
    rw [Nat.add_right_comm]
    exact .cons (by rwa [← Nat.add_assoc])

/-- A token with the items that it announces. -/
theorem one (h : Items arity (arity t) ts) : Items arity 1 (t :: ts) := .cons h

theorem leaf (h : arity t = 0) : Items arity 1 [t] := one (h ▸ .nil)

/-- No list of complete items is the beginning of another. -/
theorem cancel (h : Items arity n ts) (h' : Items arity n us) (heq : ts ++ vs = us ++ ws) :
    ts = us ∧ vs = ws := by
  induction h generalizing us with
  | nil =>
    cases h'
    exact ⟨rfl, heq⟩
  | cons h ih =>
    cases h' with
    | cons h' =>
      obtain ⟨rfl, hrest⟩ := List.cons.inj heq
      obtain ⟨rfl, rfl⟩ := ih h' hrest
      exact ⟨rfl, rfl⟩

end Items

end Dueca.Lib
