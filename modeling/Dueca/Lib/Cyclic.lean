import Mathlib.Data.List.Basic
import Mathlib.Data.Nat.ModEq

/-!
# Cyclic memory of a stream

A memory into which the elements of a stream are written in turn, and from the start again when
its end is reached, holds the last elements of the stream. An element stands at the remainder of
its place in the stream by the length of the memory.
-/

namespace Dueca.Lib

variable {α : Type*} {area stream : List α} {x : α} {n a b : ℕ}

/-- Places that are less than the length apart stand apart. -/
theorem eq_of_mod_eq (h : a % n = b % n) (hab : a ≤ b) (hb : b < a + n) : a = b := by
  have hdvd : n ∣ b - a := (Nat.modEq_iff_dvd' hab).mp h
  have hzero : b - a = 0 := Nat.eq_zero_of_dvd_of_lt hdvd (by omega)
  omega

theorem mod_ne (hab : a < b) (hb : b < a + n) : a % n ≠ b % n := fun h =>
  hab.ne (eq_of_mod_eq h hab.le hb)

/-- From place `b` there is room up to the place that `a` takes the next time round. -/
theorem room_eq (hab : a < b) (hb : b < a + n) : (n - b % n + a % n) % n = a + n - b := by
  have hn : 0 < n := by omega
  have hle : b % n ≤ n := (Nat.mod_lt b hn).le
  have hmod : n - b % n + a % n + b ≡ a + n - b + b [MOD n] := by
    have hleft : n - b % n + a % n + b ≡ n - b % n + a + b % n [MOD n] :=
      ((Nat.mod_modEq a n).add_left _).add (Nat.mod_modEq b n).symm
    have hright : n - b % n + a + b % n = a + n - b + b := by omega
    exact hright ▸ hleft
  have hlt : a + n - b < n := by omega
  have hcancel : n - b % n + a % n ≡ a + n - b [MOD n] := Nat.ModEq.add_right_cancel' b hmod
  exact Eq.trans hcancel (Nat.mod_eq_of_lt hlt)

theorem next_mod (hn : 0 < n) : (if a % n + 1 = n then 0 else a % n + 1) = (a + 1) % n := by
  have hlt := Nat.mod_lt a hn
  rw [← Nat.mod_add_mod]
  split
  · rename_i heq
    rw [heq, Nat.mod_self]
  · exact (Nat.mod_eq_of_lt (by omega)).symm

/-- The memory holds as much of the end of the stream as it can. -/
def Retains (area stream : List α) : Prop :=
  ∀ q < stream.length, stream.length ≤ q + area.length → area[q % area.length]? = stream[q]?

theorem Retains.write (h : Retains area stream) (hn : 0 < area.length) :
    Retains (area.set (stream.length % area.length) x) (stream ++ [x]) := by
  intro q hq hle
  rw [List.length_append, List.length_singleton] at hq hle
  rw [List.length_set] at hle ⊢
  rcases Nat.lt_succ_iff_lt_or_eq.mp hq with hlt | rfl
  · rw [List.getElem?_set_ne (mod_ne hlt (by omega)).symm, List.getElem?_append_left hlt]
    exact h q hlt (by omega)
  · rw [List.getElem?_set_self (Nat.mod_lt _ hn), List.getElem?_concat_length]

/-- What is in the window can be read. -/
theorem Retains.read (h : Retains area stream) {q : ℕ} (hx : stream[q]? = some x)
    (hle : stream.length ≤ q + area.length) : area[q % area.length]? = some x :=
  (h q (List.getElem?_eq_some_iff.mp hx).1 hle).trans hx

theorem retains_start (hx : area[0]? = some x) : Retains area [x] := by
  intro q hq _
  obtain rfl : q = 0 := by simpa using hq
  rw [Nat.zero_mod, hx]
  rfl

end Dueca.Lib
