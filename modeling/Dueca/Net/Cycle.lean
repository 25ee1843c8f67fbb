import Mathlib.Algebra.Order.Ring.Int

/-!
# Cycle counters

Message cycles are numbered with a 32-bit counter. Its low nibble counts repeats
of one message; the other 28 bits count the cycles and wrap around. A counter is
a natural number here, and each operation reduces modulo `2 ^ 32` where the
source does.
-/

namespace Dueca.Net

/-- `a - b` for unsigned operands of 32 bits. -/
def minus32 (a b : ℕ) : ℕ := if b ≤ a then a - b else 2 ^ 32 - (b - a)

/-- `cycle_counter & ~0xf`. -/
def cycleBase (c : ℕ) : ℕ := 16 * (c / 16)

/-- `cycle` is one ahead of this counter. -/
def cycleIsNext (c cycle : ℕ) : Bool :=
  (cycleBase c + 0x10) % 2 ^ 32 == cycleBase cycle

/-- `cycle` is one behind this counter. -/
def cycleIsPrevious (c cycle : ℕ) : Bool :=
  cycleBase c == (cycleBase cycle + 0x10) % 2 ^ 32

/-- `cycle` is on par with this counter. -/
def cycleIsCurrent (c cycle : ℕ) : Bool :=
  cycleBase c == cycleBase cycle

/-- `cycle` is equal to this counter, or at most two behind it. -/
def cycleIsCurrentOrPast (c cycle : ℕ) : Bool :=
  cycleBase cycle == cycleBase c ||
    (cycleBase cycle + 0x10) % 2 ^ 32 == cycleBase c ||
    (cycleBase cycle + 0x20) % 2 ^ 32 == cycleBase c

/-- This counter of a peer is one behind the master's `mcycle`, on par with it, or
one ahead of it. -/
def cycleIsUpToDate (c mcycle : ℕ) : Bool :=
  cycleBase mcycle == (cycleBase c + 0x10) % 2 ^ 32 ||
    cycleBase mcycle == cycleBase c ||
    (cycleBase mcycle + 0x10) % 2 ^ 32 == cycleBase c

/-- `ninc` cycles on, with the repeat nibble cleared. -/
def cycleIncrement (c ninc : ℕ) : ℕ := (cycleBase c + 16 * ninc) % 2 ^ 32

/-- One cycle back, with the repeat nibble already at 1. -/
def cycleBack (c : ℕ) : ℕ := minus32 (cycleBase c) 0xf

/-- The next repeat of the same cycle; the nibble rolls over. -/
def cycleRepeatIncrement (c : ℕ) : ℕ := (c % 16 + 1) % 16 + cycleBase c

theorem cycleBase_le (c : ℕ) : cycleBase c ≤ c := Nat.mul_div_le c 16

@[simp]
theorem cycleBase_cycleBase (c : ℕ) : cycleBase (cycleBase c) = cycleBase c := by
  simp only [cycleBase]
  omega

theorem cycleBase_increment (c n : ℕ) :
    cycleBase (cycleIncrement c n) = (cycleBase c + 16 * n) % 2 ^ 32 := by
  simp only [cycleIncrement, cycleBase]
  omega

theorem minus32_of_le {a b : ℕ} (h : b ≤ a) : minus32 a b = a - b := if_pos h

theorem cycleBase_back {c : ℕ} (hc : 16 ≤ cycleBase c) :
    cycleBase (cycleBack c) = cycleBase c - 16 := by
  rw [cycleBack, minus32_of_le (by omega)]
  simp only [cycleBase] at hc ⊢
  omega

theorem cycleBase_minus {c : ℕ} (hc : 16 ≤ c) :
    cycleBase (minus32 c 0x10) = cycleBase c - 16 := by
  rw [minus32_of_le hc]
  simp only [cycleBase]
  omega

@[simp]
theorem cycleBase_repeatIncrement (c : ℕ) :
    cycleBase (cycleRepeatIncrement c) = cycleBase c := by
  simp only [cycleRepeatIncrement, cycleBase]
  omega

end Dueca.Net
