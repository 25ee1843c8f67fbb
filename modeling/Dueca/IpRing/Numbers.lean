import Mathlib.Data.Nat.Basic

/-!
# Packet numbers

A packet number has 32 bits. The lower 12 count how often a cycle is repeated, the others count
cycles. Both go round.
-/

namespace Dueca.IpRing

variable {x y c d : ℕ}

/-- Bits 12 and up, with the others zero. -/
def upper (x : ℕ) : ℕ := x / 0x1000 * 0x1000

/-- The next cycle, with no repeats. -/
def nextCycle (x : ℕ) : ℕ := (upper x + 0x1000) % 0x100000000

/-- The same cycle once more; the count of repeats has 12 bits. -/
def nextRepeat (x : ℕ) : ℕ := upper x + (x % 0x1000 + 1) % 0x1000

/-- Number `a` comes after `b`: as 32-bit integers, `b - a` is negative. -/
def packetAfter (a b : ℕ) : Bool := decide (0x80000000 ≤ (b + 0x100000000 - a) % 0x100000000)

/-- A number of cycle `c`. -/
def IsNo (c x : ℕ) : Prop := ∃ r < 0x1000, x = (c * 0x1000 + r) % 0x100000000

theorem isNo_zero : IsNo 0 0 := ⟨0, by decide, rfl⟩

theorem isNo_one : IsNo 1 0x1000 := ⟨0, by decide, rfl⟩

theorem upper_mod (c : ℕ) {r : ℕ} (hr : r < 0x1000) :
    upper ((c * 0x1000 + r) % 0x100000000) = c * 0x1000 % 0x100000000 := by
  unfold upper
  omega

namespace IsNo

theorem upper_eq (h : IsNo c x) : upper x = c * 0x1000 % 0x100000000 := by
  obtain ⟨r, hr, rfl⟩ := h
  exact upper_mod c hr

theorem nextCycle (h : IsNo c x) : IsNo (c + 1) (nextCycle x) := by
  refine ⟨0, by decide, ?_⟩
  rw [IpRing.nextCycle, h.upper_eq]
  omega

theorem nextRepeat (h : IsNo c x) : IsNo c (nextRepeat x) := by
  refine ⟨(x % 0x1000 + 1) % 0x1000, Nat.mod_lt _ (by decide), ?_⟩
  rw [IpRing.nextRepeat, h.upper_eq]
  omega

/-- One number does not belong to two neighbouring cycles. -/
theorem eq_of_near (hx : IsNo c x) (hy : IsNo d x) (h₁ : c ≤ d + 1) (h₂ : d ≤ c + 1) : c = d := by
  obtain ⟨r, hr, rfl⟩ := hx
  obtain ⟨s, hs, heq⟩ := hy
  omega

end IsNo

/-- The cycles of numbers with equal upper bits are whole turns apart. -/
theorem eq_of_upper (hx : IsNo c x) (hy : IsNo d y) (h : upper x = upper y)
    (h₁ : c < d + 0x100000) (h₂ : d < c + 0x100000) : c = d := by
  rw [hx.upper_eq, hy.upper_eq] at h
  omega

/-- The upper bits of a number come after those of another if its cycle does. -/
theorem packetAfter_upper (hx : IsNo c x) (hy : IsNo d y) (h₁ : c ≤ d + 1) (h₂ : d ≤ c + 1) :
    packetAfter (upper x) (upper y) = true ↔ d < c := by
  rw [packetAfter, decide_eq_true_eq, hx.upper_eq, hy.upper_eq]
  omega

/-- A number that another one does not come after is not of an older cycle. -/
theorem le_of_not_packetAfter (hx : IsNo c x) (hy : IsNo d y) (h₁ : c ≤ d + 1)
    (h₂ : d ≤ c + 1) (h : packetAfter x y = false) : c ≤ d := by
  obtain ⟨r, hr, rfl⟩ := hx
  obtain ⟨s, hs, rfl⟩ := hy
  rw [packetAfter, decide_eq_false_iff_not] at h
  omega

end Dueca.IpRing
