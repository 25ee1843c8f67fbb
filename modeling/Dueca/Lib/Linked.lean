import Mathlib.Data.List.Nodup
import Mathlib.Data.List.Range

/-!
# Singly linked lists in a heap

A list of addresses is a `Segment` of a successor function when each address
leads to the one behind it and the last one leads to a given end. Splicing a
node out of the front of a segment and back in behind another node is a change
of the address list.
-/

namespace Dueca.Lib

variable {α : Type*} {next next' : α → Option α} {stop : Option α}

/-- The addresses of the list follow each other under `next`, and the last one
leads to `stop`. -/
def Segment (next : α → Option α) : List α → Option α → Prop
  | [], _ => True
  | a :: as, stop => next a = as.head?.or stop ∧ Segment next as stop

@[simp] theorem segment_nil : Segment next [] stop := trivial

@[simp] theorem segment_cons {a : α} {as : List α} :
    Segment next (a :: as) stop ↔ next a = as.head?.or stop ∧ Segment next as stop := Iff.rfl

theorem segment_append {as bs : List α} :
    Segment next (as ++ bs) stop ↔
      Segment next as (bs.head?.or stop) ∧ Segment next bs stop := by
  induction as with
  | nil => simp
  | cons a as ih => cases as <;> simp_all [and_assoc]

/-- Only the addresses of a segment matter. -/
theorem Segment.congr {as : List α} (h : Segment next as stop)
    (heq : ∀ a ∈ as, next' a = next a) : Segment next' as stop := by
  induction as with
  | nil => trivial
  | cons a as ih =>
    refine ⟨(heq a List.mem_cons_self).trans h.1, ih h.2 fun b hb => ?_⟩
    exact heq b (List.mem_cons_of_mem a hb)

/-- A node of a segment leads to the next address of the list. -/
theorem Segment.next_eq {as bs : List α} {a : α} (h : Segment next (as ++ a :: bs) stop) :
    next a = bs.head?.or stop :=
  (segment_append.mp h).2.1

/-- Insert `x` behind `p`. -/
theorem Segment.splice {as bs : List α} {p x : α} (h : Segment next (as ++ p :: bs) stop)
    (hframe : ∀ a ∈ as ++ bs, next' a = next a) (hx : next' x = next p)
    (hp : next' p = some x) : Segment next' (as ++ p :: x :: bs) stop := by
  obtain ⟨has, hps, hbs⟩ := segment_append.mp h
  refine segment_append.mpr ⟨?_, ?_, ?_, ?_⟩
  · exact has.congr fun a ha => hframe a (List.mem_append_left bs ha)
  · simpa using hp
  · rw [hx]
    exact hps
  · exact hbs.congr fun b hb => hframe b (List.mem_append_right as hb)

/-- Take out `x` behind `p`. -/
theorem Segment.drop {as bs : List α} {p x : α} (h : Segment next (as ++ p :: x :: bs) stop)
    (hframe : ∀ a ∈ as ++ bs, next' a = next a) (hp : next' p = next x) :
    Segment next' (as ++ p :: bs) stop := by
  obtain ⟨has, -, hx, hbs⟩ := segment_append.mp h
  refine segment_append.mpr ⟨?_, hp.trans hx, ?_⟩
  · exact has.congr fun a ha => hframe a (List.mem_append_left bs ha)
  · exact hbs.congr fun b hb => hframe b (List.mem_append_right as hb)

/-- Addresses in a row that lead to each other. -/
theorem segment_range' {next : ℕ → Option ℕ} {stop : Option ℕ} {a n : ℕ}
    (h : ∀ x, a ≤ x → x < a + n → next x = if x + 1 = a + n then stop else some (x + 1)) :
    Segment next (List.range' a n) stop := by
  induction n generalizing a with
  | zero => trivial
  | succ n ih =>
    rw [List.range'_succ]
    refine ⟨?_, ih fun x h₁ h₂ => ?_⟩
    · rw [h a le_rfl (by omega)]
      cases n with
      | zero => simp
      | succ n => simp [List.range'_succ]
    · rw [h x (by omega) (by omega)]
      simp only [Nat.add_assoc, Nat.add_comm 1 n]

/-- Addresses in a row that lead back. -/
theorem segment_reverse_range' {prev : ℕ → Option ℕ} {stop : Option ℕ} {a n : ℕ}
    (h : ∀ x, a ≤ x → x < a + n → prev x = if x = a then stop else some (x - 1)) :
    Segment prev (List.range' a n).reverse stop := by
  induction n with
  | zero => trivial
  | succ n ih =>
    rw [List.range'_concat, List.reverse_append]
    refine ⟨?_, ih fun x h₁ h₂ => h x h₁ (by omega)⟩
    rw [Nat.one_mul, h (a + n) (by omega) (by omega)]
    cases n with
    | zero => simp
    | succ n =>
      rw [List.range'_concat, List.reverse_append]
      simp

end Dueca.Lib
