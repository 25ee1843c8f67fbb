import Mathlib.Data.List.Basic
import Mathlib.Algebra.Order.Ring.Int

/-!
# Framed streams

A framing writes a value as a list of symbols and recognises it again at the front of a
stream, once all of it is there. `drain` takes values from the front as long as there
are any. As what is recognised at the front of a stream does not change when the stream
grows, a stream can be drained piece by piece, wherever it has been cut.

Numbers are written with a fixed number of bytes, the most significant byte first.
-/

namespace Dueca.Lib

/-! ### Numbers as bytes -/

/-- The last `k` bytes of a number, most significant first. -/
def bigEndian : ℕ → ℕ → List UInt8
  | 0, _ => []
  | k + 1, n => bigEndian k (n / 256) ++ [UInt8.ofNat n]

/-- The number that is written by a list of bytes, most significant first. -/
def ofBigEndian (bs : List UInt8) : ℕ := bs.foldl (fun n b => 256 * n + b.toNat) 0

@[simp] theorem length_bigEndian (k n : ℕ) : (bigEndian k n).length = k := by
  induction k generalizing n with
  | zero => rfl
  | succ k ih => simp only [bigEndian, List.length_append, ih, List.length_singleton]

theorem ofBigEndian_concat (bs : List UInt8) (b : UInt8) :
    ofBigEndian (bs ++ [b]) = 256 * ofBigEndian bs + b.toNat := by
  simp only [ofBigEndian, List.foldl_append, List.foldl_cons, List.foldl_nil]

theorem ofBigEndian_bigEndian {k n : ℕ} (h : n < 256 ^ k) :
    ofBigEndian (bigEndian k n) = n := by
  induction k generalizing n with
  | zero =>
    obtain rfl : n = 0 := by simpa using h
    rfl
  | succ k ih =>
    have hdiv : n / 256 < 256 ^ k := by
      rw [Nat.pow_succ] at h
      exact (Nat.div_lt_iff_lt_mul (by decide)).mpr h
    rw [bigEndian, ofBigEndian_concat, ih hdiv, UInt8.toNat_ofNat']
    omega

/-! ### Values in a stream -/

/-- A way to write values in a stream, and to recognise one at its front. -/
structure Framing (α β : Type*) where
  /-- The values that can be written. -/
  good : α → Prop
  encode : α → List β
  /-- The value at the front, when it is there, and what is behind it. -/
  next : List β → Option (α × List β)
  next_encode : ∀ a rest, good a → next (encode a ++ rest) = some (a, rest)
  next_append : ∀ x y a rest, next x = some (a, rest) → next (x ++ y) = some (a, rest ++ y)
  next_length : ∀ x a rest, next x = some (a, rest) → rest.length < x.length
  next_nil : next [] = none

namespace Framing

variable {α β : Type*} (F : Framing α β) {a : α} {x y rest : List β} {as bs : List α}

/-- Values one behind the other in a stream. -/
def encodeAll (as : List α) : List β := as.flatMap F.encode

@[simp] theorem encodeAll_nil : F.encodeAll [] = [] := rfl

@[simp] theorem encodeAll_cons : F.encodeAll (a :: as) = F.encode a ++ F.encodeAll as := rfl

@[simp] theorem encodeAll_append :
    F.encodeAll (as ++ bs) = F.encodeAll as ++ F.encodeAll bs := List.flatMap_append

/-- Take values from the front of a stream as long as there are any. -/
def drain (x : List β) : List α × List β :=
  match h : F.next x with
  | none => ([], x)
  | some (a, rest) =>
    have : rest.length < x.length := F.next_length x a rest h
    (a :: (drain rest).1, (drain rest).2)
termination_by x.length

theorem drain_none (h : F.next x = none) : F.drain x = ([], x) := by
  rw [drain]
  split
  · rfl
  · rename_i hx
    rw [h] at hx
    cases hx

theorem drain_some (h : F.next x = some (a, rest)) :
    F.drain x = (a :: (F.drain rest).1, (F.drain rest).2) := by
  rw [drain]
  split
  · rename_i hx
    rw [h] at hx
    cases hx
  · rename_i b r hx
    obtain ⟨rfl, rfl⟩ : a = b ∧ rest = r := by simpa [h] using hx
    rfl

@[simp] theorem drain_nil : F.drain [] = ([], []) := F.drain_none F.next_nil

/-- When there is no value, nothing is taken. -/
theorem drain_snd_of_fst (h : (F.drain x).1 = []) : (F.drain x).2 = x := by
  cases hx : F.next x with
  | none => rw [F.drain_none hx]
  | some found =>
    rw [F.drain_some hx] at h
    cases h

/-- A stream can be drained piece by piece. -/
theorem drain_append (x y : List β) :
    F.drain (x ++ y) =
      ((F.drain x).1 ++ (F.drain ((F.drain x).2 ++ y)).1, (F.drain ((F.drain x).2 ++ y)).2) := by
  induction hn : x.length using Nat.strongRecOn generalizing x with
  | _ n ih =>
    cases h : F.next x with
    | none => simp only [F.drain_none h, List.nil_append]
    | some found =>
      obtain ⟨a, rest⟩ := found
      have hrest := ih rest.length (hn ▸ F.next_length x a rest h) rest rfl
      simp only [F.drain_some h, F.drain_some (F.next_append x y a rest h), hrest,
        List.cons_append]

/-- What has been written is recognised, with whatever stands behind it. -/
theorem drain_encodeAll_append (has : ∀ a ∈ as, F.good a) (x : List β) :
    F.drain (F.encodeAll as ++ x) = (as ++ (F.drain x).1, (F.drain x).2) := by
  induction as with
  | nil => rfl
  | cons a as ih =>
    have hhead := F.next_encode a (F.encodeAll as ++ x) (has a List.mem_cons_self)
    rw [encodeAll_cons, List.append_assoc, F.drain_some hhead,
      ih fun b hb => has b (List.mem_cons_of_mem _ hb), List.cons_append]

theorem drain_encodeAll (has : ∀ a ∈ as, F.good a) : F.drain (F.encodeAll as) = (as, []) := by
  simpa using F.drain_encodeAll_append has []

/-- A first part of the stream gives a first part of the values. -/
theorem drain_prefix (has : ∀ a ∈ as, F.good a) (h : x <+: F.encodeAll as) :
    (F.drain x).1 <+: as := by
  obtain ⟨y, hy⟩ := h
  have hall := F.drain_encodeAll has
  rw [← hy, F.drain_append] at hall
  exact ⟨_, congrArg Prod.fst hall⟩

/-- What is left after draining holds no complete value. -/
theorem next_drain (x : List β) : F.next (F.drain x).2 = none := by
  induction hn : x.length using Nat.strongRecOn generalizing x with
  | _ n ih =>
    cases h : F.next x with
    | none => rw [F.drain_none h, h]
    | some found =>
      obtain ⟨a, rest⟩ := found
      rw [F.drain_some h]
      exact ih rest.length (hn ▸ F.next_length x a rest h) rest rfl

/-- What is recognised at the front of a first part of the stream was written there. -/
theorem next_prefix (has : ∀ a ∈ as, F.good a) (h : x <+: F.encodeAll as)
    (hx : F.next x = some (a, rest)) :
    ∃ bs, as = a :: bs ∧ x = F.encode a ++ rest ∧ rest <+: F.encodeAll bs := by
  obtain ⟨y, hy⟩ := h
  have hall := F.next_append x y a rest hx
  cases as with
  | nil =>
    rw [hy, encodeAll_nil, F.next_nil] at hall
    cases hall
  | cons b bs =>
    rw [hy, encodeAll_cons, F.next_encode b _ (has b List.mem_cons_self)] at hall
    obtain ⟨rfl, htail⟩ : b = a ∧ F.encodeAll bs = rest ++ y := by simpa using hall
    refine ⟨bs, rfl, ?_, y, htail.symm⟩
    rw [encodeAll_cons, htail, ← List.append_assoc] at hy
    exact List.append_cancel_right hy

/-- The values recognised and what is left make up the stream, when it is a first part of
one that was written. -/
theorem encodeAll_drain (has : ∀ a ∈ as, F.good a) (h : x <+: F.encodeAll as) :
    F.encodeAll (F.drain x).1 ++ (F.drain x).2 = x := by
  induction as generalizing x with
  | nil =>
    obtain rfl := List.prefix_nil.mp h
    simp
  | cons a as ih =>
    cases hx : F.next x with
    | none => rw [F.drain_none hx, encodeAll_nil, List.nil_append]
    | some found =>
      obtain ⟨b, rest⟩ := found
      obtain ⟨bs, heq, rfl, hrest⟩ := F.next_prefix has h hx
      cases heq
      rw [F.drain_some hx, encodeAll_cons, List.append_assoc,
        ih (fun c hc => has c (List.mem_cons_of_mem _ hc)) hrest]

end Framing

end Dueca.Lib
