import Mathlib.Data.List.Basic

/-!
# Backtracking matchers

A matcher of a regular expression hands the remaining text to a continuation, and tries its other
ways when that one fails. A repetition takes as much as it can first.
-/

namespace Dueca.Lib

variable {α β : Type*}

/-- A class of symbols, as often as possible: `m` has been matched so far. -/
def star (p : α → Bool) (k : List α → List α → Option β) : List α → List α → Option β
  | m, [] => k m []
  | m, c :: s => if p c then (star p k (m ++ [c]) s).or (k m (c :: s)) else k m (c :: s)

/-- A class of symbols, at least once. -/
def plus (p : α → Bool) (k : List α → List α → Option β) : List α → Option β
  | [] => none
  | c :: s => if p c then star p k [c] s else none

/-- A text itself. -/
def lit [DecidableEq α] : List α → (List α → Option β) → List α → Option β
  | [], k, s => k s
  | _ :: _, _, [] => none
  | c :: w, k, d :: s => if c = d then lit w k s else none

variable {p : α → Bool} {k k' : List α → List α → Option β} {m s u v w : List α} {c d : α} {r : β}

/-- The longest match. -/
theorem star_eq_some (hu : ∀ c ∈ u, p c = true) (hv : ∀ c ∈ v.head?, p c = false)
    (hk : k (m ++ u) v = some r) : star p k m (u ++ v) = some r := by
  induction u generalizing m with
  | nil =>
    rw [List.append_nil] at hk
    cases v with
    | nil => exact hk
    | cons c v =>
      rw [List.nil_append, star, hv c rfl]
      exact hk
  | cons c u ih =>
    obtain ⟨hc, hu⟩ := List.forall_mem_cons.mp hu
    rw [List.cons_append, star, if_pos hc, ih hu, Option.some_or]
    rw [List.append_assoc]
    exact hk

theorem plus_eq_some (hne : u ≠ []) (hu : ∀ c ∈ u, p c = true) (hv : ∀ c ∈ v.head?, p c = false)
    (hk : k u v = some r) : plus p k (u ++ v) = some r := by
  cases u with
  | nil => exact absurd rfl hne
  | cons c u =>
    obtain ⟨hc, hu⟩ := List.forall_mem_cons.mp hu
    rw [List.cons_append, plus, if_pos hc]
    exact star_eq_some hu hv hk

/-- No way to go on. -/
theorem star_eq_none (h : ∀ u v, s = u ++ v → (∀ c ∈ u, p c = true) → k (m ++ u) v = none) :
    star p k m s = none := by
  induction s generalizing m with
  | nil => exact List.append_nil m ▸ h [] [] rfl nofun
  | cons c s ih =>
    have hstop : k m (c :: s) = none := List.append_nil m ▸ h [] (c :: s) rfl nofun
    rw [star]
    split_ifs with hc
    · rw [ih, hstop]
      · rfl
      · intro u v hs hu
        rw [List.append_assoc]
        exact h (c :: u) v (congrArg (c :: ·) hs) (List.forall_mem_cons.mpr ⟨hc, hu⟩)
    · exact hstop

theorem plus_eq_none (h : ∀ u v, s = u ++ v → u ≠ [] → (∀ c ∈ u, p c = true) → k u v = none) :
    plus p k s = none := by
  cases s with
  | nil => rfl
  | cons c s =>
    rw [plus]
    split_ifs with hc
    · exact star_eq_none fun u v hs hu => h (c :: u) v (congrArg (c :: ·) hs) (List.cons_ne_nil _ _)
        (List.forall_mem_cons.mpr ⟨hc, hu⟩)
    · rfl

/-- A further symbol at the end makes no difference where the continuation neither succeeds without
a symbol nor minds this one. -/
theorem star_concat (hend : ∀ m, k' m [] = none)
    (hk : ∀ m s, d ∉ s → k' m (s ++ [d]) = k m s) (hs : d ∉ s) :
    star p k' m (s ++ [d]) = star p k m s := by
  induction s generalizing m with
  | nil =>
    have hstop : k' m [d] = k m [] := hk m [] nofun
    rw [List.nil_append, star, star]
    split_ifs
    · rw [star, hend, Option.none_or, hstop]
    · exact hstop
  | cons c s ih =>
    obtain ⟨_, hrest⟩ := not_or.mp (List.mem_cons.not.mp hs)
    rw [List.cons_append, star, star, ih hrest]
    rw [show c :: (s ++ [d]) = c :: s ++ [d] from rfl, hk m (c :: s) hs]

theorem plus_concat (hend : ∀ m, k' m [] = none)
    (hk : ∀ m s, d ∉ s → k' m (s ++ [d]) = k m s) (hs : d ∉ s) :
    plus p k' (s ++ [d]) = plus p k s := by
  cases s with
  | nil =>
    rw [List.nil_append, plus, plus, star, hend]
    exact ite_self none
  | cons c s =>
    obtain ⟨_, hrest⟩ := not_or.mp (List.mem_cons.not.mp hs)
    rw [List.cons_append, plus, plus, star_concat hend hk hrest]

section Lit

variable [DecidableEq α] {f f' : List α → Option β}

theorem lit_append : lit w f (w ++ s) = f s := by
  induction w with
  | nil => rfl
  | cons c w ih => rw [List.cons_append, lit, if_pos rfl, ih]

theorem lit_concat (hw : w ≠ []) (hd : d ∉ w) (hf : ∀ s, d ∉ s → f' (s ++ [d]) = f s) (hs : d ∉ s) :
    lit w f' (s ++ [d]) = lit w f s := by
  induction w generalizing s with
  | nil => exact absurd rfl hw
  | cons c w ih =>
    obtain ⟨hne, hd⟩ := not_or.mp (List.mem_cons.not.mp hd)
    cases s with
    | nil =>
      exact if_neg (Ne.symm hne)
    | cons e s =>
      obtain ⟨_, hrest⟩ := not_or.mp (List.mem_cons.not.mp hs)
      rw [List.cons_append, lit, lit]
      cases w with
      | nil => rw [lit, lit, hf s hrest]
      | cons c' w => rw [ih (List.cons_ne_nil _ _) hd hrest]

/-- A literal that is not there. -/
theorem lit_eq_none_of_not_mem (hc : c ∉ s) : lit (c :: w) f s = none := by
  cases s with
  | nil => rfl
  | cons e s => rw [lit, if_neg (List.ne_of_not_mem_cons hc)]

end Lit

end Dueca.Lib
