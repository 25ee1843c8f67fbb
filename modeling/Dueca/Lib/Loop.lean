import Mathlib.Logic.Relation
import Mathlib.Data.Nat.Basic

/-!
# Loops that may not end

The body of a loop gives the next state, or the result with which the loop ends.
-/

namespace Dueca.Lib

variable {σ ρ : Type*} {body : σ → σ ⊕ ρ} {I : σ → Prop} {s t : σ} {r : ρ}

/-- At most `n` turns of a loop. -/
def loop (body : σ → σ ⊕ ρ) : ℕ → σ → Option ρ
  | 0, _ => none
  | n + 1, s =>
    match body s with
    | .inl t => loop body n t
    | .inr r => some r

/-- The loop ends. -/
def Ends (body : σ → σ ⊕ ρ) (s : σ) : Prop := ∃ n r, loop body n s = some r

/-- The loop ends with the result `r`. -/
def Returns (body : σ → σ ⊕ ρ) (s : σ) (r : ρ) : Prop := ∃ n, loop body n s = some r

/-- One turn leads from `s` to `t`. -/
def Follows (body : σ → σ ⊕ ρ) (s t : σ) : Prop := body s = .inl t

theorem loop_succ_next (h : body s = .inl t) (n : ℕ) :
    loop body (n + 1) s = loop body n t := by
  simp only [loop, h]

theorem loop_succ_done (h : body s = .inr r) (n : ℕ) : loop body (n + 1) s = some r := by
  simp only [loop, h]

theorem ends_of_done (h : body s = .inr r) : Ends body s := ⟨1, r, loop_succ_done h 0⟩

theorem ends_iff_next (h : body s = .inl t) : Ends body s ↔ Ends body t := by
  constructor
  · rintro ⟨n, r, hn⟩
    cases n with
    | zero => cases hn
    | succ n => exact ⟨n, r, loop_succ_next h n ▸ hn⟩
  · rintro ⟨n, r, hn⟩
    exact ⟨n + 1, r, (loop_succ_next h n).trans hn⟩

theorem returns_iff_next (h : body s = .inl t) : Returns body s r ↔ Returns body t r := by
  constructor
  · rintro ⟨n, hn⟩
    cases n with
    | zero => cases hn
    | succ n => exact ⟨n, loop_succ_next h n ▸ hn⟩
  · rintro ⟨n, hn⟩
    exact ⟨n + 1, (loop_succ_next h n).trans hn⟩

theorem returns_iff_done {r' : ρ} (h : body s = .inr r') : Returns body s r ↔ r' = r := by
  constructor
  · rintro ⟨n, hn⟩
    cases n with
    | zero => cases hn
    | succ n => exact Option.some.inj ((loop_succ_done h n).symm.trans hn)
  · rintro rfl
    exact ⟨1, loop_succ_done h 0⟩

/-- More turns change nothing. -/
theorem loop_mono {m n : ℕ} (hle : m ≤ n) (h : loop body m s = some r) :
    loop body n s = some r := by
  induction m generalizing n s with
  | zero => cases h
  | succ m ih =>
    obtain ⟨n, rfl⟩ := Nat.exists_eq_succ_of_ne_zero (Nat.pos_iff_ne_zero.mp (by omega : 0 < n))
    cases hbody : body s with
    | inl t =>
      rw [loop_succ_next hbody] at h ⊢
      exact ih (Nat.le_of_succ_le_succ hle) h
    | inr r' => rwa [loop_succ_done hbody] at h ⊢

/-- What each turn keeps holds of the result. -/
theorem Returns.invariant {J : ρ → Prop} (hstep : ∀ s t, I s → body s = .inl t → I t)
    (hdone : ∀ s r, I s → body s = .inr r → J r) (hs : I s) (h : Returns body s r) : J r := by
  obtain ⟨n, hn⟩ := h
  induction n generalizing s with
  | zero => cases hn
  | succ n ih =>
    cases hbody : body s with
    | inl t => exact ih (hstep s t hs hbody) (loop_succ_next hbody n ▸ hn)
    | inr r' =>
      obtain rfl := Option.some.inj ((loop_succ_done hbody n).symm.trans hn)
      exact hdone s r' hs hbody

/-- Two loops of which the turns go along give the same result. -/
theorem loop_eq_of_simulates {τ : Type*} {body' : τ → τ ⊕ ρ} {R : σ → τ → Prop} {s' : τ}
    (hnext : ∀ s t s', R s s' → body s = .inl t → ∃ t', body' s' = .inl t' ∧ R t t')
    (hdone : ∀ s r s', R s s' → body s = .inr r → body' s' = .inr r)
    (hR : R s s') (n : ℕ) : loop body n s = loop body' n s' := by
  induction n generalizing s s' with
  | zero => rfl
  | succ n ih =>
    cases hbody : body s with
    | inl t =>
      obtain ⟨t', hbody', hR'⟩ := hnext s t s' hR hbody
      rw [loop_succ_next hbody, loop_succ_next hbody', ih hR']
    | inr r => rw [loop_succ_done hbody, loop_succ_done (hdone s r s' hR hbody)]

/-- A loop ends from all states it comes to, or from none. -/
theorem ends_iff_of_follows (h : Relation.ReflTransGen (Follows body) s t) :
    Ends body s ↔ Ends body t := by
  induction h with
  | refl => exact Iff.rfl
  | tail _ hstep ih => exact ih.trans (ends_iff_next hstep)

/-- A loop ends when a number decreases at each turn. -/
theorem ends_of_measure (μ : σ → ℕ)
    (hstep : ∀ s t, I s → body s = .inl t → I t ∧ μ t < μ s) (hs : I s) : Ends body s := by
  induction hn : μ s using Nat.strong_induction_on generalizing s with
  | _ n ih =>
    cases hbody : body s with
    | inl t =>
      obtain ⟨ht, hlt⟩ := hstep s t hs hbody
      exact (ends_iff_next hbody).mpr (ih (μ t) (hn ▸ hlt) ht rfl)
    | inr r => exact ends_of_done hbody

/-- A loop does not end when each turn leads to another one. -/
theorem not_ends_of_invariant (hstep : ∀ s, I s → ∃ t, body s = .inl t ∧ I t) (hs : I s) :
    ¬Ends body s := by
  rintro ⟨n, r, hn⟩
  induction n generalizing s with
  | zero => cases hn
  | succ n ih =>
    obtain ⟨t, hbody, ht⟩ := hstep s hs
    exact ih ht (loop_succ_next hbody n ▸ hn)

/-- What each turn keeps holds in all states that the loop comes to. -/
theorem invariant_of_follows (hstep : ∀ s t, I s → body s = .inl t → I t) (hs : I s)
    (h : Relation.ReflTransGen (Follows body) s t) : I t := by
  induction h with
  | refl => exact hs
  | tail _ hfollows ih => exact hstep _ _ ih hfollows

end Dueca.Lib
