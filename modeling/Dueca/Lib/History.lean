import Dueca.Lib.Run

/-!
# Histories

A history is a list that grows at its end. `Preceded` asks for each element of a history
something of the elements before it, and is checked when the element is added. `Throughout` asks
something of each step of a run.
-/

namespace Dueca.Lib

variable {α : Type*} {Q R : List α → α → Prop} {l : List α} {a : α}

/-- Each element meets `Q` with the elements before it. -/
def Preceded (Q : List α → α → Prop) (l : List α) : Prop :=
  ∀ before a after, l = before ++ a :: after → Q before a

@[simp] theorem preceded_nil : Preceded Q ([] : List α) := by
  intro before a after h
  cases before <;> cases h

@[simp] theorem preceded_concat : Preceded Q (l ++ [a]) ↔ Preceded Q l ∧ Q l a := by
  constructor
  · intro h
    constructor
    · rintro before b after rfl
      exact h before b (after ++ [a]) (by simp)
    · exact h l a [] rfl
  · rintro ⟨h, ha⟩ before b after heq
    rcases List.eq_nil_or_concat after with rfl | ⟨after, c, rfl⟩
    · obtain ⟨rfl, hb⟩ := List.append_inj' heq rfl
      cases hb
      exact ha
    · rw [List.concat_eq_append, ← List.cons_append, ← List.append_assoc] at heq
      exact h before b after (List.append_inj' heq rfl).1

/-! ### Steps of a run -/

variable {σ ε : Type*} {step : σ → α → Except ε σ} {ok : σ → α → Prop} {P : σ → α → σ → Prop}
variable {I : σ → List α → Prop} {s t : σ} {as : List α}

/-- The run goes through, and each step has the property `P`. -/
def Throughout (step : σ → α → Except ε σ) (P : σ → α → σ → Prop) : σ → List α → Prop
  | _, [] => True
  | s, a :: as => ∃ t, step s a = .ok t ∧ P s a t ∧ Throughout step P t as

theorem Throughout.exec (h : Throughout step P s as) : ∃ t, exec step s as = .ok t := by
  induction as generalizing s with
  | nil => exact ⟨s, rfl⟩
  | cons a as ih =>
    obtain ⟨u, hu, -, hrest⟩ := h
    obtain ⟨t, ht⟩ := ih hrest
    exact ⟨t, (exec_cons_ok hu).trans ht⟩

/-- The last step of such a run has the property. -/
theorem Throughout.last (h : Throughout step P s (as ++ [a])) :
    ∃ t u, Lib.exec step s as = .ok t ∧ step t a = .ok u ∧ P t a u := by
  induction as generalizing s with
  | nil =>
    obtain ⟨u, hu, hP, -⟩ := h
    exact ⟨s, u, rfl, hu, hP⟩
  | cons b as ih =>
    obtain ⟨v, hv, -, hrest⟩ := h
    obtain ⟨t, u, ht, hu⟩ := ih hrest
    exact ⟨t, u, (exec_cons_ok hv).trans ht, hu⟩

/-- If a step with the property is allowed, then so is the run. -/
theorem Throughout.allowed (h : Throughout step P s as)
    (hok : ∀ s a t, step s a = .ok t → P s a t → ok s a) : Allowed step ok s as := by
  induction as generalizing s with
  | nil => exact trivial
  | cons a as ih =>
    obtain ⟨u, hu, hP, hrest⟩ := h
    exact (allowed_cons_ok hu).mpr ⟨hok s a u hu hP, ih hrest⟩

/-- If allowed steps go through, with the property and with an invariant that may look at the
inputs to come, then an allowed run has the property throughout. -/
theorem throughout_of_allowed
    (hstep : ∀ s a as, I s (a :: as) → ok s a → ∃ t, step s a = .ok t ∧ P s a t ∧ I t as)
    (hI : I s as) (hok : Allowed step ok s as) : Throughout step P s as := by
  induction as generalizing s with
  | nil => exact trivial
  | cons a as ih =>
    obtain ⟨t, ht, hP, hIt⟩ := hstep s a as hI hok.1
    exact ⟨t, ht, hP, ih hIt (hok.2 t ht)⟩

/-- If every step goes through, with the property and with an invariant, then so does every run. -/
theorem throughout_of_steps {J : σ → Prop}
    (hstep : ∀ s a, J s → ∃ t, step s a = .ok t ∧ P s a t ∧ J t) (hJ : J s) (as : List α) :
    Throughout step P s as := by
  induction as generalizing s with
  | nil => exact trivial
  | cons a as ih =>
    obtain ⟨t, ht, hP, hJt⟩ := hstep s a hJ
    exact ⟨t, ht, hP, ih hJt⟩

/-- Such a run ends in a state with the invariant. -/
theorem throughout_ends
    (hstep : ∀ s a as, I s (a :: as) → ok s a → ∃ t, step s a = .ok t ∧ P s a t ∧ I t as)
    (hI : I s as) (hok : Allowed step ok s as) : ∃ t, exec step s as = .ok t ∧ I t [] := by
  induction as generalizing s with
  | nil => exact ⟨s, rfl, hI⟩
  | cons a as ih =>
    obtain ⟨u, hu, -, hIu⟩ := hstep s a as hI hok.1
    obtain ⟨t, ht, hIt⟩ := ih hIu (hok.2 u hu)
    exact ⟨t, (exec_cons_ok hu).trans ht, hIt⟩

end Dueca.Lib
