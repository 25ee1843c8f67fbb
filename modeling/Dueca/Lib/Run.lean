import Mathlib.Data.List.Basic
import Mathlib.Algebra.Order.Ring.Int

/-!
# Runs of a faulting step function

A program is a step function `σ → α → Except ε σ`: from a state and an input it
gives the next state, or stops with a fault. `exec` runs it over a list of
inputs. `Allowed` says that every input of the list meets a condition in the
state in which it arrives, and the two rules below carry an invariant along all
such runs, with and without showing that the run goes through.
-/

namespace Dueca.Lib

variable {σ α ε : Type*}

/-- Run a step function over a list of inputs, stopping at the first fault. -/
def exec (step : σ → α → Except ε σ) : σ → List α → Except ε σ
  | s, [] => .ok s
  | s, a :: as =>
    match step s a with
    | .ok t => exec step t as
    | .error e => .error e

/-- One operation after another, where operations also report effects. -/
def andThen {ω : Type*} (res : Except ε (σ × List ω)) (f : σ → Except ε (σ × List ω)) :
    Except ε (σ × List ω) :=
  match res with
  | .error e => .error e
  | .ok (s, out) =>
    match f s with
    | .error e => .error e
    | .ok (t, out') => .ok (t, out ++ out')

/-- Every input of the list meets `ok` in the state in which it arrives. -/
def Allowed (step : σ → α → Except ε σ) (ok : σ → α → Prop) : σ → List α → Prop
  | _, [] => True
  | s, a :: as => ok s a ∧ ∀ t, step s a = .ok t → Allowed step ok t as

/-- Some list of inputs leads from `s` to `t`. -/
def Reaches (step : σ → α → Except ε σ) (s t : σ) : Prop :=
  ∃ as, exec step s as = .ok t

variable {step : σ → α → Except ε σ} {ok : σ → α → Prop} {I : σ → Prop}
variable {s t u : σ} {a : α} {as bs : List α}

theorem bind_eq_ok {β γ ε : Type} {x : Except ε β} {f : β → Except ε γ} {c : γ} :
    x >>= f = .ok c ↔ ∃ b, x = .ok b ∧ f b = .ok c := by
  cases x with
  | ok b => simp [bind, Except.bind]
  | error e => simp [bind, Except.bind]

theorem pure_eq_ok {β ε : Type} {b c : β} : (pure b : Except ε β) = .ok c ↔ b = c :=
  Except.ok.injEq b c ▸ Iff.rfl

theorem throw_ne_ok {β ε : Type} {e : ε} {c : β} : (throw e : Except ε β) ≠ .ok c := nofun

theorem andThen_eq_ok {ω : Type*} {res : Except ε (σ × List ω)}
    {f : σ → Except ε (σ × List ω)} {out : List ω} :
    andThen res f = .ok (t, out) ↔
      ∃ s o o', res = .ok (s, o) ∧ f s = .ok (t, o') ∧ out = o ++ o' := by
  unfold andThen
  split
  · simp
  · rename_i s o
    split
    · simp_all
    · simp_all [eq_comm]

@[simp] theorem exec_nil : exec step s [] = .ok s := rfl

theorem exec_cons_ok (h : step s a = .ok t) : exec step s (a :: as) = exec step t as := by
  simp only [exec, h]

theorem exec_cons_eq_ok :
    exec step s (a :: as) = .ok u ↔ ∃ t, step s a = .ok t ∧ exec step t as = .ok u := by
  cases h : step s a with
  | ok t => simp [exec, h]
  | error e => simp [exec, h]

theorem exec_append :
    exec step s (as ++ bs) = .ok u ↔ ∃ t, exec step s as = .ok t ∧ exec step t bs = .ok u := by
  induction as generalizing s with
  | nil => simp
  | cons a as ih =>
    simp only [List.cons_append, exec_cons_eq_ok, ih]
    constructor
    · rintro ⟨v, hv, t, ht, hu⟩
      exact ⟨t, ⟨v, hv, ht⟩, hu⟩
    · rintro ⟨t, ⟨v, hv, ht⟩, hu⟩
      exact ⟨v, hv, t, ht, hu⟩

theorem exec_concat :
    exec step s (as ++ [a]) = .ok u ↔ ∃ t, exec step s as = .ok t ∧ step t a = .ok u := by
  simp only [exec_append, exec_cons_eq_ok, exec_nil, Except.ok.injEq, exists_eq_right]

@[simp] theorem allowed_nil : Allowed step ok s [] := trivial

theorem allowed_cons_ok (h : step s a = .ok t) :
    Allowed step ok s (a :: as) ↔ ok s a ∧ Allowed step ok t as := by
  constructor
  · rintro ⟨hok, hrest⟩
    exact ⟨hok, hrest t h⟩
  · rintro ⟨hok, hrest⟩
    refine ⟨hok, fun u hu => ?_⟩
    obtain rfl : t = u := Except.ok.inj (h.symm.trans hu)
    exact hrest

/-- An invariant that every allowed step preserves holds after every allowed run. -/
theorem exec_invariant
    (hstep : ∀ s a t, I s → ok s a → step s a = .ok t → I t)
    (hI : I s) (hok : Allowed step ok s as) (hexec : exec step s as = .ok t) : I t := by
  induction as generalizing s with
  | nil => exact Except.ok.inj hexec ▸ hI
  | cons a as ih =>
    obtain ⟨u, hu, hrest⟩ := exec_cons_eq_ok.mp hexec
    exact ih (hstep s a u hI hok.1 hu) (hok.2 u hu) hrest

/-- An invariant that every step preserves holds in every state that is reached. -/
theorem Reaches.invariant (hstep : ∀ s a t, I s → step s a = .ok t → I t)
    (hI : I s) (h : Reaches step s t) : I t := by
  obtain ⟨as, hexec⟩ := h
  induction as generalizing s with
  | nil => exact Except.ok.inj hexec ▸ hI
  | cons a as ih =>
    obtain ⟨u, hu, hrest⟩ := exec_cons_eq_ok.mp hexec
    exact ih (hstep s a u hI hu) hrest

/-- A fault of an allowed run is a fault of one of its steps. -/
theorem exec_fault {E : ε → Prop} {e : ε}
    (hstep : ∀ s a t, I s → ok s a → step s a = .ok t → I t)
    (hfault : ∀ s a e, I s → ok s a → step s a = .error e → E e)
    (hI : I s) (hok : Allowed step ok s as) (h : exec step s as = .error e) : E e := by
  induction as generalizing s with
  | nil => cases h
  | cons a as ih =>
    simp only [exec] at h
    split at h
    · rename_i t ht
      exact ih (hstep s a t hI hok.1 ht) (hok.2 t ht) h
    · rename_i e' he
      cases h
      exact hfault s a e hI hok.1 he

/-- If an allowed step never faults and preserves the invariant, an allowed run
goes through and ends in a state with the invariant. -/
theorem exec_progress
    (hstep : ∀ s a, I s → ok s a → ∃ t, step s a = .ok t ∧ I t)
    (hI : I s) (hok : Allowed step ok s as) : ∃ t, exec step s as = .ok t ∧ I t := by
  induction as generalizing s with
  | nil => exact ⟨s, rfl, hI⟩
  | cons a as ih =>
    obtain ⟨u, hu, hIu⟩ := hstep s a hI hok.1
    obtain ⟨t, ht, hIt⟩ := ih hIu (hok.2 u hu)
    exact ⟨t, (exec_cons_ok hu).trans ht, hIt⟩

/-- If under an invariant only allowed steps go through, a run that goes through
is allowed. -/
theorem allowed_of_exec_invariant (hinv : ∀ s a t, I s → step s a = .ok t → I t)
    (hstep : ∀ s a t, I s → step s a = .ok t → ok s a)
    (hI : I s) (hexec : exec step s as = .ok t) : Allowed step ok s as := by
  induction as generalizing s with
  | nil => exact trivial
  | cons a as ih =>
    obtain ⟨u, hu, hrest⟩ := exec_cons_eq_ok.mp hexec
    exact (allowed_cons_ok hu).mpr ⟨hstep s a u hI hu, ih (hinv s a u hI hu) hrest⟩

/-- The run goes through and its end state passes a test. -/
def endsIn (step : σ → α → Except ε σ) (s : σ) (as : List α) (test : σ → Bool) : Bool :=
  match exec step s as with
  | .ok t => test t
  | .error _ => false

theorem exists_of_endsIn (step : σ → α → Except ε σ) (s : σ) (as : List α) (test : σ → Bool)
    (h : endsIn step s as test = true) :
    ∃ t, exec step s as = .ok t ∧ test t = true := by
  unfold endsIn at h
  split at h
  · rename_i t ht
    exact ⟨t, ht, h⟩
  · cases h

/-- Every input passes a test in the state in which it arrives. -/
def checks (step : σ → α → Except ε σ) (test : σ → α → Bool) : σ → List α → Bool
  | _, [] => true
  | s, a :: as =>
    test s a && match step s a with
      | .ok t => checks step test t as
      | .error _ => true

theorem allowed_of_checks {test : σ → α → Bool} (htest : ∀ s a, test s a = true → ok s a)
    (h : checks step test s as = true) : Allowed step ok s as := by
  induction as generalizing s with
  | nil => exact trivial
  | cons a as ih =>
    rw [checks, Bool.and_eq_true] at h
    refine ⟨htest s a h.1, fun t ht => ih ?_⟩
    have hrest := h.2
    rw [ht] at hrest
    exact hrest

theorem Allowed.of_append (h : Allowed step ok s (as ++ bs)) : Allowed step ok s as := by
  induction as generalizing s with
  | nil => exact trivial
  | cons a as ih => exact ⟨h.1, fun t ht => ih (h.2 t ht)⟩

/-- The last input of an allowed run meets the condition. -/
theorem Allowed.last (h : Allowed step ok s (as ++ [a])) (hexec : exec step s as = .ok t) :
    ok t a := by
  induction as generalizing s with
  | nil =>
    cases hexec
    exact h.1
  | cons b as ih =>
    obtain ⟨u, hu, hrest⟩ := exec_cons_eq_ok.mp hexec
    exact ih (h.2 u hu) hrest

/-- A run is allowed if its inputs meet the condition in all states. -/
theorem Allowed.of_forall (h : ∀ a ∈ as, ∀ s, ok s a) : Allowed step ok s as := by
  induction as generalizing s with
  | nil => exact trivial
  | cons a as ih =>
    exact ⟨h a List.mem_cons_self s, fun t _ => ih fun b hb => h b (List.mem_cons_of_mem _ hb)⟩

/-- A condition that all inputs meet may be added. -/
theorem Allowed.and_mem {P : α → Prop} (h : Allowed step ok s as) (hmem : ∀ a ∈ as, P a) :
    Allowed step (fun s a => ok s a ∧ P a) s as := by
  induction as generalizing s with
  | nil => exact trivial
  | cons a as ih =>
    exact ⟨⟨h.1, hmem a List.mem_cons_self⟩,
      fun t ht => ih (h.2 t ht) fun b hb => hmem b (List.mem_cons_of_mem _ hb)⟩

/-- Conditions that agree under an invariant allow the same runs. -/
theorem allowed_congr {ok' : σ → α → Prop}
    (hstep : ∀ s a t, I s → ok s a → step s a = .ok t → I t)
    (hiff : ∀ s a, I s → (ok s a ↔ ok' s a)) (hI : I s) :
    Allowed step ok s as ↔ Allowed step ok' s as := by
  induction as generalizing s with
  | nil => exact Iff.rfl
  | cons a as ih =>
    constructor
    · rintro ⟨hok, hrest⟩
      exact ⟨(hiff s a hI).mp hok, fun t ht => (ih (hstep s a t hI hok ht)).mp (hrest t ht)⟩
    · rintro ⟨hok', hrest⟩
      have hok := (hiff s a hI).mpr hok'
      exact ⟨hok, fun t ht => (ih (hstep s a t hI hok ht)).mpr (hrest t ht)⟩

/-- A condition that follows from another one under an invariant allows as much. -/
theorem Allowed.imp {ok' : σ → α → Prop} (h : Allowed step ok s as)
    (hstep : ∀ s a t, I s → ok s a → step s a = .ok t → I t)
    (himp : ∀ s a, I s → ok s a → ok' s a) (hI : I s) : Allowed step ok' s as := by
  induction as generalizing s with
  | nil => exact trivial
  | cons a as ih =>
    exact ⟨himp s a hI h.1, fun t ht => ih (h.2 t ht) (hstep s a t hI h.1 ht)⟩

/-- Every part of an allowed run from its start is allowed. -/
theorem Allowed.of_prefix (h : Allowed step ok s bs) (hp : as <+: bs) :
    Allowed step ok s as := by
  obtain ⟨cs, rfl⟩ := hp
  exact h.of_append

end Dueca.Lib
