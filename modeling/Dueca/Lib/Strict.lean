import Dueca.Lib.Run

/-!
# Readers that refuse short input

A reader takes a value from the front of a list. It is strict when what it takes decides the value,
and when any part of that is refused with one of the errors that tell of short input. Readers that
are put together from strict ones are strict.
-/

namespace Dueca.Lib

variable {ε β α γ : Type} {short : ε → Prop} {r r' : List β → Except ε (α × List β)}
variable {s p q rest : List β} {a : α} {e : ε}

/-- What a reader takes decides its value, and less than that is refused; a beginning of refused
input is refused. -/
structure Strict (short : ε → Prop) (r : List β → Except ε (α × List β)) : Prop where
  ok : ∀ s a rest, r s = .ok (a, rest) → ∃ used, s = used ++ rest ∧
    (∀ more, r (used ++ more) = .ok (a, more)) ∧
    ∀ p q, used = p ++ q → q ≠ [] → ∃ e, short e ∧ r p = .error e
  error : ∀ s e, r s = .error e → short e → ∀ p q, s = p ++ q → ∃ e, short e ∧ r p = .error e

/-- A reader takes at least one element. -/
def RefusesNil (short : ε → Prop) (r : List β → Except ε (α × List β)) : Prop :=
  ∃ e, short e ∧ r [] = .error e

theorem mapError_eq_ok {g : ε → ε} {x : Except ε γ} {c : γ} :
    x.mapError g = .ok c ↔ x = .ok c := by
  cases x with
  | ok b => rfl
  | error e => simp only [Except.mapError, reduceCtorEq]

theorem mapError_eq_error {g : ε → ε} {x : Except ε γ} :
    x.mapError g = .error e ↔ ∃ e₀, x = .error e₀ ∧ g e₀ = e := by
  cases x with
  | ok b => simp only [Except.mapError, reduceCtorEq, false_and, exists_false]
  | error e₀ =>
    simp only [Except.mapError, Except.error.injEq, exists_eq_left']

namespace Strict

theorem pure (a : α) : Strict short fun s : List β => .ok (a, s) where
  ok := by
    rintro s b rest h
    cases h
    refine ⟨[], rfl, fun _ => rfl, fun p q heq hq => ?_⟩
    exact absurd (List.append_eq_nil_iff.mp heq.symm).2 hq
  error _ _ h := nomatch h

theorem throw (e : ε) : Strict short fun _ : List β => (.error e : Except ε (α × List β)) where
  ok _ _ _ h := nomatch h
  error := by
    rintro s e' h hshort p q -
    cases h
    exact ⟨e, hshort, rfl⟩

/-- A number of elements. -/
theorem take (n : ℕ) (he : short e) : Strict short fun s : List β =>
    (if s.length < n then .error e else .ok (s.take n, s.drop n)) where
  ok := by
    intro s bs rest h
    split at h
    · cases h
    · rename_i hlen
      cases h
      have htake : (s.take n).length = n := List.length_take_of_le (Nat.le_of_not_lt hlen)
      refine ⟨s.take n, (List.take_append_drop n s).symm, fun more => ?_, fun p q heq hq => ?_⟩
      · rw [if_neg, List.take_left' htake, List.drop_left' htake]
        rw [List.length_append, htake]
        omega
      · rw [heq, List.length_append] at htake
        have hpos := List.length_pos_iff.mpr hq
        exact ⟨e, he, if_pos (by omega)⟩
  error := by
    intro s e' h _ p q heq
    split at h
    · rename_i hlen
      rw [heq, List.length_append] at hlen
      exact ⟨e, he, if_pos (by omega)⟩
    · cases h

theorem ite {c : Prop} {dec : List β → Decidable c} (h : Strict short r) (h' : Strict short r') :
    Strict short fun s => @ite _ c (dec s) (r s) (r' s) := by
  by_cases hc : c
  · simp only [if_pos hc]
    exact h
  · simp only [if_neg hc]
    exact h'

theorem dite {c : Prop} {dec : List β → Decidable c} {r : c → List β → Except ε (α × List β)}
    {r' : ¬c → List β → Except ε (α × List β)} (h : ∀ hc, Strict short (r hc))
    (h' : ∀ hc, Strict short (r' hc)) :
    Strict short fun s => @dite _ c (dec s) (fun hc => r hc s) (fun hc => r' hc s) := by
  by_cases hc : c
  · simp only [dif_pos hc]
    exact h hc
  · simp only [dif_neg hc]
    exact h' hc

/-- All errors replaced by ones that tell of short input. -/
theorem mapError {g : ε → ε} (h : Strict (fun _ => True) r) (hg : ∀ e, short (g e)) :
    Strict short fun s => (r s).mapError g where
  ok := by
    intro s a rest hok
    obtain ⟨used, heq, hmore, hless⟩ := h.ok s a rest (mapError_eq_ok.mp hok)
    refine ⟨used, heq, fun more => mapError_eq_ok.mpr (hmore more), fun p q hp hq => ?_⟩
    obtain ⟨e, -, hrefused⟩ := hless p q hp hq
    exact ⟨g e, hg e, by simp only [hrefused, Except.mapError]⟩
  error := by
    intro s e herr _ p q heq
    obtain ⟨e₀, hr, -⟩ := mapError_eq_error.mp herr
    obtain ⟨e', -, hrefused⟩ := h.error s e₀ hr trivial p q heq
    exact ⟨g e', hg e', by simp only [hrefused, Except.mapError]⟩

/-- One reader after another. -/
theorem bind {f : α × List β → Except ε (γ × List β)} (h : Strict short r)
    (hf : ∀ a, Strict short fun s => f (a, s)) : Strict short fun s => r s >>= f where
  ok := by
    intro s c rest hok
    obtain ⟨⟨a, mid⟩, hr, hfa⟩ := bind_eq_ok.mp hok
    obtain ⟨used, rfl, hmore, hless⟩ := h.ok s a mid hr
    obtain ⟨used', rfl, hmore', hless'⟩ := (hf a).ok mid c rest hfa
    refine ⟨used ++ used', (List.append_assoc used used' rest).symm, fun more => ?_,
      fun p q heq hq => ?_⟩
    · rw [List.append_assoc, hmore]
      exact hmore' more
    · rcases List.append_eq_append_iff.mp heq with ⟨p', rfl, hp'⟩ | ⟨q', rfl, hq'⟩
      · obtain ⟨e, he, hrefused⟩ := hless' p' q hp' hq
        refine ⟨e, he, ?_⟩
        rw [hmore]
        exact hrefused
      · by_cases hnil : q' = []
        · subst hnil
          rw [List.append_nil] at hmore
          obtain ⟨e, he, hrefused⟩ := hless' [] q hq'.symm hq
          refine ⟨e, he, ?_⟩
          have hall := hmore []
          rw [List.append_nil] at hall
          rw [hall]
          exact hrefused
        · obtain ⟨e, he, hrefused⟩ := hless p q' rfl hnil
          refine ⟨e, he, ?_⟩
          rw [hrefused]
          rfl
  error := by
    intro s e herr hshort p q heq
    cases hr : r s with
    | error e' =>
      rw [hr] at herr
      cases herr
      obtain ⟨e₁, he₁, hrefused⟩ := h.error s e hr hshort p q heq
      refine ⟨e₁, he₁, ?_⟩
      rw [hrefused]
      rfl
    | ok x =>
      obtain ⟨a, mid⟩ := x
      rw [hr] at herr
      obtain ⟨used, rfl, hmore, hless⟩ := h.ok s a mid hr
      rcases List.append_eq_append_iff.mp heq with ⟨p', rfl, hp'⟩ | ⟨q', rfl, hq'⟩
      · obtain ⟨e₁, he₁, hrefused⟩ := (hf a).error mid e herr hshort p' q hp'
        refine ⟨e₁, he₁, ?_⟩
        rw [hmore]
        exact hrefused
      · by_cases hnil : q' = []
        · subst hnil
          obtain ⟨e₁, he₁, hrefused⟩ := (hf a).error mid e herr hshort [] mid rfl
          refine ⟨e₁, he₁, ?_⟩
          have hall := hmore []
          rw [List.append_nil, List.append_nil] at hall
          rw [hall]
          exact hrefused
        · obtain ⟨e₁, he₁, hrefused⟩ := hless p q' rfl hnil
          refine ⟨e₁, he₁, ?_⟩
          rw [hrefused]
          rfl

/-- A choice by the first element, which is not taken. -/
theorem peek {f : β → List β → Except ε (α × List β)} (hnil : RefusesNil short r)
    (hcons : ∀ b s, r (b :: s) = f b (b :: s)) (hf : ∀ b, Strict short (f b))
    (hfnil : ∀ b, RefusesNil short (f b)) : Strict short r where
  ok := by
    intro s a rest hok
    cases s with
    | nil =>
      obtain ⟨e, -, hrefused⟩ := hnil
      exact nomatch hok.symm.trans hrefused
    | cons b s =>
      rw [hcons] at hok
      obtain ⟨used, heq, hmore, hless⟩ := (hf b).ok (b :: s) a rest hok
      cases used with
      | nil =>
        -- then the empty list would have been read
        obtain ⟨e, -, hrefused⟩ := hfnil b
        exact nomatch (hmore []).symm.trans hrefused
      | cons c used =>
        obtain ⟨rfl, rfl⟩ := List.cons.inj heq
        refine ⟨b :: used, rfl, fun more => (hcons _ _).trans (hmore more), fun p q hp hq => ?_⟩
        cases p with
        | nil => exact hnil
        | cons c p =>
          obtain ⟨rfl, -⟩ := List.cons.inj hp
          rw [hcons]
          exact hless _ q hp hq
  error := by
    intro s e herr hshort p q heq
    cases p with
    | nil => exact hnil
    | cons c p =>
      subst heq
      rw [List.cons_append, hcons] at herr
      rw [hcons]
      exact (hf c).error _ e herr hshort _ q rfl

/-- A beginning of the input gives no value: neither of what is taken, nor of refused input. -/
theorem refuses_part (h : Strict short r) (hs : s = p ++ q) :
    (∀ a rest, r s = .ok (a, rest) → rest.length < q.length → ∃ e, short e ∧ r p = .error e) ∧
      ∀ e, short e → r s = .error e → ∃ e, short e ∧ r p = .error e := by
  refine ⟨fun a rest hok hlt => ?_, fun e he herr => h.error s e herr he p q hs⟩
  obtain ⟨used, heq, -, hless⟩ := h.ok s a rest hok
  rw [hs] at heq
  rcases List.append_eq_append_iff.mp heq with ⟨q', rfl, hq'⟩ | ⟨p', rfl, hp'⟩
  · refine hless p q' rfl ?_
    rintro rfl
    rw [hq'] at hlt
    exact absurd hlt (Nat.lt_irrefl _)
  · rw [hp', List.length_append] at hlt
    omega

/-- A reader that takes at least one element leaves less. -/
theorem shorter (h : Strict short r) (hnil : RefusesNil short r) (hr : r s = .ok (a, rest)) :
    rest.length < s.length := by
  obtain ⟨used, rfl, hmore, -⟩ := h.ok s a rest hr
  cases used with
  | nil =>
    obtain ⟨e, -, hrefused⟩ := hnil
    exact nomatch (hmore []).symm.trans hrefused
  | cons b used =>
    rw [List.length_append, List.length_cons]
    omega

end Strict

theorem RefusesNil.bind {f : α × List β → Except ε (γ × List β)} (h : RefusesNil short r) :
    RefusesNil short fun s => r s >>= f := by
  obtain ⟨e, he, hrefused⟩ := h
  refine ⟨e, he, ?_⟩
  simp only [hrefused]
  rfl

end Dueca.Lib
