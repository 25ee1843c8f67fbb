import Dueca.Policy.Combine

/-!
# Combined conditions are joins

The result of a combination is a join: one reference for each tuple whose members agree on every
match element for which they have a value. A member without a value that comes after one with a
value is taken for a mismatch, so this fails where an agreeing tuple has both.
-/

namespace Dueca.Policy

open Dueca.Lib

variable {V E X : Type} [DecidableEq V] [DecidableEq E] [DecidableEq X]

/-! ### What is expected -/

/-- The value of an element, if there is one. -/
def MatchReference.attr (r : MatchReference E X) (e : E) : Option X := (r.attrs e).join

/-- Members that have a value for a match element have the same. -/
def Agrees (matchelts : List E) (t : List (MatchReference E X)) : Prop :=
  ∀ e ∈ matchelts, ∀ r ∈ t, ∀ r' ∈ t, r.attr e ≠ none → r'.attr e ≠ none → r.attr e = r'.attr e

/-- For a match element, some member has a value and some has none. -/
def Mixed (matchelts : List E) (t : List (MatchReference E X)) : Prop :=
  ∃ e ∈ matchelts, (∃ r ∈ t, r.attr e ≠ none) ∧ ∃ r ∈ t, r.attr e = none

instance (matchelts : List E) : DecidablePred (Agrees (X := X) matchelts) := fun t =>
  inferInstanceAs (Decidable (∀ e ∈ matchelts, ∀ r ∈ t, ∀ r' ∈ t,
    r.attr e ≠ none → r'.attr e ≠ none → r.attr e = r'.attr e))

instance (matchelts : List E) : DecidablePred (Mixed (X := X) matchelts) := fun t =>
  inferInstanceAs (Decidable (∃ e ∈ matchelts,
    (∃ r ∈ t, r.attr e ≠ none) ∧ ∃ r ∈ t, r.attr e = none))

/-- The product of the values, or the greatest one. -/
def Kind.total : Kind → List (MatchReference E X) → ℚ
  | and, t => (t.map (·.value)).prod
  | or, t => ((t.map (·.value)).max?).getD 0

/-- A tuple for which a reference is to be made. -/
def Wanted (kind : Kind) (matchelts : List E) (trim : Bool) (t : List (MatchReference E X)) :
    Prop :=
  Agrees matchelts t ∧ (trim = true → kind.total t ≠ 0)

instance (kind : Kind) (matchelts : List E) (trim : Bool) :
    DecidablePred (Wanted (X := X) kind matchelts trim) := fun t =>
  inferInstanceAs (Decidable (Agrees matchelts t ∧ (trim = true → kind.total t ≠ 0)))

/-- The reference of a tuple, apart from its result elements. -/
structure Describes (kind : Kind) (matchelts : List E) (resultelts : List (E × Selection V))
    (t : List (MatchReference E X)) (mr : MatchReference E X) : Prop where
  value : mr.value = kind.total t
  attrs : ∀ e ∈ matchelts, e ∉ resultelts.map Prod.fst →
    ∀ x, mr.attrs e = some (some x) ↔ ∃ r ∈ t, r.attr e = some x

/-- All tuples of the input variables. -/
def tuples (kwargs : V → Option (List (MatchReference E X))) (inputvars : List V) :
    List (List (MatchReference E X)) :=
  product (inputvars.map fun v => (kwargs v).getD [])

/-- One reference for each tuple for which one is to be made. -/
def IsJoin (kind : Kind) (kwargs : V → Option (List (MatchReference E X))) (inputvars : List V)
    (matchelts : List E) (resultelts : List (E × Selection V)) (trim : Bool)
    (res : List (MatchReference E X)) : Prop :=
  List.Forall₂ (Describes kind matchelts resultelts)
    ((tuples kwargs inputvars).filter (Wanted kind matchelts trim ·)) res

/-- All input variables are there, and their references have the attributes that are asked for. -/
structure WellFormed (kwargs : V → Option (List (MatchReference E X))) (inputvars : List V)
    (matchelts : List E) (resultelts : List (E × Selection V)) : Prop where
  inputs : ∀ v ∈ inputvars, ∃ l, kwargs v = some l ∧
    ∀ r ∈ l, ∀ e ∈ matchelts, (r.attrs e).isSome
  selections : ∀ s ∈ resultelts, ∀ v ∈ s.2.first :: s.2.others, v ∈ inputvars ∧
    ∀ r ∈ (kwargs v).getD [], (r.attrs s.1).isSome

/-- With or without trimming, and with the variables in any order, a combination gives the join,
with the same references; and a condition gives it with the option given for it. -/
structure CombinesAsJoin (kind : Kind) (params : String → Option String)
    (funmapping : Option X → Option X → Option X → Option X)
    (kwargs : V → Option (List (MatchReference E X))) (inputvars : List V) (matchelts : List E)
    (resultelts : List (E × Selection V)) : Prop where
  combination : ∀ (trim : Bool) (vars : List V), vars.Perm inputvars → ∃ res res',
    combine kind funmapping kwargs inputvars matchelts resultelts trim = .ok res ∧
    combine kind funmapping kwargs vars matchelts resultelts trim = .ok res' ∧
      IsJoin kind kwargs vars matchelts resultelts trim res' ∧ res'.Perm res
  condition : ∃ res, resultvar kind params funmapping kwargs inputvars matchelts resultelts =
    .ok res ∧ IsJoin kind kwargs inputvars matchelts resultelts (trimGiven params = some true) res

/-! ### A tuple -/

/-- No member of the tuple has another value than an earlier one has, or none. -/
def Accepted (matchelts : List E) (t : List (MatchReference E X)) : Prop :=
  ∀ e ∈ matchelts, t.Pairwise fun r r' => r.attr e ≠ none → r'.attr e = r.attr e

/-- The value of the first member that has one. -/
def firstValue (t : List (MatchReference E X)) (e : E) : Option X := t.findSome? (·.attr e)

/-- The match elements that have a value, before result elements are added. -/
def common (matchelts : List E) (t : List (MatchReference E X)) (base : E → Option (Option X)) :
    E → Option (Option X) :=
  fun e => if e ∈ matchelts ∧ firstValue t e ≠ none then some (firstValue t e) else base e

variable {kind : Kind} {funmapping : Option X → Option X → Option X → Option X}
  {kwargs : V → Option (List (MatchReference E X))} {inputvars vars : List V} {matchelts : List E}
  {resultelts : List (E × Selection V)} {trim : Bool} {r i0 : MatchReference E X}
  {t inputs : List (MatchReference E X)} {e : E}

omit [DecidableEq E] [DecidableEq X] in
theorem attrs_eq (h : (r.attrs e).isSome) : r.attrs e = some (r.attr e) := by
  obtain ⟨x, hx⟩ := Option.isSome_iff_exists.mp h
  rw [MatchReference.attr, hx]
  rfl

omit [DecidableEq E] [DecidableEq X] in
theorem firstValue_cons_none (h : r.attr e = none) : firstValue (r :: t) e = firstValue t e := by
  rw [firstValue, List.findSome?_cons, h]
  rfl

omit [DecidableEq E] [DecidableEq X] in
theorem firstValue_cons_some {x : X} (h : r.attr e = some x) : firstValue (r :: t) e = some x := by
  rw [firstValue, List.findSome?_cons, h]

omit [DecidableEq E] in
/-- The running value stands for a member in front of the others. -/
theorem matchElt_spec (hwf : ∀ r ∈ inputs, (r.attrs e).isSome) (r : MatchReference E X) :
    ∃ found x, matchElt e (r.attr e) inputs = .ok (found, x) ∧
      (found = true ↔ (r :: inputs).Pairwise fun r r' => r.attr e ≠ none → r'.attr e = r.attr e) ∧
      (found = true → x = firstValue (r :: inputs) e) := by
  induction inputs generalizing r with
  | nil =>
    refine ⟨true, r.attr e, by rw [matchElt], ?_, fun _ => ?_⟩
    · exact ⟨fun _ => List.pairwise_singleton _ _, fun _ => rfl⟩
    · cases hr : r.attr e with
      | none => exact (firstValue_cons_none (t := []) hr).symm
      | some x => exact (firstValue_cons_some hr).symm
  | cons iv inputs ih =>
    obtain ⟨hiv, hwf⟩ := List.forall_mem_cons.mp hwf
    rw [matchElt, attrs_eq hiv]
    cases hr : r.attr e with
    | none =>
      obtain ⟨found, x, hmatch, hfound, hx⟩ := ih hwf iv
      refine ⟨found, x, hmatch, hfound.trans ?_, fun h => ?_⟩
      · rw [List.pairwise_cons (l := iv :: inputs)]
        exact ⟨fun h => ⟨fun _ _ hne => absurd hr hne, h⟩, And.right⟩
      · exact (hx h).trans (firstValue_cons_none hr).symm
    | some y =>
      by_cases hsame : some y = iv.attr e
      · obtain ⟨found, x, hmatch, hfound, hx⟩ := ih hwf iv
        refine ⟨found, x, ?_, hfound.trans ?_, fun h => ?_⟩
        · dsimp only
          rw [if_neg (not_not.mpr hsame), hsame]
          exact hmatch
        · rw [List.pairwise_cons (l := iv :: inputs)]
          refine ⟨fun h => ⟨fun r' hr' _ => ?_, h⟩, And.right⟩
          rcases List.mem_cons.mp hr' with rfl | hr'
          · exact hsame.symm.trans hr.symm
          · exact ((List.pairwise_cons.mp h).1 r' hr' (hsame ▸ nofun)).trans
              (hsame.symm.trans hr.symm)
        · rw [hx h, firstValue_cons_some hr, firstValue_cons_some hsame.symm]
      · refine ⟨false, some y, ?_, ?_, nofun⟩
        · dsimp only
          rw [if_pos hsame]
        · refine ⟨nofun, fun h => absurd ?_ hsame⟩
          exact ((List.pairwise_cons.mp h).1 iv List.mem_cons_self (hr ▸ nofun)).symm ▸ hr.symm

/-- All match elements: whether the tuple is accepted, and the values that its members have. -/
theorem matchElts_spec (hwf : ∀ r ∈ i0 :: inputs, ∀ e ∈ matchelts, (r.attrs e).isSome)
    (matching : Bool) (base : E → Option (Option X)) :
    ∃ found res, matchElts i0 inputs matching base matchelts = .ok (found, res) ∧
      (found = true ↔ matching = true ∧ Accepted matchelts (i0 :: inputs)) ∧
      (Accepted matchelts (i0 :: inputs) → res = common matchelts (i0 :: inputs) base) := by
  induction matchelts generalizing matching base with
  | nil =>
    refine ⟨matching, base, rfl, ?_, fun _ => ?_⟩
    · exact ⟨fun h => ⟨h, nofun⟩, And.left⟩
    · funext e
      rw [common, if_neg fun h => nomatch h.1]
  | cons elt elts ih =>
    have hwfs := fun r hr e he => hwf r hr e (List.mem_cons_of_mem _ he)
    have hinputs : ∀ r ∈ inputs, (r.attrs elt).isSome :=
      fun r hr => hwf r (List.mem_cons_of_mem _ hr) elt List.mem_cons_self
    obtain ⟨found, x, hmatch, hfound, hx⟩ := matchElt_spec hinputs i0
    have haccepted : Accepted (elt :: elts) (i0 :: inputs) ↔
        found = true ∧ Accepted elts (i0 :: inputs) := by
      rw [Accepted, List.forall_mem_cons, hfound, Accepted]
    rw [matchElts, attrs_eq (hwf i0 List.mem_cons_self elt List.mem_cons_self)]
    dsimp only
    rw [hmatch]
    cases x with
    | none =>
      obtain ⟨found', res, hrest, hfound', hres⟩ := ih hwfs (matching && found) base
      refine ⟨found', res, hrest, hfound'.trans ?_, fun h => ?_⟩
      · rw [haccepted, Bool.and_eq_true, and_assoc]
      · obtain ⟨hf, hacc⟩ := haccepted.mp h
        rw [hres hacc]
        funext e
        rw [common, common]
        by_cases he : e = elt
        · subst he
          rw [if_neg fun h => h.2 (hx hf).symm, if_neg fun h => h.2 (hx hf).symm]
        · simp only [List.mem_cons, he, false_or]
    | some y =>
      obtain ⟨found', res, hrest, hfound', hres⟩ :=
        ih hwfs (matching && found) (Function.update base elt (some (some y)))
      refine ⟨found', res, hrest, hfound'.trans ?_, fun h => ?_⟩
      · rw [haccepted, Bool.and_eq_true, and_assoc]
      · obtain ⟨hf, hacc⟩ := haccepted.mp h
        rw [hres hacc]
        funext e
        rw [common, common]
        by_cases he : e = elt
        · subst he
          have hfirst : firstValue (i0 :: inputs) e ≠ none := (hx hf) ▸ nofun
          rw [if_pos (c := e ∈ e :: elts ∧ _) ⟨List.mem_cons_self, hfirst⟩]
          split_ifs
          · rfl
          · rw [Function.update_self, hx hf]
        · rw [Function.update_of_ne he]
          simp only [List.mem_cons, he, false_or]

/-! ### The value of a tuple -/

omit [DecidableEq E] [DecidableEq X] in
theorem foldl_op (kind : Kind) (i0 : MatchReference E X) (inputs : List (MatchReference E X)) :
    inputs.foldl (fun value iv => kind.op value iv.value) i0.value = kind.total (i0 :: inputs) := by
  cases kind with
  | and =>
    rw [Kind.total, List.map_cons, List.prod_cons]
    generalize i0.value = value
    induction inputs generalizing value with
    | nil => exact (mul_one value).symm
    | cons iv inputs ih =>
      rw [List.foldl_cons, ih, List.map_cons, List.prod_cons, ← mul_assoc]
      rfl
  | or =>
    rw [Kind.total, List.map_cons, List.max?_cons', List.foldl_map]
    rfl

omit [DecidableEq E] [DecidableEq X] in
theorem total_perm (kind : Kind) {t t' : List (MatchReference E X)} (h : t.Perm t') :
    kind.total t = kind.total t' := by
  cases kind with
  | and => exact (h.map _).prod_eq
  | or =>
    have hmem := fun x => (h.map (·.value)).mem_iff (a := x)
    rw [Kind.total, Kind.total]
    congr 1
    refine Option.ext fun x => ?_
    rw [List.max?_eq_some_iff, List.max?_eq_some_iff]
    simp only [hmem]

/-! ### The reference of a tuple -/

omit [DecidableEq X] in
/-- The result elements can be added, and leave the others alone. -/
theorem addResults_spec {inputs : List (MatchReference E X)}
    (h : ∀ s ∈ resultelts, ∃ x, combineElts funmapping inputvars s.2 s.1 inputs = .ok x)
    (base : E → Option (Option X)) :
    ∃ attrs, addResults funmapping inputvars inputs base resultelts = .ok attrs ∧
      ∀ e, e ∉ resultelts.map Prod.fst → attrs e = base e := by
  induction resultelts generalizing base with
  | nil => exact ⟨base, rfl, fun _ _ => rfl⟩
  | cons s resultelts ih =>
    obtain ⟨hs, hrest⟩ := List.forall_mem_cons.mp h
    obtain ⟨x, hx⟩ := hs
    obtain ⟨attrs, hattrs, hother⟩ := ih hrest (Function.update base s.1 (some x))
    refine ⟨attrs, ?_, fun e he => ?_⟩
    · rw [addResults, hx]
      exact hattrs
    · rw [List.map_cons, List.mem_cons, not_or] at he
      rw [hother e he.2, Function.update_of_ne he.1]

/-- What becomes of a tuple: a reference with its total and the values of its members, if it is
accepted and not trimmed away. -/
theorem combineTuple_eq (hne : t ≠ [])
    (hwf : ∀ r ∈ t, ∀ e ∈ matchelts, (r.attrs e).isSome) [Decidable (Accepted matchelts t)] :
    combineTuple kind funmapping inputvars matchelts resultelts trim t =
      if Accepted matchelts t ∧ (trim = true → kind.total t ≠ 0) then
        (addResults funmapping inputvars t (common matchelts t fun _ => none) resultelts).map
          fun attrs => some { value := kind.total t, attrs := attrs }
      else .ok none := by
  cases t with
  | nil => exact absurd rfl hne
  | cons i0 inputs =>
    obtain ⟨found, res, hmatch, hfound, hres⟩ := matchElts_spec hwf true fun _ => none
    rw [combineTuple, hmatch]
    cases found with
    | false =>
      have hnot : ¬ Accepted matchelts (i0 :: inputs) := fun h => nomatch hfound.mpr ⟨rfl, h⟩
      rw [if_neg fun h => hnot h.1]
    | true =>
      have hacc := (hfound.mp rfl).2
      dsimp only
      rw [foldl_op, hres hacc]
      have htest : kind.total (i0 :: inputs) ≠ 0 ∨ trim = false ↔
          Accepted matchelts (i0 :: inputs) ∧ (trim = true → kind.total (i0 :: inputs) ≠ 0) := by
        cases trim with
        | false => exact ⟨fun _ => ⟨hacc, nofun⟩, fun _ => .inr rfl⟩
        | true => exact ⟨fun h => ⟨hacc, fun _ => h.resolve_right nofun⟩, fun h => .inl (h.2 rfl)⟩
      simp only [htest]
      split_ifs
      · cases addResults funmapping inputvars (i0 :: inputs) _ resultelts <;> rfl
      · rfl

/-! ### Assignments -/

section Assignments

variable {p p' : List (V × MatchReference E X)} {inputs' : List (MatchReference E X)}

omit [DecidableEq E] [DecidableEq X] in
/-- The position of a variable leads to its input. -/
theorem inputElt_eq (p : List (V × MatchReference E X)) (ekey : E) (v : V) :
    inputElt (p.map Prod.fst) (p.map Prod.snd) ekey v =
      match (p.lookup v).bind (·.attrs ekey) with
      | none => .error ()
      | some x => .ok x := by
  induction p with
  | nil => rfl
  | cons q p ih =>
    obtain ⟨v', r⟩ := q
    rw [inputElt, List.map_cons, List.map_cons, List.idxOf?_cons, List.lookup_cons]
    by_cases hv : v' = v
    · subst hv
      rw [if_pos (beq_self_eq_true _), beq_self_eq_true]
      cases r.attrs ekey <;> rfl
    · rw [if_neg (by rw [beq_iff_eq]; exact hv), beq_false_of_ne (Ne.symm hv), ← ih, inputElt]
      cases (p.map Prod.fst).idxOf? v <;> rfl

omit [DecidableEq X] in
/-- Result elements depend on the inputs of the variables only. -/
theorem addResults_congr (h : ∀ ekey v, inputElt inputvars inputs ekey v =
    inputElt vars inputs' ekey v) (base : E → Option (Option X)) :
    addResults funmapping inputvars inputs base resultelts =
      addResults funmapping vars inputs' base resultelts := by
  have hfurther : ∀ cfun ekey res eits,
      combineFurther cfun inputvars inputs ekey res eits =
        combineFurther cfun vars inputs' ekey res eits := by
    intro cfun ekey res eits
    induction eits generalizing res with
    | nil => rfl
    | cons eit eits ih => simp only [combineFurther, h, ih]
  induction resultelts generalizing base with
  | nil => rfl
  | cons s resultelts ih => simp only [addResults, combineElts, h, hfurther, ih]

omit [DecidableEq E] [DecidableEq X] in
theorem firstValue_eq_some {x : X} (h : firstValue t e = some x) : ∃ r ∈ t, r.attr e = some x :=
  List.exists_of_findSome?_eq_some h

omit [DecidableEq E] [DecidableEq X] in
theorem firstValue_eq_none : firstValue t e = none ↔ ∀ r ∈ t, r.attr e = none :=
  List.findSome?_eq_none_iff

omit [DecidableEq E] [DecidableEq X] in
/-- In an agreeing tuple, whatever value a member has is that of the first. -/
theorem Agrees.firstValue_iff (h : Agrees matchelts t) (he : e ∈ matchelts) {x : X} :
    firstValue t e = some x ↔ ∃ r ∈ t, r.attr e = some x := by
  refine ⟨firstValue_eq_some, ?_⟩
  rintro ⟨r, hr, hx⟩
  cases hfirst : firstValue t e with
  | none => exact absurd (firstValue_eq_none.mp hfirst r hr) (hx ▸ nofun)
  | some y =>
    obtain ⟨r', hr', hy⟩ := firstValue_eq_some hfirst
    exact hy.symm.trans ((h e he r' hr' r hr (hy ▸ nofun) (hx ▸ nofun)).trans hx)

omit [DecidableEq E] [DecidableEq X] in
theorem Agrees.perm (h : Agrees matchelts t) (hperm : t.Perm inputs) : Agrees matchelts inputs :=
  fun e he r hr r' hr' => h e he r (hperm.mem_iff.mpr hr) r' (hperm.mem_iff.mpr hr')

omit [DecidableEq E] [DecidableEq X] in
theorem Accepted.agrees (h : Accepted matchelts t) : Agrees matchelts t := by
  intro e he r hr r' hr' hne hne'
  obtain ⟨i, hi, rfl⟩ := List.mem_iff_getElem.mp hr
  obtain ⟨j, hj, rfl⟩ := List.mem_iff_getElem.mp hr'
  have hpair := List.pairwise_iff_getElem.mp (h e he)
  rcases Nat.lt_trichotomy i j with hlt | rfl | hlt
  · exact (hpair i j hi hj hlt hne).symm
  · rfl
  · exact hpair j i hj hi hlt hne'

omit [DecidableEq E] [DecidableEq X] in
/-- Where no value is missing beside others, agreeing tuples are accepted. -/
theorem Agrees.accepted (h : Agrees matchelts t) (hmixed : ¬ Mixed matchelts t) :
    Accepted matchelts t := by
  intro e he
  refine List.pairwise_of_forall_mem_list fun r hr r' hr' hne => ?_
  by_cases hne' : r'.attr e = none
  · exact absurd ⟨e, he, ⟨r, hr, hne⟩, r', hr', hne'⟩ hmixed
  · exact h e he r' hr' r hr hne' hne

omit [DecidableEq X] in
theorem common_perm (h : Agrees matchelts t) (hperm : t.Perm inputs)
    (base : E → Option (Option X)) :
    common matchelts t base = common matchelts inputs base := by
  funext e
  have hfirst : e ∈ matchelts → firstValue t e = firstValue inputs e := by
    intro he
    refine Option.ext fun x => ?_
    rw [h.firstValue_iff he, (h.perm hperm).firstValue_iff he]
    simp only [hperm.mem_iff]
  rw [common, common]
  by_cases he : e ∈ matchelts
  · rw [hfirst he]
  · rw [if_neg fun h => he h.1, if_neg fun h => he h.1]

/-- A tuple without missing values gives the same in any order. -/
theorem combineTuple_reordered (hne : p ≠ [])
    (hwf : ∀ q ∈ p, ∀ e ∈ matchelts, (q.2.attrs e).isSome)
    (hmixed : Agrees matchelts (p.map Prod.snd) → ¬ Mixed matchelts (p.map Prod.snd))
    (h : Reordered p p') :
    combineTuple kind funmapping (p.map Prod.fst) matchelts resultelts trim (p.map Prod.snd) =
      combineTuple kind funmapping (p'.map Prod.fst) matchelts resultelts trim
        (p'.map Prod.snd) := by
  classical
  have hperm : (p.map Prod.snd).Perm (p'.map Prod.snd) := h.perm.map _
  have hwf' : ∀ r ∈ p.map Prod.snd, ∀ e ∈ matchelts, (r.attrs e).isSome := by
    intro r hr
    obtain ⟨q, hq, rfl⟩ := List.mem_map.mp hr
    exact hwf q hq
  have haccepted : Accepted matchelts (p.map Prod.snd) ↔ Accepted matchelts (p'.map Prod.snd) := by
    have hmixed' : Mixed matchelts (p'.map Prod.snd) → Mixed matchelts (p.map Prod.snd) := by
      rintro ⟨e, he, ⟨r, hr, hval⟩, r', hr', hnone⟩
      exact ⟨e, he, ⟨r, hperm.mem_iff.mpr hr, hval⟩, r', hperm.mem_iff.mpr hr', hnone⟩
    constructor
    · intro hacc
      exact (hacc.agrees.perm hperm).accepted fun hm => hmixed hacc.agrees (hmixed' hm)
    · intro hacc
      have hagrees := hacc.agrees.perm hperm.symm
      exact hagrees.accepted (hmixed hagrees)
  have hinputs : ∀ ekey v, inputElt (p.map Prod.fst) (p.map Prod.snd) ekey v =
      inputElt (p'.map Prod.fst) (p'.map Prod.snd) ekey v := by
    intro ekey v
    rw [inputElt_eq, inputElt_eq, h.lookup v]
  have hnil : p'.map Prod.snd ≠ [] := fun hnil => by
    rw [hnil] at hperm
    exact hne (List.map_eq_nil_iff.mp hperm.eq_nil)
  rw [combineTuple_eq (fun hnil => hne (List.map_eq_nil_iff.mp hnil)) hwf',
    combineTuple_eq hnil fun r hr => hwf' r (hperm.mem_iff.mpr hr), total_perm kind hperm,
    addResults_congr hinputs]
  by_cases hacc : Accepted matchelts (p.map Prod.snd)
  · simp only [haccepted.mp hacc, hacc, common_perm hacc.agrees hperm]
  · rw [if_neg fun hp => hacc hp.1, if_neg fun hp => hacc (haccepted.mpr hp.1)]

end Assignments

/-! ### All tuples -/

section Lists

variable {α β : Type} {l : List α} {o : α → Option β}

/-- Members that meet a condition are those that have a result. -/
theorem forall₂_filterMap {R : α → β → Prop} {P : α → Prop} [DecidablePred P]
    (h : ∀ a ∈ l, (P a ↔ (o a).isSome) ∧ ∀ b, o a = some b → R a b) :
    List.Forall₂ R (l.filter (P ·)) (l.filterMap o) := by
  induction l with
  | nil => exact .nil
  | cons a l ih =>
    obtain ⟨⟨hiff, hR⟩, hrest⟩ := List.forall_mem_cons.mp h
    cases ho : o a with
    | none =>
      rw [ho] at hiff
      rw [List.filterMap_cons_none ho, List.filter_cons_of_neg (by simpa using hiff)]
      exact ih hrest
    | some b =>
      rw [ho] at hiff
      rw [List.filterMap_cons_some ho, List.filter_cons_of_pos (by simpa using hiff)]
      exact .cons (hR b ho) (ih hrest)

/-- A condition that is met as often as a weaker one is met wherever the other one is. -/
theorem of_length_filter {P Q : α → Prop} [DecidablePred P] [DecidablePred Q]
    (h : ∀ a ∈ l, P a → Q a) (hlen : (l.filter (P ·)).length = (l.filter (Q ·)).length) :
    ∀ a ∈ l, Q a → P a := by
  have hsub : (l.filter (P ·)).Sublist (l.filter (Q ·)) := by
    have hfilter : l.filter (P ·) = (l.filter (Q ·)).filter (P ·) := by
      rw [List.filter_filter]
      refine List.filter_congr fun a ha => ?_
      by_cases hP : P a
      · simp only [hP, h a ha hP, decide_true, Bool.and_self]
      · simp only [hP, decide_false, Bool.false_and]
    rw [hfilter]
    exact List.filter_sublist
  have heq := hsub.eq_of_length hlen
  intro a ha hQ
  have hmem : a ∈ l.filter (P ·) := heq ▸ List.mem_filter.mpr ⟨ha, decide_eq_true hQ⟩
  exact of_decide_eq_true (List.mem_filter.mp hmem).2

theorem length_filterMap_filter :
    (l.filterMap o).length = (l.filter fun a => (o a).isSome).length := by
  rw [List.length_filterMap_eq_countP, List.countP_eq_length_filter]

end Lists

/-- The reference made in the body of the loop, if any. -/
def made : Except Unit (Option (MatchReference E X)) → Option (MatchReference E X)
  | .ok o => o
  | .error _ => none

omit [DecidableEq E] [DecidableEq X] in
theorem combineTuples_eq
    {body : List (MatchReference E X) → Except Unit (Option (MatchReference E X))}
    {ls : List (List (MatchReference E X))} (h : ∀ t ∈ ls, ∃ o, body t = .ok o) :
    combineTuples body ls = .ok (ls.filterMap fun t => made (body t)) := by
  induction ls with
  | nil => rfl
  | cons t ls ih =>
    obtain ⟨⟨o, ho⟩, hrest⟩ := List.forall_mem_cons.mp h
    rw [combineTuples, ho, ih hrest]
    cases o with
    | none => rw [List.filterMap_cons_none (by rw [ho]; rfl)]
    | some mr => rw [List.filterMap_cons_some (by rw [ho]; rfl)]

omit [DecidableEq V] [DecidableEq E] [DecidableEq X] in
theorem WellFormed.perm (h : WellFormed kwargs inputvars matchelts resultelts)
    (hperm : vars.Perm inputvars) : WellFormed kwargs vars matchelts resultelts where
  inputs v hv := h.inputs v (hperm.mem_iff.mp hv)
  selections s hs v hv :=
    ⟨hperm.mem_iff.mpr (h.selections s hs v hv).1, (h.selections s hs v hv).2⟩

omit [DecidableEq V] [DecidableEq E] [DecidableEq X] in
theorem WellFormed.lists_eq (h : WellFormed kwargs inputvars matchelts resultelts) :
    lists kwargs inputvars = .ok (inputvars.map fun v => (kwargs v).getD []) := by
  have hall := h.inputs
  clear h
  induction inputvars with
  | nil => rfl
  | cons v vs ih =>
    obtain ⟨⟨l, hl, _⟩, hrest⟩ := List.forall_mem_cons.mp hall
    rw [lists, hl, ih hrest, List.map_cons, hl]
    rfl

omit [DecidableEq V] [DecidableEq E] [DecidableEq X] in
/-- Members of assignments have the attributes that are asked for. -/
theorem WellFormed.attrs {p : List (V × MatchReference E X)}
    (h : WellFormed kwargs inputvars matchelts resultelts) (hvars : (p.map Prod.fst).Perm inputvars)
    (hvals : ∀ q ∈ p, q.2 ∈ (kwargs q.1).getD []) :
    ∀ q ∈ p, ∀ e ∈ matchelts, (q.2.attrs e).isSome := by
  intro q hq e he
  obtain ⟨l, hl, hattrs⟩ := h.inputs q.1 (hvars.mem_iff.mp (List.mem_map_of_mem hq))
  have hmem := hvals q hq
  rw [hl] at hmem
  exact hattrs q.2 hmem e he

omit [DecidableEq E] [DecidableEq X] in
/-- Result elements can be found. -/
theorem WellFormed.selected {p : List (V × MatchReference E X)}
    (h : WellFormed kwargs inputvars matchelts resultelts)
    (funmapping : Option X → Option X → Option X → Option X) (hvars : p.map Prod.fst = inputvars)
    (hvals : ∀ q ∈ p, q.2 ∈ (kwargs q.1).getD []) :
    ∀ s ∈ resultelts, ∃ x,
      combineElts funmapping (p.map Prod.fst) s.2 s.1 (p.map Prod.snd) = .ok x := by
  intro s hs
  have hfind : ∀ v ∈ s.2.first :: s.2.others, ∃ x,
      inputElt (p.map Prod.fst) (p.map Prod.snd) s.1 v = .ok x := by
    intro v hv
    obtain ⟨hmem, hattrs⟩ := h.selections s hs v hv
    obtain ⟨q, hq, rfl⟩ := List.mem_map.mp (hvars ▸ hmem)
    obtain ⟨r, hr⟩ := Option.isSome_iff_exists.mp
      (List.lookup_isSome_iff.mpr ⟨q, hq, beq_self_eq_true q.1⟩)
    have hval : r ∈ (kwargs q.1).getD [] := by
      obtain ⟨l, l', hp, _⟩ := List.lookup_eq_some_iff.mp hr
      exact hvals (q.1, r) (hp ▸ List.mem_append_right _ List.mem_cons_self)
    obtain ⟨x, hx⟩ := Option.isSome_iff_exists.mp (hattrs r hval)
    refine ⟨x, ?_⟩
    rw [inputElt_eq, hr, Option.bind_some, hx]
  obtain ⟨⟨first, hfirst⟩, hothers⟩ := List.forall_mem_cons.mp hfind
  have hfurther : ∀ cfun res, ∀ eits : List V, (∀ v ∈ eits, ∃ x,
      inputElt (p.map Prod.fst) (p.map Prod.snd) s.1 v = .ok x) →
      ∃ x, combineFurther cfun (p.map Prod.fst) (p.map Prod.snd) s.1 res eits = .ok x := by
    intro cfun res eits
    induction eits generalizing res with
    | nil => exact fun _ => ⟨res, rfl⟩
    | cons v eits ih =>
      intro hall
      obtain ⟨⟨x, hx⟩, hrest⟩ := List.forall_mem_cons.mp hall
      rw [combineFurther, hx]
      exact ih _ hrest
  rw [combineElts, hfirst]
  exact hfurther _ _ _ hothers

/-- The outcome for an assignment. -/
theorem WellFormed.outcome {p : List (V × MatchReference E X)}
    (h : WellFormed kwargs inputvars matchelts resultelts) (kind : Kind)
    (funmapping : Option X → Option X → Option X → Option X) (trim : Bool) (hne : inputvars ≠ [])
    (hp : p ∈ assign (fun v => (kwargs v).getD []) inputvars) :
    ∃ o, combineTuple kind funmapping inputvars matchelts resultelts trim (p.map Prod.snd) =
        .ok o ∧
      (o.isSome = true ↔ Accepted matchelts (p.map Prod.snd) ∧
        (trim = true → kind.total (p.map Prod.snd) ≠ 0)) ∧
      ∀ mr, o = some mr → Describes kind matchelts resultelts (p.map Prod.snd) mr := by
  classical
  obtain ⟨hvars, hvals⟩ := mem_assign.mp hp
  have hnil : p.map Prod.snd ≠ [] := fun hnil =>
    hne (hvars ▸ List.map_eq_nil_iff.mpr (List.map_eq_nil_iff.mp hnil))
  have hattrs : ∀ r ∈ p.map Prod.snd, ∀ e ∈ matchelts, (r.attrs e).isSome := by
    intro r hr
    obtain ⟨q, hq, rfl⟩ := List.mem_map.mp hr
    exact h.attrs (.of_eq hvars) hvals q hq
  obtain ⟨attrs, hadd, hother⟩ := addResults_spec (h.selected funmapping hvars hvals)
    (common matchelts (p.map Prod.snd) fun _ => none)
  rw [hvars] at hadd
  rw [combineTuple_eq hnil hattrs, hadd]
  by_cases htest : Accepted matchelts (p.map Prod.snd) ∧
      (trim = true → kind.total (p.map Prod.snd) ≠ 0)
  · rw [if_pos htest]
    refine ⟨_, rfl, ⟨fun _ => htest, fun _ => rfl⟩, ?_⟩
    rintro _ ⟨⟩
    refine ⟨rfl, fun e he hkey x => ?_⟩
    rw [← htest.1.agrees.firstValue_iff he]
    change attrs e = some (some x) ↔ _
    rw [hother e hkey, common]
    by_cases hfirst : firstValue (p.map Prod.snd) e = none
    · rw [if_neg fun hc => hc.2 hfirst, hfirst]
      exact ⟨nofun, nofun⟩
    · rw [if_pos ⟨he, hfirst⟩]
      exact Option.some_inj
  · rw [if_neg htest]
    exact ⟨none, rfl, ⟨nofun, fun hp => absurd hp htest⟩, nofun⟩

omit [DecidableEq V] [DecidableEq E] [DecidableEq X] in
theorem mem_tuples : t ∈ tuples kwargs inputvars ↔
    ∃ p ∈ assign (fun v => (kwargs v).getD []) inputvars, p.map Prod.snd = t := by
  rw [tuples, product_eq_assign, List.mem_map]

/-- With any input variables there is a result. -/
theorem WellFormed.combine_eq (h : WellFormed kwargs inputvars matchelts resultelts)
    (hne : inputvars ≠ []) :
    combine kind funmapping kwargs inputvars matchelts resultelts trim =
      .ok ((tuples kwargs inputvars).filterMap fun t =>
        made (combineTuple kind funmapping inputvars matchelts resultelts trim t)) := by
  rw [combine, h.lists_eq]
  refine combineTuples_eq fun t ht => ?_
  obtain ⟨p, hp, rfl⟩ := mem_tuples.mp ht
  obtain ⟨o, ho, _⟩ := h.outcome kind funmapping trim hne hp
  exact ⟨o, ho⟩

/-- What is made of a tuple. -/
theorem WellFormed.made_spec (h : WellFormed kwargs inputvars matchelts resultelts) (kind : Kind)
    (funmapping : Option X → Option X → Option X → Option X) (trim : Bool)
    (hne : inputvars ≠ []) (ht : t ∈ tuples kwargs inputvars) :
    ((made (combineTuple kind funmapping inputvars matchelts resultelts trim t)).isSome = true ↔
        Accepted matchelts t ∧ (trim = true → kind.total t ≠ 0)) ∧
      ∀ mr, made (combineTuple kind funmapping inputvars matchelts resultelts trim t) = some mr →
        Describes kind matchelts resultelts t mr := by
  obtain ⟨p, hp, rfl⟩ := mem_tuples.mp ht
  obtain ⟨o, ho, hspec⟩ := h.outcome kind funmapping trim hne hp
  rw [ho]
  exact hspec

/-- No agreeing tuple has members with and without a value for the same match element. -/
def Unmixed (kwargs : V → Option (List (MatchReference E X))) (inputvars : List V)
    (matchelts : List E) : Prop :=
  ∀ t ∈ tuples kwargs inputvars, Agrees matchelts t → ¬ Mixed matchelts t

/-- Without missing values, the result is the join. -/
theorem WellFormed.isJoin (h : WellFormed kwargs inputvars matchelts resultelts) (kind : Kind)
    (funmapping : Option X → Option X → Option X → Option X) (trim : Bool) (hne : inputvars ≠ [])
    (hunmixed : Unmixed kwargs inputvars matchelts) :
    IsJoin kind kwargs inputvars matchelts resultelts trim ((tuples kwargs inputvars).filterMap
      fun t => made (combineTuple kind funmapping inputvars matchelts resultelts trim t)) := by
  refine forall₂_filterMap fun t ht => ?_
  obtain ⟨hsome, hdescribes⟩ := h.made_spec kind funmapping trim hne ht
  refine ⟨?_, hdescribes⟩
  rw [hsome, Wanted]
  exact and_congr_left fun _ =>
    ⟨fun hagrees => hagrees.accepted (hunmixed t ht hagrees), Accepted.agrees⟩

/-! ### Other orders of the variables -/

omit [DecidableEq E] [DecidableEq X] in
theorem Mixed.perm (h : Mixed matchelts t) (hperm : t.Perm inputs) : Mixed matchelts inputs := by
  obtain ⟨e, he, ⟨r, hr, hval⟩, r', hr', hnone⟩ := h
  exact ⟨e, he, ⟨r, hperm.mem_iff.mp hr, hval⟩, r', hperm.mem_iff.mp hr', hnone⟩

omit [DecidableEq V] [DecidableEq E] [DecidableEq X] in
/-- An assignment to the variables in another order. -/
theorem Unmixed.of_perm (h : Unmixed kwargs inputvars matchelts)
    {p : List (V × MatchReference E X)} (hvars : (p.map Prod.fst).Perm inputvars)
    (hvals : ∀ q ∈ p, q.2 ∈ (kwargs q.1).getD []) (hagrees : Agrees matchelts (p.map Prod.snd)) :
    ¬ Mixed matchelts (p.map Prod.snd) := by
  intro hmixed
  obtain ⟨p', hperm, hvars'⟩ := exists_perm_of_map_perm hvars
  have hp' : p' ∈ assign (fun v => (kwargs v).getD []) inputvars :=
    mem_assign.mpr ⟨hvars', fun q hq => hvals q (hperm.mem_iff.mpr hq)⟩
  exact h _ (mem_tuples.mpr ⟨p', hp', rfl⟩) (hagrees.perm (hperm.map _)) (hmixed.perm (hperm.map _))

omit [DecidableEq V] [DecidableEq E] [DecidableEq X] in
theorem Unmixed.perm (h : Unmixed kwargs inputvars matchelts) (hperm : vars.Perm inputvars) :
    Unmixed kwargs vars matchelts := by
  intro t ht hagrees
  obtain ⟨p, hp, rfl⟩ := mem_tuples.mp ht
  obtain ⟨hvars, hvals⟩ := mem_assign.mp hp
  exact h.of_perm (hvars ▸ hperm) hvals hagrees

/-- The same references are made. -/
theorem WellFormed.result_perm (h : WellFormed kwargs inputvars matchelts resultelts)
    (hne : inputvars ≠ []) (hunmixed : Unmixed kwargs inputvars matchelts)
    (hperm : vars.Perm inputvars) :
    ((tuples kwargs vars).filterMap fun t =>
        made (combineTuple kind funmapping vars matchelts resultelts trim t)).Perm
      ((tuples kwargs inputvars).filterMap fun t =>
        made (combineTuple kind funmapping inputvars matchelts resultelts trim t)) := by
  have hloop : ∀ vs : List V, (tuples kwargs vs).filterMap (fun t =>
      made (combineTuple kind funmapping vs matchelts resultelts trim t)) =
      (assign (fun v => (kwargs v).getD []) vs).flatMap fun p => (made (combineTuple kind funmapping
        (p.map Prod.fst) matchelts resultelts trim (p.map Prod.snd))).toList := by
    intro vs
    rw [tuples, product_eq_assign, List.filterMap_map, List.filterMap_eq_flatMap_toList]
    exact List.flatMap_congr fun p hp => by rw [(mem_assign.mp hp).1]; rfl
  rw [hloop, hloop]
  refine flatMap_assign_perm hperm _ fun p p' hvars hvals hreordered => ?_
  have hvars' := hvars.trans hperm
  have hnil : p ≠ [] := by
    rintro rfl
    exact hne hvars'.nil_eq.symm
  rw [combineTuple_reordered hnil (h.attrs hvars' hvals) (hunmixed.of_perm hvars' hvals) hreordered]

/-! ### When combinations are joins -/

/-- Where a combination gives the join, every tuple for which a reference is to be made is
accepted. -/
theorem IsJoin.accepted (h : WellFormed kwargs inputvars matchelts resultelts)
    (hne : inputvars ≠ [])
    (hjoin : IsJoin kind kwargs inputvars matchelts resultelts trim
      ((tuples kwargs inputvars).filterMap fun t =>
        made (combineTuple kind funmapping inputvars matchelts resultelts trim t))) :
    ∀ t ∈ tuples kwargs inputvars, Wanted kind matchelts trim t → Accepted matchelts t := by
  have hspec := fun t ht =>
    (h.made_spec (t := t) kind funmapping trim hne ht).1
  have hlen := hjoin.length_eq
  rw [length_filterMap_filter] at hlen
  intro t ht hwanted
  refine ((hspec t ht).mp (of_length_filter (P := fun t => (made (combineTuple kind funmapping
    inputvars matchelts resultelts trim t)).isSome = true) (Q := Wanted kind matchelts trim)
    ?_ ?_ t ht hwanted)).1
  · intro t ht hsome
    obtain ⟨hacc, htrim⟩ := (hspec t ht).mp hsome
    exact ⟨hacc.agrees, htrim⟩
  · simpa only [Bool.decide_eq_true] using hlen.symm

/-- Where a combination that trims nothing gives the trimmed join, there is nothing to trim. -/
theorem IsJoin.nonzero (h : WellFormed kwargs inputvars matchelts resultelts)
    (hne : inputvars ≠ []) (hunmixed : Unmixed kwargs inputvars matchelts)
    (hjoin : IsJoin kind kwargs inputvars matchelts resultelts true
      ((tuples kwargs inputvars).filterMap fun t =>
        made (combineTuple kind funmapping inputvars matchelts resultelts false t))) :
    ∀ t ∈ tuples kwargs inputvars, Agrees matchelts t → kind.total t ≠ 0 := by
  have hspec := fun t ht =>
    (h.made_spec (t := t) kind funmapping false hne ht).1
  have hlen := hjoin.length_eq
  rw [length_filterMap_filter] at hlen
  have hsome : ∀ t ∈ tuples kwargs inputvars, Agrees matchelts t → (made (combineTuple kind
      funmapping inputvars matchelts resultelts false t)).isSome = true := fun t ht hagrees =>
    (hspec t ht).mpr ⟨hagrees.accepted (hunmixed t ht hagrees), nofun⟩
  intro t ht hagrees
  refine (of_length_filter (P := Wanted kind matchelts true) (fun t ht hw => hsome t ht hw.1) ?_ t
    ht (hsome t ht hagrees)).2 rfl
  simpa only [Bool.decide_eq_true] using hlen

/-- A tuple with a missing value is not accepted in every order of the variables. -/
theorem CombinesAsJoin.unmixed {params : String → Option String}
    (hwf : WellFormed kwargs inputvars matchelts resultelts)
    (h : CombinesAsJoin kind params funmapping kwargs inputvars matchelts resultelts) :
    Unmixed kwargs inputvars matchelts := by
  rintro t ht hagrees ⟨e, he, ⟨r, hr, hval⟩, r', hr', hnone⟩
  obtain ⟨p, hp, rfl⟩ := mem_tuples.mp ht
  obtain ⟨hvars, hvals⟩ := mem_assign.mp hp
  obtain ⟨q, hq, rfl⟩ := List.mem_map.mp hr
  -- the member with a value comes first
  obtain ⟨before, after, hsplit⟩ := List.append_of_mem hq
  have hperm : p.Perm (q :: (before ++ after)) := hsplit ▸ List.perm_middle
  have hvars' : ((q :: (before ++ after)).map Prod.fst).Perm inputvars :=
    hvars ▸ (hperm.map Prod.fst).symm
  have hmem : (q :: (before ++ after)).map Prod.snd ∈
      tuples kwargs ((q :: (before ++ after)).map Prod.fst) :=
    mem_tuples.mpr ⟨_, mem_assign.mpr ⟨rfl, fun q' hq' => hvals q' (hperm.mem_iff.mpr hq')⟩, rfl⟩
  have hwf' := hwf.perm hvars'
  have hne' : (q :: (before ++ after)).map Prod.fst ≠ [] := List.cons_ne_nil _ _
  obtain ⟨_, res', _, hres', hjoin, _⟩ := h.combination false _ hvars'
  rw [hwf'.combine_eq hne'] at hres'
  cases hres'
  have hagrees' := hagrees.perm (hperm.map Prod.snd)
  have hacc := hjoin.accepted hwf' hne' _ hmem ⟨hagrees', nofun⟩ e he
  have hlater : r' ∈ (before ++ after).map Prod.snd := by
    have hmem' := (hperm.map Prod.snd).mem_iff.mp hr'
    refine (List.mem_cons.mp hmem').resolve_left ?_
    rintro rfl
    exact hval hnone
  exact hval (((List.pairwise_cons.mp hacc).1 r' hlater hval).symm.trans hnone)

/-- A reference with a module. -/
def ofModule (value : ℚ) (module : Option String) : MatchReference String String where
  value := value
  attrs name := if name = "module" then some module else none

/-- The first of two values that are combined. -/
def firstOf (_first res _next : Option String) : Option String := res

/-- Two lists with modules. -/
def withModules : String → Option (List (MatchReference String String))
  | "uses" => some [ofModule 1 "sim", ofModule 1 "view"]
  | "found" => some [ofModule 1 "view", ofModule 0 "sim"]
  | _ => none

/-- A reference without a module after one that has it. -/
def withoutModule : String → Option (List (MatchReference String String))
  | "uses" => some [ofModule 1 "sim"]
  | "found" => some [ofModule 1 none]
  | _ => none

end Dueca.Policy
