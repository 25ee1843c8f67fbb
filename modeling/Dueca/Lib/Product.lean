import Mathlib.Data.Multiset.Bind

/-!
# Products of lists

The product of lists has all tuples of their members, the last one varying fastest. When each list
belongs to a variable, a tuple is an assignment. Other orders of the variables give the same
assignments, in another order and each written down in another order.
-/

namespace Dueca.Lib

variable {ι α β : Type*}

/-- All tuples, as `itertools.product` gives them. -/
def product : List (List α) → List (List α)
  | [] => [[]]
  | l :: ls => l.flatMap fun a => (product ls).map (a :: ·)

/-- All assignments to variables. -/
def assign (f : ι → List α) : List ι → List (List (ι × α))
  | [] => [[]]
  | v :: vs => (f v).flatMap fun a => (assign f vs).map ((v, a) :: ·)

/-- Pairs in another order, without one of a variable passing another one of that variable. -/
inductive Reordered : List (ι × α) → List (ι × α) → Prop
  | refl (t) : Reordered t t
  | cons (p) {t t'} (h : Reordered t t') : Reordered (p :: t) (p :: t')
  | swap {p q} (hne : p.1 ≠ q.1) (t) : Reordered (p :: q :: t) (q :: p :: t)
  | trans {t t' t''} (h : Reordered t t') (h' : Reordered t' t'') : Reordered t t''

variable {f : ι → List α} {vs vs' : List ι} {t t' : List (ι × α)}

theorem product_eq_assign (f : ι → List α) (vs : List ι) :
    product (vs.map f) = (assign f vs).map (·.map Prod.snd) := by
  induction vs with
  | nil => rfl
  | cons v vs ih =>
    rw [List.map_cons, product, assign, ih, List.map_flatMap]
    simp only [List.map_map]
    rfl

/-- The variables of an assignment are those that were asked for, and its values are theirs. -/
theorem mem_assign : t ∈ assign f vs ↔ t.map Prod.fst = vs ∧ ∀ p ∈ t, p.2 ∈ f p.1 := by
  induction vs generalizing t with
  | nil =>
    rw [assign, List.mem_singleton, List.map_eq_nil_iff]
    exact ⟨fun h => ⟨h, h ▸ nofun⟩, And.left⟩
  | cons v vs ih =>
    rw [assign, List.mem_flatMap]
    constructor
    · rintro ⟨a, ha, hmem⟩
      obtain ⟨t', ht', rfl⟩ := List.mem_map.mp hmem
      obtain ⟨hvars, hvals⟩ := ih.mp ht'
      exact ⟨by rw [List.map_cons, hvars], List.forall_mem_cons.mpr ⟨ha, hvals⟩⟩
    · rintro ⟨hvars, hvals⟩
      cases t with
      | nil => cases hvars
      | cons p t =>
        rw [List.map_cons] at hvars
        obtain ⟨rfl, hrest⟩ := List.cons.inj hvars
        obtain ⟨ha, hvals⟩ := List.forall_mem_cons.mp hvals
        exact ⟨p.2, ha, List.mem_map.mpr ⟨t, ih.mpr ⟨hrest, hvals⟩, rfl⟩⟩

theorem Reordered.perm (h : Reordered t t') : t.Perm t' := by
  induction h with
  | refl t => exact .refl t
  | cons p _ ih => exact ih.cons p
  | swap _ t => exact .swap _ _ t
  | trans _ _ ih ih' => exact ih.trans ih'

/-- A variable has the same value. -/
theorem Reordered.lookup [BEq ι] [LawfulBEq ι] (h : Reordered t t') (v : ι) :
    t.lookup v = t'.lookup v := by
  induction h with
  | refl t => rfl
  | cons p _ ih =>
    rw [List.lookup_cons, List.lookup_cons, ih]
  | @swap p q hne t =>
    obtain ⟨v', a⟩ := p
    obtain ⟨v'', b⟩ := q
    simp only [List.lookup_cons]
    by_cases hp : v = v'
    · subst hp
      rw [beq_self_eq_true, beq_false_of_ne hne]
    · rw [beq_false_of_ne hp]
  | trans _ _ ih ih' => exact ih.trans ih'

/-- Pairs may be put in the order of their variables. -/
theorem exists_perm_of_map_perm (h : (t.map Prod.fst).Perm vs) :
    ∃ t' : List (ι × α), t.Perm t' ∧ t'.map Prod.fst = vs := by
  generalize hus : t.map Prod.fst = us at h
  induction h generalizing t with
  | nil => exact ⟨t, .refl t, hus⟩
  | cons v _ ih =>
    obtain ⟨p, t, rfl, rfl, hrest⟩ := List.map_eq_cons_iff.mp hus
    obtain ⟨t', ht', rfl⟩ := ih hrest
    exact ⟨p :: t', ht'.cons p, rfl⟩
  | swap v v' us =>
    obtain ⟨p, t, rfl, rfl, hrest⟩ := List.map_eq_cons_iff.mp hus
    obtain ⟨q, t, rfl, rfl, rfl⟩ := List.map_eq_cons_iff.mp hrest
    exact ⟨q :: p :: t, .swap q p t, rfl⟩
  | trans _ _ ih ih' =>
    obtain ⟨t', ht', hus'⟩ := ih hus
    obtain ⟨t'', ht'', hvs⟩ := ih' hus'
    exact ⟨t'', ht'.trans ht'', hvs⟩

/-- Two loops may change places. -/
theorem flatMap_comm_perm (l : List α) (m : List ι) (g : α → ι → List β) :
    (l.flatMap fun a => m.flatMap fun b => g a b).Perm
      (m.flatMap fun b => l.flatMap fun a => g a b) := by
  refine Multiset.coe_eq_coe.mp ?_
  simp only [← Multiset.coe_bind]
  exact Multiset.bind_bind _ _

/-- What does not depend on the order of an assignment does not depend on the order of the
variables. -/
theorem flatMap_assign_perm (h : vs.Perm vs') (g : List (ι × α) → List β)
    (hg : ∀ t t', (t.map Prod.fst).Perm vs → (∀ p ∈ t, p.2 ∈ f p.1) → Reordered t t' → g t = g t') :
    ((assign f vs).flatMap g).Perm ((assign f vs').flatMap g) := by
  induction h generalizing g with
  | nil => exact .refl _
  | cons v _ ih =>
    simp only [assign, List.flatMap_assoc, List.flatMap_map]
    refine List.Perm.flatMap_left _ fun a ha => ih _ fun t t' hvars hvals ht =>
      hg _ _ ?_ ?_ (ht.cons _)
    · exact hvars.cons v
    · exact List.forall_mem_cons.mpr ⟨ha, hvals⟩
  | swap v v' vs =>
    by_cases hne : v = v'
    · rw [hne]
    · simp only [assign, List.flatMap_assoc, List.flatMap_map]
      refine (flatMap_comm_perm _ _ _).trans (.of_eq ?_)
      refine List.flatMap_congr fun b hb => List.flatMap_congr fun a ha =>
        List.flatMap_congr fun t ht => ?_
      obtain ⟨hvars, hvals⟩ := mem_assign.mp ht
      refine hg _ _ ?_ ?_ (.swap (Ne.symm hne) t)
      · rw [List.map_cons, List.map_cons, hvars]
      · exact List.forall_mem_cons.mpr ⟨ha, List.forall_mem_cons.mpr ⟨hb, hvals⟩⟩
  | trans hfirst _ ih ih' =>
    exact (ih g hg).trans (ih' g fun t t' hvars => hg t t' (hvars.trans hfirst.symm))

end Dueca.Lib
