import Mathlib.Data.List.Perm.Basic

/-!
# Values combined over a tree

A tree has values at its leaves. They are combined, from a unit on, over the children of a node and
from there upwards.
-/

namespace Dueca.Lib

/-- A tree with values at the leaves. -/
inductive Tree (α : Type*)
  | leaf (a : α)
  | node (children : List (Tree α))

namespace Tree

variable {α β : Type*}

/-- Induction with all children. -/
@[elab_as_elim]
theorem induction {P : Tree α → Prop} (leaf : ∀ a, P (.leaf a))
    (node : ∀ ts, (∀ t ∈ ts, P t) → P (.node ts)) (t : Tree α) : P t :=
  @Tree.rec α P (fun ts => ∀ t ∈ ts, P t) leaf node (fun _ h => absurd h List.not_mem_nil)
    (fun _ _ ht hts _ h => (List.mem_cons.mp h).elim (fun heq => heq ▸ ht) (hts _)) t

mutual

/-- The values, from left to right. -/
def leaves : Tree α → List α
  | leaf a => [a]
  | node ts => leavesAll ts

def leavesAll : List (Tree α) → List α
  | [] => []
  | t :: ts => t.leaves ++ leavesAll ts

end

mutual

/-- The combination of the values. -/
def combined (op : α → α → α) (e : α) : Tree α → α
  | leaf a => a
  | node ts => combinedFrom op e e ts

/-- The combination of a value and those of some trees. -/
def combinedFrom (op : α → α → α) (e : α) : α → List (Tree α) → α
  | acc, [] => acc
  | acc, t :: ts => combinedFrom op e (op acc (combined op e t)) ts

end

mutual

/-- Other values. -/
def map (f : α → β) : Tree α → Tree β
  | leaf a => leaf (f a)
  | node ts => node (mapAll f ts)

def mapAll (f : α → β) : List (Tree α) → List (Tree β)
  | [] => []
  | t :: ts => t.map f :: mapAll f ts

end

theorem leavesAll_leaf (as : List α) : leavesAll (as.map leaf) = as := by
  induction as with
  | nil => rfl
  | cons a as ih => rw [List.map_cons, leavesAll, ih, leaves, List.singleton_append]

theorem combinedFrom_leaf (op : α → α → α) (e acc : α) (as : List α) :
    combinedFrom op e acc (as.map leaf) = as.foldl op acc := by
  induction as generalizing acc with
  | nil => rfl
  | cons a as ih => rw [List.map_cons, combinedFrom, ih, combined, List.foldl_cons]

theorem leaves_map (f : α → β) (t : Tree α) : (t.map f).leaves = t.leaves.map f := by
  induction t using Tree.induction with
  | leaf a => rfl
  | node ts ih =>
    rw [map, leaves, leaves]
    induction ts with
    | nil => rfl
    | cons t ts ihts =>
      rw [mapAll, leavesAll, leavesAll, List.map_append, ih t List.mem_cons_self,
        ihts fun t ht => ih t (List.mem_cons_of_mem _ ht)]

/-- What holds of a value alone and of the unit, and is kept by the combination, holds of every
combination. -/
theorem combined_sound {op : α → α → α} {e : α} {R : List α → α → Prop} (hone : ∀ a, R [a] a)
    (hnil : R [] e) (happend : ∀ {as bs a b}, R as a → R bs b → R (as ++ bs) (op a b))
    (t : Tree α) : R t.leaves (t.combined op e) := by
  induction t using Tree.induction with
  | leaf a => exact hone a
  | node ts ih =>
    suffices h : ∀ as acc, R as acc →
        R (as ++ leavesAll ts) (combinedFrom op e acc ts) from h [] e hnil
    induction ts with
    | nil =>
      intro as acc h
      rw [leavesAll, List.append_nil]
      exact h
    | cons t ts ihts =>
      intro as acc h
      rw [leavesAll, combinedFrom, ← List.append_assoc]
      exact ihts (fun t ht => ih t (List.mem_cons_of_mem _ ht)) _ _
        (happend h (ih t List.mem_cons_self))

/-- What the combination keeps from either side, it has from any leaf. -/
theorem combined_of_mem {op : α → α → α} {e : α} {Q : α → Prop}
    (hop : ∀ a b, Q a ∨ Q b → Q (op a b)) {t : Tree α} {a : α} (ha : a ∈ t.leaves) (hQ : Q a) :
    Q (t.combined op e) := by
  have hsound := @Tree.combined_sound _ op e (fun as b => (∃ a ∈ as, Q a) → Q b)
    (fun a ⟨b, hb, hQ⟩ => List.mem_singleton.mp hb ▸ hQ) (fun ⟨_, hb, _⟩ => nomatch hb) (by
      rintro as bs a b ha hb ⟨c, hc, hQ⟩
      rcases List.mem_append.mp hc with hc | hc
      · exact hop a b (.inl (ha ⟨c, hc, hQ⟩))
      · exact hop a b (.inr (hb ⟨c, hc, hQ⟩)))
    t
  exact hsound ⟨a, ha, hQ⟩

/-- A map that respects the combination. -/
theorem combined_map {op : α → α → α} {e : α} {op' : β → β → β} {e' : β} {f : α → β}
    (hop : ∀ a b, f (op a b) = op' (f a) (f b)) (he : f e = e') (t : Tree α) :
    (t.map f).combined op' e' = f (t.combined op e) := by
  induction t using Tree.induction with
  | leaf a => rfl
  | node ts ih =>
    rw [map, combined, combined]
    suffices h : ∀ acc, combinedFrom op' e' (f acc) (mapAll f ts) = f (combinedFrom op e acc ts)
      from he ▸ h e
    induction ts with
    | nil => exact fun _ => rfl
    | cons t ts ihts =>
      intro acc
      rw [mapAll, combinedFrom, combinedFrom, ih t List.mem_cons_self, ← hop]
      exact ihts (fun t ht => ih t (List.mem_cons_of_mem _ ht)) _

end Tree

/-- On some values, that are closed under it, an operation has a unit and it does not matter in
which order or grouping values are combined. -/
structure Mingles {α : Type*} (K : α → Prop) (op : α → α → α) (e : α) : Prop where
  unit : K e
  closed : ∀ {a b}, K a → K b → K (op a b)
  comm : ∀ {a b}, K a → K b → op a b = op b a
  assoc : ∀ {a b c}, K a → K b → K c → op (op a b) c = op a (op b c)
  unit_op : ∀ {a}, K a → op e a = a

namespace Mingles

variable {α : Type*} {K : α → Prop} {op : α → α → α} {e a : α} {as bs : List α}

theorem foldl_closed (h : Mingles K op e) (ha : K a) (has : ∀ b ∈ as, K b) :
    K (as.foldl op a) := by
  induction as generalizing a with
  | nil => exact ha
  | cons b as ih =>
    exact ih (h.closed ha (has b List.mem_cons_self)) fun c hc =>
      has c (List.mem_cons_of_mem _ hc)

/-- What is combined first may be combined last. -/
theorem foldl_op (h : Mingles K op e) (ha : K a) (has : ∀ b ∈ as, K b) :
    as.foldl op a = op a (as.foldl op e) := by
  induction as generalizing a with
  | nil => exact (h.comm ha h.unit).trans (h.unit_op ha) |>.symm
  | cons b as ih =>
    have hb := has b List.mem_cons_self
    have hrest : ∀ c ∈ as, K c := fun c hc => has c (List.mem_cons_of_mem _ hc)
    rw [List.foldl_cons, List.foldl_cons, ih (h.closed ha hb) hrest, h.unit_op hb, ih hb hrest,
      h.assoc ha hb (h.foldl_closed h.unit hrest)]

theorem foldl_perm (h : Mingles K op e) (hperm : as.Perm bs) (has : ∀ b ∈ as, K b) (ha : K a) :
    as.foldl op a = bs.foldl op a := by
  induction hperm generalizing a with
  | nil => rfl
  | cons b _ ih =>
    exact ih (fun c hc => has c (List.mem_cons_of_mem _ hc))
      (h.closed ha (has b List.mem_cons_self))
  | swap b c as =>
    have hb := has c List.mem_cons_self
    have hc := has b (List.mem_cons_of_mem _ List.mem_cons_self)
    simp only [List.foldl_cons]
    rw [h.assoc ha hc hb, h.comm hc hb, ← h.assoc ha hb hc]
  | trans hab _ ih₁ ih₂ =>
    exact (ih₁ has ha).trans (ih₂ (fun b hb => has b (hab.mem_iff.mpr hb)) ha)

/-- A tree gives the combination of its values one by one. -/
theorem combined_eq_foldl (h : Mingles K op e) {t : Tree α} (ht : ∀ a ∈ t.leaves, K a) :
    t.combined op e = t.leaves.foldl op e := by
  have hsound := @Tree.combined_sound _ op e (fun as a => (∀ b ∈ as, K b) → a = as.foldl op e)
    (fun a ha => (h.unit_op (ha a (List.mem_singleton_self a))).symm) (fun _ => rfl) (by
      intro as bs a b ha hb hall
      have has : ∀ c ∈ as, K c := fun c hc => hall c (List.mem_append_left _ hc)
      have hbs : ∀ c ∈ bs, K c := fun c hc => hall c (List.mem_append_right _ hc)
      rw [ha has, hb hbs, List.foldl_append, ← h.foldl_op (h.foldl_closed h.unit has) hbs])
    t
  exact hsound ht

/-- The combination depends on neither order nor grouping. -/
theorem combined_eq_of_perm (h : Mingles K op e) {t t' : Tree α} (hperm : t.leaves.Perm t'.leaves)
    (ht : ∀ a ∈ t.leaves, K a) : t.combined op e = t'.combined op e := by
  rw [h.combined_eq_foldl ht, h.combined_eq_foldl fun a ha => ht a (hperm.mem_iff.mpr ha),
    h.foldl_perm hperm ht h.unit]

end Mingles

end Dueca.Lib
