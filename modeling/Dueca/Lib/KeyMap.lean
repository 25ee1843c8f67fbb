import Mathlib.Data.List.Forall2
import Mathlib.Data.List.Pairwise
import Mathlib.Algebra.Order.Ring.Int

/-!
# Ordered maps

A map keeps its entries in the order of their keys, each key once. The order comes from a
rank of the keys.
-/

namespace Dueca.Lib

/-- Entries in the order of their keys, each key once. -/
structure KeyMap {K ι : Type} [LinearOrder ι] (rank : K → ι) (V : Type) where
  entries : List (K × V)
  sorted : entries.Pairwise (fun e f => rank e.1 < rank f.1)

namespace KeyMap

variable {K ι V : Type} [LinearOrder ι] {rank : K → ι}

theorem ext_entries {m n : KeyMap rank V} (h : m.entries = n.entries) : m = n := by
  cases m
  cases n
  simp_all

def empty : KeyMap rank V := ⟨[], .nil⟩

/-- Put an entry in a list in order. An entry with the same key is changed by `modify`. -/
def put (rank : K → ι) (modify : V → V) (k : K) (v : V) : List (K × V) → List (K × V)
  | [] => [(k, v)]
  | e :: es =>
    if rank k < rank e.1 then (k, v) :: e :: es
    else if rank e.1 < rank k then e :: put rank modify k v es
    else (e.1, modify e.2) :: es

theorem mem_put {modify : V → V} {k : K} {v : V} {es : List (K × V)} {f : K × V}
    (h : f ∈ put rank modify k v es) :
    f.1 = k ∨ ∃ e ∈ es, e.1 = f.1 := by
  induction es with
  | nil =>
    obtain rfl := List.mem_singleton.mp h
    exact .inl rfl
  | cons e es ih =>
    unfold put at h
    split at h
    · obtain rfl | h := List.mem_cons.mp h
      · exact .inl rfl
      · exact .inr ⟨f, h, rfl⟩
    · split at h
      · obtain rfl | h := List.mem_cons.mp h
        · exact .inr ⟨f, List.mem_cons_self, rfl⟩
        · obtain h | ⟨g, hg, hfg⟩ := ih h
          · exact .inl h
          · exact .inr ⟨g, List.mem_cons_of_mem _ hg, hfg⟩
      · obtain rfl | h := List.mem_cons.mp h
        · exact .inr ⟨e, List.mem_cons_self, rfl⟩
        · exact .inr ⟨f, List.mem_cons_of_mem _ h, rfl⟩

theorem sorted_put (modify : V → V) (k : K) (v : V) {es : List (K × V)}
    (h : es.Pairwise (fun e f => rank e.1 < rank f.1)) :
    (put rank modify k v es).Pairwise (fun e f => rank e.1 < rank f.1) := by
  induction es with
  | nil => exact List.pairwise_singleton _ _
  | cons e es ih =>
    obtain ⟨hhead, htail⟩ := List.pairwise_cons.mp h
    unfold put
    split
    · rename_i hlt
      refine List.pairwise_cons.mpr ⟨fun f hf => ?_, h⟩
      obtain rfl | hf := List.mem_cons.mp hf
      · exact hlt
      · exact hlt.trans (hhead f hf)
    · split
      · rename_i hlt
        refine List.pairwise_cons.mpr ⟨fun f hf => ?_, ih htail⟩
        obtain hf | ⟨g, hg, hfg⟩ := mem_put hf
        · exact hf ▸ hlt
        · exact hfg ▸ hhead g hg
      · exact List.pairwise_cons.mpr ⟨hhead, htail⟩

/-- An entry whose key comes after all others is put behind them. -/
theorem put_of_forall_lt (modify : V → V) {k : K} (v : V) {es : List (K × V)}
    (h : ∀ e ∈ es, rank e.1 < rank k) : put rank modify k v es = es ++ [(k, v)] := by
  induction es with
  | nil => rfl
  | cons e es ih =>
    have hlt := h e List.mem_cons_self
    rw [put, if_neg hlt.asymm, if_pos hlt, ih fun f hf => h f (List.mem_cons_of_mem _ hf),
      List.cons_append]

/-- Add an entry, unless its key is there. -/
def emplace (m : KeyMap rank V) (k : K) (v : V) : KeyMap rank V :=
  ⟨put rank id k v m.entries, sorted_put id k v m.sorted⟩

/-- Add an entry, or give the one with its key a new value. -/
def assign (m : KeyMap rank V) (k : K) (v : V) : KeyMap rank V :=
  ⟨put rank (fun _ => v) k v m.entries, sorted_put _ k v m.sorted⟩

/-- Add an entry, or change the value of the one with its key. -/
def upsert (m : KeyMap rank V) (modify : V → V) (k : K) (v : V) : KeyMap rank V :=
  ⟨put rank modify k v m.entries, sorted_put modify k v m.sorted⟩

/-- Change all values. -/
def mapValues {W : Type} (f : V → W) (m : KeyMap rank V) : KeyMap rank W where
  entries := m.entries.map fun e => (e.1, f e.2)
  sorted := List.pairwise_map.mpr m.sorted

theorem mapValues_eq_self {f : V → V} {m : KeyMap rank V} :
    m.mapValues f = m ↔ ∀ e ∈ m.entries, f e.2 = e.2 := by
  have hmap : m.entries.map (fun e => (e.1, f e.2)) = m.entries ↔ ∀ e ∈ m.entries, f e.2 = e.2 := by
    conv_lhs => rhs; rw [← List.map_id m.entries]
    simp only [List.map_inj_left, id, Prod.ext_iff, true_and]
  rw [← hmap]
  exact ⟨fun h => congrArg entries h, fun h => ext_entries h⟩

/-- Change the value at a key, if there is one. -/
def adjust (m : KeyMap rank V) (k : K) (f : V → V) : KeyMap rank V where
  entries := m.entries.map fun e => if rank e.1 = rank k then (e.1, f e.2) else e
  sorted := List.pairwise_map.mpr (m.sorted.imp fun {e g} h => by
    have hkey : ∀ e : K × V, (if rank e.1 = rank k then (e.1, f e.2) else e).1 = e.1 :=
      fun e => by split <;> rfl
    rwa [hkey, hkey])

theorem mem_put_id {k : K} {v : V} {es : List (K × V)} {f : K × V} :
    f ∈ put rank id k v es → f ∈ es ∨ f = (k, v) := by
  induction es with
  | nil => exact fun h => .inr (List.mem_singleton.mp h)
  | cons e es ih =>
    unfold put
    split
    · exact fun h => (List.mem_cons.mp h).symm
    · split
      · intro h
        obtain rfl | h := List.mem_cons.mp h
        · exact .inl List.mem_cons_self
        · exact (ih h).imp_left (List.mem_cons_of_mem e)
      · exact .inl

theorem mem_put_id_of_mem {k : K} {v : V} {es : List (K × V)} {f : K × V} (h : f ∈ es) :
    f ∈ put rank id k v es := by
  induction es with
  | nil => cases h
  | cons e es ih =>
    unfold put
    split
    · exact List.mem_cons_of_mem _ h
    · split
      · obtain rfl | h := List.mem_cons.mp h
        · exact List.mem_cons_self
        · exact List.mem_cons_of_mem _ (ih h)
      · exact h

theorem exists_mem_put (modify : V → V) (k : K) (v : V) (es : List (K × V)) :
    ∃ f ∈ put rank modify k v es, rank f.1 = rank k := by
  induction es with
  | nil => exact ⟨(k, v), List.mem_singleton_self _, rfl⟩
  | cons e es ih =>
    unfold put
    split
    · exact ⟨(k, v), List.mem_cons_self, rfl⟩
    · rename_i hle
      split
      · obtain ⟨f, hf, hrank⟩ := ih
        exact ⟨f, List.mem_cons_of_mem _ hf, hrank⟩
      · rename_i hge
        exact ⟨(e.1, modify e.2), List.mem_cons_self, le_antisymm (not_lt.mp hle) (not_lt.mp hge)⟩

/-- After adding, there are the entries that were there, and perhaps the new one. -/
theorem mem_emplace {m : KeyMap rank V} {k : K} {v : V} {f : K × V}
    (h : f ∈ (m.emplace k v).entries) : f ∈ m.entries ∨ f = (k, v) := mem_put_id h

theorem mem_emplace_of_mem {m : KeyMap rank V} {f : K × V} (h : f ∈ m.entries) (k : K) (v : V) :
    f ∈ (m.emplace k v).entries := mem_put_id_of_mem h

theorem exists_mem_emplace (m : KeyMap rank V) (k : K) (v : V) :
    ∃ f ∈ (m.emplace k v).entries, rank f.1 = rank k := exists_mem_put id k v m.entries

/-- Of two lists in order that have the same keys, the entries are related one by one, if each
of the one is related to one with its key in the other. -/
theorem forall₂_of_related {R : K × V → K × V → Prop} {es fs : List (K × V)}
    (hes : es.Pairwise (fun e f => rank e.1 < rank f.1))
    (hfs : fs.Pairwise (fun e f => rank e.1 < rank f.1))
    (hrel : ∀ e ∈ es, ∃ f ∈ fs, rank e.1 = rank f.1 ∧ R e f)
    (hall : ∀ f ∈ fs, ∃ e ∈ es, rank e.1 = rank f.1) : List.Forall₂ R es fs := by
  induction es generalizing fs with
  | nil =>
    cases fs with
    | nil => exact .nil
    | cons f fs =>
      obtain ⟨e, he, -⟩ := hall f List.mem_cons_self
      cases he
  | cons e es ih =>
    cases fs with
    | nil =>
      obtain ⟨f, hf, -⟩ := hrel e List.mem_cons_self
      cases hf
    | cons f fs =>
      obtain ⟨hhead, htail⟩ := List.pairwise_cons.mp hes
      obtain ⟨hhead', htail'⟩ := List.pairwise_cons.mp hfs
      obtain ⟨g, hg, hrank, hR⟩ := hrel e List.mem_cons_self
      obtain ⟨d, hd, hrank'⟩ := hall f List.mem_cons_self
      -- the first entries have the same key: the smallest one
      have hfirst : rank e.1 = rank f.1 := by
        refine le_antisymm ?_ ?_
        · obtain rfl | hd := List.mem_cons.mp hd
          · exact hrank'.le
          · exact (hhead d hd).le.trans hrank'.le
        · obtain rfl | hg := List.mem_cons.mp hg
          · exact hrank.ge
          · exact (hhead' g hg).le.trans hrank.ge
      refine .cons ?_ (ih htail htail' (fun e' he' => ?_) (fun f' hf' => ?_))
      · obtain rfl | hg := List.mem_cons.mp hg
        · exact hR
        · exact absurd (hfirst.symm.trans hrank) (hhead' g hg).ne
      · obtain ⟨g', hg', hkey, hR'⟩ := hrel e' (List.mem_cons_of_mem _ he')
        obtain rfl | hg' := List.mem_cons.mp hg'
        · exact absurd (hfirst.trans hkey.symm) (hhead e' he').ne
        · exact ⟨g', hg', hkey, hR'⟩
      · obtain ⟨d', hd', hkey⟩ := hall f' (List.mem_cons_of_mem _ hf')
        obtain rfl | hd' := List.mem_cons.mp hd'
        · exact absurd (hfirst.symm.trans hkey) (hhead' f' hf').ne
        · exact ⟨d', hd', hkey⟩

/-- The value at a key. -/
def value? (m : KeyMap rank V) (k : K) : Option V :=
  (m.entries.find? fun e => rank e.1 = rank k).map (·.2)

/-- A key has one entry. -/
theorem value?_eq_some (hinj : Function.Injective rank) {m : KeyMap rank V} {k : K} {v : V} :
    m.value? k = some v ↔ (k, v) ∈ m.entries := by
  have hfind : ∀ e, (m.entries.find? fun e => rank e.1 = rank k) = some e ↔
      e ∈ m.entries ∧ e.1 = k := by
    intro e
    obtain ⟨es, hes⟩ := m
    dsimp only
    induction es with
    | nil => simp
    | cons f es ih =>
      obtain ⟨hhead, htail⟩ := List.pairwise_cons.mp hes
      rw [List.find?_cons]
      by_cases hf : f.1 = k
      · simp only [hf, decide_true, Option.some.injEq, List.mem_cons]
        constructor
        · rintro rfl
          exact ⟨.inl rfl, hf⟩
        · rintro ⟨rfl | he, hk⟩
          · rfl
          · exact absurd (congrArg rank (hf.trans hk.symm)) (hhead e he).ne
      · simp only [hinj.ne hf, decide_false, ih htail, List.mem_cons]
        constructor
        · rintro ⟨he, hk⟩
          exact ⟨.inr he, hk⟩
        · rintro ⟨rfl | he, hk⟩
          · exact absurd hk hf
          · exact ⟨he, hk⟩
  rw [value?, Option.map_eq_some_iff]
  constructor
  · rintro ⟨⟨j, w⟩, he, rfl⟩
    obtain ⟨hmem, rfl⟩ := (hfind _).mp he
    exact hmem
  · exact fun hmem => ⟨(k, v), (hfind _).mpr ⟨hmem, rfl⟩, rfl⟩

theorem mem_put_const (hinj : Function.Injective rank) {k : K} {v : V} {es : List (K × V)}
    (hes : es.Pairwise (fun e f => rank e.1 < rank f.1)) {f : K × V} :
    f ∈ put rank (fun _ => v) k v es ↔ f = (k, v) ∨ f ∈ es ∧ f.1 ≠ k := by
  induction es with
  | nil => simp [put]
  | cons e es ih =>
    obtain ⟨hhead, htail⟩ := List.pairwise_cons.mp hes
    rw [put]
    split
    · rename_i hlt
      have hne : ∀ g ∈ e :: es, g.1 ≠ k := by
        rintro g hg rfl
        obtain rfl | hg := List.mem_cons.mp hg
        · exact hlt.ne rfl
        · exact (hlt.trans (hhead g hg)).ne rfl
      rw [List.mem_cons]
      exact or_congr_right ⟨fun hf => ⟨hf, hne f hf⟩, And.left⟩
    · rename_i hle
      split
      · rename_i hlt
        have hne : e.1 ≠ k := fun heq => hlt.ne (congrArg rank heq)
        rw [List.mem_cons, ih htail, List.mem_cons]
        constructor
        · rintro (rfl | rfl | ⟨hf, hk⟩)
          · exact .inr ⟨.inl rfl, hne⟩
          · exact .inl rfl
          · exact .inr ⟨.inr hf, hk⟩
        · rintro (rfl | ⟨rfl | hf, hk⟩)
          · exact .inr (.inl rfl)
          · exact .inl rfl
          · exact .inr (.inr ⟨hf, hk⟩)
      · rename_i hge
        obtain rfl : e.1 = k := hinj (le_antisymm (not_lt.mp hle) (not_lt.mp hge))
        have hne : ∀ g ∈ es, g.1 ≠ e.1 := fun g hg heq => (hhead g hg).ne (congrArg rank heq).symm
        rw [List.mem_cons, List.mem_cons]
        constructor
        · rintro (rfl | hf)
          · exact .inl rfl
          · exact .inr ⟨.inr hf, hne f hf⟩
        · rintro (rfl | ⟨rfl | hf, hk⟩)
          · exact .inl rfl
          · exact absurd rfl hk
          · exact .inr hf

/-- After giving a key a value, there are its entry, and those of the other keys. -/
theorem mem_assign (hinj : Function.Injective rank) {m : KeyMap rank V} {k : K} {v : V}
    {f : K × V} : f ∈ (m.assign k v).entries ↔ f = (k, v) ∨ f ∈ m.entries ∧ f.1 ≠ k :=
  mem_put_const hinj m.sorted

/-! ### Lists that are put in order -/

/-- The entries of a list, put one after the other in an empty map. -/
def inOrder (rank : K → ι) (es : List (K × V)) : List (K × V) :=
  es.foldl (fun m e => put rank id e.1 e.2 m) []

/-- Values do not matter for the order. -/
theorem put_map {W : Type} (f : V → W) (k : K) (v : V) (es : List (K × V)) :
    put rank id k (f v) (es.map (Prod.map id f)) = (put rank id k v es).map (Prod.map id f) := by
  induction es with
  | nil => rfl
  | cons e es ih =>
    rw [List.map_cons, put, put]
    dsimp only [Prod.map, id]
    split
    · rfl
    · split
      · rw [List.map_cons, ← ih]
        rfl
      · rfl

theorem inOrder_map {W : Type} (f : V → W) (es : List (K × V)) :
    inOrder rank (es.map (Prod.map id f)) = (inOrder rank es).map (Prod.map id f) := by
  have hfold : ∀ m : List (K × V),
      (es.map (Prod.map id f)).foldl (fun m e => put rank id e.1 e.2 m) (m.map (Prod.map id f)) =
        (es.foldl (fun m e => put rank id e.1 e.2 m) m).map (Prod.map id f) := by
    induction es with
    | nil => exact fun _ => rfl
    | cons e es ih =>
      intro m
      rw [List.map_cons, List.foldl_cons, List.foldl_cons, ← ih, ← put_map]
      rfl
  exact hfold []

/-- A new key gives one entry more. -/
theorem put_perm {k : K} (v : V) {es : List (K × V)} (h : ∀ e ∈ es, rank e.1 ≠ rank k) :
    (put rank id k v es).Perm ((k, v) :: es) := by
  induction es with
  | nil => exact .refl _
  | cons e es ih =>
    rw [put]
    split
    · exact .refl _
    · next hle =>
      have hne := h e List.mem_cons_self
      rw [if_pos (lt_of_le_of_ne (not_lt.mp hle) hne)]
      exact ((ih fun f hf => h f (List.mem_cons_of_mem _ hf)).cons e).trans (.swap _ _ _)

/-- Looking up after adding an entry with a new key. -/
theorem value?_emplace (hinj : Function.Injective rank) {m : KeyMap rank V} {k : K}
    (hnew : m.value? k = none) (v : V) (j : K) [Decidable (j = k)] :
    (m.emplace k v).value? j = if j = k then some v else m.value? j := by
  have hne : ∀ e ∈ m.entries, rank e.1 ≠ rank k := by
    rintro ⟨i, w⟩ he hrank
    obtain rfl : i = k := hinj hrank
    rw [(value?_eq_some hinj).mpr he] at hnew
    cases hnew
  refine Option.ext fun w => ?_
  have hmem : (j, w) ∈ (m.emplace k v).entries ↔ (j, w) = (k, v) ∨ (j, w) ∈ m.entries :=
    (put_perm v hne).mem_iff.trans List.mem_cons
  rw [value?_eq_some hinj, hmem]
  split
  · next hj =>
    rw [hj, Prod.mk.injEq, eq_self, true_and, Option.some.injEq, eq_comm]
    exact or_iff_left fun h => hne _ h rfl
  · next hj =>
    rw [value?_eq_some hinj]
    exact or_iff_right fun h => hj (Prod.mk.inj h).1

/-- Looking up after changing a value. -/
theorem value?_adjust (hinj : Function.Injective rank) (m : KeyMap rank V) (k : K) (f : V → V)
    (j : K) [Decidable (j = k)] :
    (m.adjust k f).value? j = if j = k then (m.value? j).map f else m.value? j := by
  have hkey : ∀ e : K × V, (if rank e.1 = rank k then (e.1, f e.2) else e).1 = e.1 :=
    fun e => by split <;> rfl
  have hfind : (m.adjust k f).entries.find? (fun e => rank e.1 = rank j) =
      (m.entries.find? fun e => rank e.1 = rank j).map
        fun e => if rank e.1 = rank k then (e.1, f e.2) else e := by
    rw [adjust, List.find?_map]
    refine congrArg _ (congrArg (fun p => m.entries.find? p) (funext fun e => ?_))
    simp only [Function.comp, hkey]
  rw [value?, hfind, value?]
  cases hold : m.entries.find? fun e => rank e.1 = rank j with
  | none => split <;> rfl
  | some e =>
    have hrank : rank e.1 = rank j := by simpa using List.find?_some hold
    simp only [Option.map_some]
    by_cases hj : j = k
    · rw [if_pos hj, if_pos (hrank.trans (congrArg rank hj))]
    · rw [if_neg hj, if_neg fun h => hj (hinj (hrank.symm.trans h))]

/-! ### Maps with the same keys -/

/-- The same new key is put at the same place. -/
theorem forall₂_put {W : Type} {R : K × V → K × W → Prop} {es : List (K × V)} {fs : List (K × W)}
    (hkey : ∀ e f, R e f → e.1 = f.1) {modify : V → V} {modify' : W → W} {k : K} {v : V} {w : W}
    (hnew : ∀ f ∈ fs, rank f.1 ≠ rank k) (hR : R (k, v) (k, w)) (h : List.Forall₂ R es fs) :
    List.Forall₂ R (put rank modify k v es) (put rank modify' k w fs) := by
  induction h with
  | nil => exact .cons hR .nil
  | @cons e f es fs hef htail ih =>
    rw [put, put, ← hkey e f hef]
    split
    · exact .cons hR (.cons hef htail)
    · next hle =>
      have hlt := lt_of_le_of_ne (not_lt.mp hle) (hkey e f hef ▸ hnew f List.mem_cons_self)
      rw [if_pos hlt, if_pos hlt]
      exact .cons hef (ih fun g hg => hnew g (List.mem_cons_of_mem f hg))

/-- Values at the same key are changed. -/
theorem forall₂_adjust {W : Type} {R : K × V → K × W → Prop} {m : KeyMap rank V}
    {n : KeyMap rank W} (hkey : ∀ e f, R e f → e.1 = f.1) {k : K} {f : V → V} {g : W → W}
    (hchange : ∀ v w j, rank j = rank k → R (j, v) (j, w) → R (j, f v) (j, g w))
    (h : List.Forall₂ R m.entries n.entries) :
    List.Forall₂ R (m.adjust k f).entries (n.adjust k g).entries := by
  refine List.forall₂_map_left_iff.mpr (List.forall₂_map_right_iff.mpr (h.imp ?_))
  rintro ⟨i, v⟩ ⟨j, w⟩ hvw
  obtain rfl : i = j := hkey _ _ hvw
  dsimp only
  split
  · next hi => exact hchange v w i hi hvw
  · exact hvw

theorem mem_of_mem_inOrder {es : List (K × V)} {f : K × V} (h : f ∈ inOrder rank es) : f ∈ es := by
  have hfold : ∀ m : List (K × V),
      f ∈ es.foldl (fun m e => put rank id e.1 e.2 m) m → f ∈ m ∨ f ∈ es := by
    clear h
    induction es with
    | nil => exact fun _ h => .inl h
    | cons e es ih =>
      intro m hf
      obtain hf | hf := ih _ hf
      · obtain hf | rfl := mem_put_id hf
        · exact .inl hf
        · exact .inr List.mem_cons_self
      · exact .inr (List.mem_cons_of_mem _ hf)
  exact (hfold [] h).resolve_left (List.not_mem_nil)

/-- With different keys, all entries are kept. -/
theorem inOrder_perm {es : List (K × V)} (h : (es.map fun e => rank e.1).Nodup) :
    (inOrder rank es).Perm es := by
  have hfold : ∀ m : List (K × V), (∀ e ∈ m, ∀ f ∈ es, rank e.1 ≠ rank f.1) →
      (es.foldl (fun m e => put rank id e.1 e.2 m) m).Perm (m ++ es) := by
    induction es with
    | nil => exact fun m _ => (List.append_nil m).symm ▸ .refl _
    | cons e es ih =>
      intro m hm
      rw [List.map_cons, List.nodup_cons] at h
      have hput : (put rank id e.1 e.2 m).Perm (e :: m) :=
        put_perm e.2 fun f hf => hm f hf e List.mem_cons_self
      refine (ih h.2 _ fun f hf g hg => ?_).trans ?_
      · obtain rfl | hf := List.mem_cons.mp (hput.mem_iff.mp hf)
        · exact fun heq => h.1 (heq ▸ List.mem_map_of_mem hg)
        · exact hm f hf g (List.mem_cons_of_mem _ hg)
      · exact (hput.append_right es).trans (List.perm_middle.symm)
  exact hfold [] fun e he => nomatch he

end KeyMap

end Dueca.Lib
