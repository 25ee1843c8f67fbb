import Mathlib.Data.List.Basic

/-!
# The registry

A registry has its entries in an array, for access by number, and a map from entries to numbers,
for access by name. The keys of the map are pointers into the array; these are compared by the
names found there. When the array is too small a larger one is made, with the entries copied, and
the map is filled again for the new array. The two arrays are used in turn.

Entries that are not there are equal to the empty one.
-/

namespace Dueca.Objects

/-- `registry<UD>` -/
structure Registry (UD : Type) where
  v1 : List UD
  v2 : List UD
  vhold : List UD
  usePrimary : Bool
  index : List (ℕ × ℕ)
  highestIndex : ℕ

namespace Registry

variable {UD N : Type} [DecidableEq N] (key : UD → N) (emptyUd : UD)

def init (initialsize : ℕ) : Registry UD :=
  ⟨List.replicate initialsize emptyUd, [], [], true, [], 0⟩

/-- The array in use. -/
def vec (r : Registry UD) : List UD := if r.usePrimary then r.v1 else r.v2

def setVec (r : Registry UD) (v : List UD) : Registry UD :=
  if r.usePrimary then { r with v1 := v } else { r with v2 := v }

/-- A pointer into the array compares equal to one to an entry with this name. -/
def pointsTo (v : List UD) (name : N) (p : ℕ) : Bool := v[p]?.map key == some name

/-- `index.find` -/
def findIndex (r : Registry UD) (name : N) : Option ℕ :=
  (r.index.find? fun e => pointsTo key r.vec name e.1).map (·.2)

/-- `index[&v[place]] = place` -/
def assignIndex (v : List UD) (name : N) (place : ℕ) (index : List (ℕ × ℕ)) : List (ℕ × ℕ) :=
  if index.any fun e => pointsTo key v name e.1 then
    index.map fun e => if pointsTo key v name e.1 then (e.1, place) else e
  else (place, place) :: index

/-- The map gets an entry of the array, if there is one. -/
def refill (v : List UD) (index : List (ℕ × ℕ)) (ii : ℕ) : List (ℕ × ℕ) :=
  match v[ii]? with
  | none => index
  | some ud => if key ud ≠ key emptyUd then assignIndex key v (key ud) ii index else index

/-- The loop that fills the map, `for (int ii = n; ii--; )`. -/
def refillLoop (v : List UD) : ℕ → List (ℕ × ℕ) → List (ℕ × ℕ)
  | 0, index => index
  | ii + 1, index => refillLoop v ii (refill key emptyUd v index ii)

/-- A larger array is taken into use. -/
def grow (r : Registry UD) (place : ℕ) : Registry UD :=
  let size := r.vec.length
  let newSize := if size * 2 > place + 1 then size * 2 else place + 1
  let v := r.vec ++ List.replicate (newSize - size) emptyUd
  let index := refillLoop key emptyUd v size []
  if r.usePrimary then
    { r with vhold := r.v2, v2 := v, index := index, usePrimary := false }
  else
    { r with vhold := r.v1, v1 := v, index := index, usePrimary := true }

/-- The entry is put in the array in use, and in the map. -/
def putAt (r : Registry UD) (place : ℕ) (ud : UD) : Registry UD :=
  { r.setVec (r.vec.set place ud) with
    index := assignIndex key (r.vec.set place ud) (key ud) place r.index
    highestIndex := if place > r.highestIndex then place else r.highestIndex }

/-- `insert`, which throws `ObjectAlreadyInRegistry` when the name has been taken. -/
def insert (r : Registry UD) (place : ℕ) (ud : UD) : Except Unit (Registry UD) :=
  match findIndex key r (key ud) with
  | some _ => .error ()
  | none => .ok (putAt key (if r.vec.length ≤ place then grow key emptyUd r place else r) place ud)

/-- `remove` -/
def remove (r : Registry UD) (i : ℕ) : Registry UD :=
  match r.vec[i]? with
  | none => r
  | some ud =>
    { r.setVec (r.vec.set i emptyUd) with
      index :=
        match r.index.find? fun e => pointsTo key r.vec (key ud) e.1 with
        | none => r.index
        | some e => r.index.erase e }

/-- `find`, with a number -/
def find (r : Registry UD) (i : ℕ) : UD := r.vec[i]?.getD emptyUd

/-- `contains`, with a number -/
def contains (r : Registry UD) (i : ℕ) : Bool :=
  match r.vec[i]? with
  | none => false
  | some ud => key ud ≠ key emptyUd

/-- `find`, with a name -/
def findName (r : Registry UD) (name : N) : UD :=
  match findIndex key r name with
  | none => emptyUd
  | some i => r.find emptyUd i

/-- `contains`, with a name -/
def containsName (r : Registry UD) (name : N) : Bool := (findIndex key r name).isSome

/-- The entry that there is for a number. -/
def entryAt (v : List UD) (i : ℕ) : Option UD := v[i]?.filter fun ud => key ud ≠ key emptyUd

def objectAt? (r : Registry UD) (i : ℕ) : Option UD := entryAt key emptyUd r.vec i

/-- The map has the pointers to the entries that there are from `n` on, each with its number. -/
structure Indexed (v : List UD) (n : ℕ) (index : List (ℕ × ℕ)) : Prop where
  mem_index : ∀ e, e ∈ index ↔ e.1 = e.2 ∧ n ≤ e.1 ∧ (entryAt key emptyUd v e.1).isSome
  nodup : index.Nodup

/-- Different entries have different names. -/
def Distinct (v : List UD) : Prop :=
  ∀ i j x y, entryAt key emptyUd v i = some x → entryAt key emptyUd v j = some y →
    key x = key y → i = j

/-- Array and map go together. -/
structure Inv (r : Registry UD) : Prop where
  indexed : Indexed key emptyUd r.vec 0 r.index
  distinct : Distinct key emptyUd r.vec

variable {key : UD → N} {emptyUd : UD} {r r' : Registry UD} {v : List UD} {ud x : UD} {name : N}
  {i j n place : ℕ} {index : List (ℕ × ℕ)} {e : ℕ × ℕ}

/-! ### Arrays -/

theorem vec_setVec : (r.setVec v).vec = v := by
  unfold setVec vec
  cases r.usePrimary <;> rfl

theorem vec_putAt : (putAt key r place ud).vec = r.vec.set place ud :=
  vec_setVec (r := r)

theorem pointsTo_iff : pointsTo key v name i = true ↔ ∃ x, v[i]? = some x ∧ key x = name := by
  rw [pointsTo, beq_iff_eq, Option.map_eq_some_iff]

theorem entryAt_eq_some :
    entryAt key emptyUd v i = some x ↔ v[i]? = some x ∧ key x ≠ key emptyUd := by
  rw [entryAt, Option.filter_eq_some_iff, decide_eq_true_eq]

theorem pointsTo_of_entryAt (h : entryAt key emptyUd v i = some x) :
    pointsTo key v name i = true ↔ key x = name := by
  rw [pointsTo_iff]
  constructor
  · rintro ⟨y, hy, hname⟩
    rwa [Option.some.inj ((entryAt_eq_some.1 h).1.symm.trans hy)]
  · exact fun hname => ⟨x, (entryAt_eq_some.1 h).1, hname⟩

theorem entryAt_replicate : entryAt key emptyUd (List.replicate n emptyUd) i = none := by
  rw [Option.eq_none_iff_forall_not_mem]
  intro x hx
  obtain ⟨hmem, hne⟩ := entryAt_eq_some.1 hx
  have hx : x = emptyUd := List.eq_of_mem_replicate (List.mem_of_getElem? hmem)
  exact hne (congrArg key hx)

/-- Empty entries at the end do not count. -/
theorem entryAt_append_replicate :
    entryAt key emptyUd (v ++ List.replicate n emptyUd) i = entryAt key emptyUd v i := by
  rcases Nat.lt_or_ge i v.length with hlt | hge
  · rw [entryAt, List.getElem?_append_left hlt, entryAt]
  · have hnone : entryAt key emptyUd v i = none := by
      rw [entryAt, List.getElem?_eq_none hge, Option.filter_none]
    rw [hnone, entryAt, List.getElem?_append_right hge]
    exact entryAt_replicate

theorem entryAt_set_of_ne (h : j ≠ i) :
    entryAt key emptyUd (v.set i ud) j = entryAt key emptyUd v j := by
  rw [entryAt, List.getElem?_set_ne h.symm, entryAt]

theorem entryAt_set_self (hi : i < v.length) :
    entryAt key emptyUd (v.set i ud) i = if key ud = key emptyUd then none else some ud := by
  rw [entryAt, List.getElem?_set_self hi]
  by_cases h : key ud = key emptyUd <;> simp [h]

theorem contains_eq : contains key emptyUd r i = (objectAt? key emptyUd r i).isSome := by
  unfold contains objectAt? entryAt
  cases r.vec[i]? with
  | none => rfl
  | some x =>
    by_cases hx : key x = key emptyUd <;> simp [hx]

theorem find_eq (h : objectAt? key emptyUd r i = some x) : r.find emptyUd i = x := by
  rw [find, (entryAt_eq_some.1 h).1, Option.getD_some]

/-! ### The map -/

theorem Indexed.mem_self (h : Indexed key emptyUd v n index) (hn : n ≤ i)
    (hx : entryAt key emptyUd v i = some x) : (i, i) ∈ index :=
  (h.mem_index _).2 ⟨rfl, hn, hx ▸ rfl⟩

/-- A pointer that compares equal to an entry points to it. -/
theorem Indexed.eq_of_pointsTo (h : Indexed key emptyUd v n index)
    (hdistinct : Distinct key emptyUd v) (he : e ∈ index)
    (hname : pointsTo key v name e.1 = true) (hx : entryAt key emptyUd v i = some x)
    (hkey : key x = name) : e = (i, i) := by
  obtain ⟨heq, -, hsome⟩ := (h.mem_index e).1 he
  obtain ⟨y, hy⟩ := Option.isSome_iff_exists.1 hsome
  have hi : e.1 = i :=
    hdistinct e.1 i y x hy hx (((pointsTo_of_entryAt hy).1 hname).trans hkey.symm)
  exact Prod.ext hi (heq ▸ hi)

/-- Finding a name gives the number of the entry with that name. -/
theorem Inv.findIndex_iff (h : Inv key emptyUd r) :
    findIndex key r name = some i ↔ ∃ x, objectAt? key emptyUd r i = some x ∧ key x = name := by
  constructor
  · intro hfind
    obtain ⟨e, he, rfl⟩ := Option.map_eq_some_iff.1 hfind
    obtain ⟨heq, -, hsome⟩ := (h.indexed.mem_index e).1 (List.mem_of_find?_eq_some he)
    obtain ⟨x, hx⟩ := Option.isSome_iff_exists.1 hsome
    have hpoints : pointsTo key r.vec name e.1 = true :=
      List.find?_some (p := fun e : ℕ × ℕ => pointsTo key r.vec name e.1) he
    exact ⟨x, heq ▸ hx, (pointsTo_of_entryAt hx).1 hpoints⟩
  · rintro ⟨x, hx, hname⟩
    have hmem := h.indexed.mem_self (Nat.zero_le i) hx
    rw [findIndex, Option.map_eq_some_iff]
    cases hfind : r.index.find? fun e => pointsTo key r.vec name e.1 with
    | none =>
      exact absurd ((pointsTo_of_entryAt hx).2 hname) (List.find?_eq_none.1 hfind _ hmem)
    | some e =>
      have hpoints : pointsTo key r.vec name e.1 = true :=
        List.find?_some (p := fun e : ℕ × ℕ => pointsTo key r.vec name e.1) hfind
      exact ⟨e, rfl, congrArg Prod.snd (h.indexed.eq_of_pointsTo h.distinct
        (List.mem_of_find?_eq_some hfind) hpoints hx hname)⟩

theorem Inv.findIndex_eq_none (h : Inv key emptyUd r) :
    findIndex key r name = none ↔ ∀ i x, objectAt? key emptyUd r i = some x → key x ≠ name := by
  constructor
  · intro hnone i x hx hname
    cases hnone.symm.trans (h.findIndex_iff.2 ⟨x, hx, hname⟩)
  · intro hall
    rw [Option.eq_none_iff_forall_not_mem]
    intro i hi
    obtain ⟨x, hx, hname⟩ := h.findIndex_iff.1 hi
    exact hall i x hx hname

theorem inv_init (n : ℕ) : Inv key emptyUd (init emptyUd n) where
  indexed :=
    { mem_index := fun e => by
        change e ∈ [] ↔ e.1 = e.2 ∧ 0 ≤ e.1 ∧
          (entryAt key emptyUd (List.replicate n emptyUd) e.1).isSome
        rw [entryAt_replicate]
        simp
      nodup := List.nodup_nil }
  distinct i j x y hx := by
    change entryAt key emptyUd (List.replicate n emptyUd) i = some x at hx
    rw [entryAt_replicate] at hx
    cases hx

/-- A new name is put in the map. -/
theorem assignIndex_of_new (h : ∀ e ∈ index, pointsTo key v name e.1 = false) :
    assignIndex key v name place index = (place, place) :: index := by
  rw [assignIndex, if_neg]
  intro hany
  obtain ⟨e, he, hpoints⟩ := List.any_eq_true.1 hany
  cases (h e he).symm.trans hpoints

/-! ### Growth -/

theorem Indexed.refill (h : Indexed key emptyUd v (i + 1) index)
    (hdistinct : Distinct key emptyUd v) :
    Indexed key emptyUd v i (refill key emptyUd v index i) := by
  have hmem : ∀ e : ℕ × ℕ, e.1 = e.2 ∧ i ≤ e.1 ∧ (entryAt key emptyUd v e.1).isSome ↔
      (e = (i, i) ∧ (entryAt key emptyUd v i).isSome) ∨ e ∈ index := by
    rintro ⟨a, b⟩
    rw [h.mem_index]
    constructor
    · rintro ⟨heq, hle, hsome⟩
      obtain rfl : a = b := heq
      rcases Nat.eq_or_lt_of_le hle with rfl | hlt
      · exact .inl ⟨rfl, hsome⟩
      · exact .inr ⟨rfl, hlt, hsome⟩
    · rintro (⟨heq, hsome⟩ | ⟨heq, hlt, hsome⟩)
      · cases heq
        exact ⟨rfl, Nat.le_refl i, hsome⟩
      · exact ⟨heq, Nat.le_of_succ_le hlt, hsome⟩
  cases hv : v[i]? with
  | none =>
    have hnone : entryAt key emptyUd v i = none := by rw [entryAt, hv, Option.filter_none]
    have hrefill : Registry.refill key emptyUd v index i = index := by rw [Registry.refill, hv]
    rw [hrefill]
    refine ⟨fun e => ?_, h.nodup⟩
    rw [hmem, hnone]
    simp
  | some ud =>
    have hrefill : Registry.refill key emptyUd v index i =
        if key ud ≠ key emptyUd then assignIndex key v (key ud) i index else index := by
      rw [Registry.refill, hv]
    rw [hrefill]
    by_cases hempty : key ud = key emptyUd
    · have hnone : entryAt key emptyUd v i = none := by simp [entryAt, hv, hempty]
      rw [if_neg (not_not_intro hempty)]
      refine ⟨fun e => ?_, h.nodup⟩
      rw [hmem, hnone]
      simp
    · have hsome : entryAt key emptyUd v i = some ud := entryAt_eq_some.2 ⟨hv, hempty⟩
      have hnot : ∀ e ∈ index, e.1 ≠ i := fun e he hi =>
        absurd (hi ▸ ((h.mem_index e).1 he).2.1) (Nat.not_succ_le_self i)
      have hnew : ∀ e ∈ index, pointsTo key v (key ud) e.1 = false := by
        intro e he
        obtain ⟨y, hy⟩ := Option.isSome_iff_exists.1 ((h.mem_index e).1 he).2.2
        refine Bool.eq_false_iff.2 fun hpoints => hnot e he ?_
        exact hdistinct e.1 i y ud hy hsome ((pointsTo_of_entryAt hy).1 hpoints)
      rw [if_pos hempty, assignIndex_of_new hnew]
      refine ⟨fun e => ?_, List.nodup_cons.2 ⟨fun he => hnot _ he rfl, h.nodup⟩⟩
      rw [hmem, hsome, List.mem_cons]
      simp

theorem Indexed.refillLoop (h : Indexed key emptyUd v n index)
    (hdistinct : Distinct key emptyUd v) :
    Indexed key emptyUd v 0 (refillLoop key emptyUd v n index) := by
  induction n generalizing index with
  | zero => exact h
  | succ n ih => exact ih (h.refill hdistinct)

/-- A larger array has the same entries. -/
theorem objectAt?_grow (r : Registry UD) (place i : ℕ) :
    objectAt? key emptyUd (grow key emptyUd r place) i = objectAt? key emptyUd r i := by
  have hvec : ∃ n, (grow key emptyUd r place).vec = r.vec ++ List.replicate n emptyUd := by
    unfold grow
    cases hr : r.usePrimary <;> exact ⟨_, rfl⟩
  obtain ⟨n, hn⟩ := hvec
  rw [objectAt?, hn, entryAt_append_replicate, objectAt?]

theorem Inv.grow (h : Inv key emptyUd r) (place : ℕ) :
    Inv key emptyUd (grow key emptyUd r place) := by
  have hdistinct : Distinct key emptyUd (Registry.grow key emptyUd r place).vec := by
    intro i j x y hx hy
    exact h.distinct i j x y ((objectAt?_grow r place i).symm.trans hx)
      ((objectAt?_grow r place j).symm.trans hy)
  refine ⟨?_, hdistinct⟩
  have hindex : (Registry.grow key emptyUd r place).index =
      Registry.refillLoop key emptyUd (Registry.grow key emptyUd r place).vec r.vec.length [] := by
    unfold Registry.grow
    cases hr : r.usePrimary <;> rfl
  rw [hindex]
  refine Indexed.refillLoop ⟨fun e => ?_, List.nodup_nil⟩ hdistinct
  -- There are no entries beyond those that have been copied.
  constructor
  · exact fun he => absurd he List.not_mem_nil
  · rintro ⟨-, hle, hsome⟩
    have hnone : entryAt key emptyUd r.vec e.1 = none := by
      rw [entryAt, List.getElem?_eq_none hle, Option.filter_none]
    rw [show entryAt key emptyUd (Registry.grow key emptyUd r place).vec e.1 = none from
      (objectAt?_grow r place e.1).trans hnone] at hsome
    cases hsome

theorem lt_length_grow (r : Registry UD) (place : ℕ) :
    place < (grow key emptyUd r place).vec.length := by
  unfold grow
  cases hr : r.usePrimary <;>
    simp only [vec, hr, Bool.false_eq_true, if_false, if_true, List.length_append,
      List.length_replicate] <;> split <;> omega

/-! ### Insertion and removal -/

/-- An entry with a new name, in a free place. -/
theorem Inv.putAt (h : Inv key emptyUd r) (hlt : place < r.vec.length)
    (hfree : objectAt? key emptyUd r place = none) (hud : key ud ≠ key emptyUd)
    (hnew : ∀ i x, objectAt? key emptyUd r i = some x → key x ≠ key ud) :
    Inv key emptyUd (putAt key r place ud) ∧ ∀ i, objectAt? key emptyUd (putAt key r place ud) i =
      if i = place then some ud else objectAt? key emptyUd r i := by
  have hentry : ∀ i, entryAt key emptyUd (r.vec.set place ud) i =
      if i = place then some ud else entryAt key emptyUd r.vec i := by
    intro i
    split
    · next hi => rw [hi, entryAt_set_self hlt, if_neg hud]
    · next hi => exact entryAt_set_of_ne hi
  have hmem : ∀ e ∈ r.index, e.1 ≠ place ∧ ∃ y, entryAt key emptyUd r.vec e.1 = some y := by
    intro e he
    obtain ⟨y, hy⟩ := Option.isSome_iff_exists.1 ((h.indexed.mem_index e).1 he).2.2
    refine ⟨fun hplace => ?_, y, hy⟩
    cases hfree.symm.trans (hplace ▸ hy : entryAt key emptyUd r.vec place = some y)
  have hassign : (Registry.putAt key r place ud).index = (place, place) :: r.index := by
    refine assignIndex_of_new fun e he => ?_
    obtain ⟨hne, y, hy⟩ := hmem e he
    have hy' : entryAt key emptyUd (r.vec.set place ud) e.1 = some y := by
      rw [hentry, if_neg hne, hy]
    exact Bool.eq_false_iff.2 fun hpoints => hnew e.1 y hy ((pointsTo_of_entryAt hy').1 hpoints)
  refine ⟨⟨⟨fun e => ?_, ?_⟩, fun i j x y hx hy hkey => ?_⟩, fun i => by
    rw [objectAt?, vec_putAt, hentry, objectAt?]⟩
  · rw [hassign, vec_putAt, hentry, List.mem_cons, h.indexed.mem_index]
    constructor
    · rintro (rfl | ⟨heq, -, hsome⟩)
      · rw [if_pos rfl]
        exact ⟨rfl, Nat.zero_le _, rfl⟩
      · rw [if_neg (hmem e ((h.indexed.mem_index e).2 ⟨heq, Nat.zero_le _, hsome⟩)).1]
        exact ⟨heq, Nat.zero_le _, hsome⟩
    · rintro ⟨heq, -, hsome⟩
      by_cases hplace : e.1 = place
      · exact .inl (Prod.ext hplace (heq ▸ hplace))
      · rw [if_neg hplace] at hsome
        exact .inr ⟨heq, Nat.zero_le _, hsome⟩
  · rw [hassign]
    exact List.nodup_cons.2 ⟨fun he => (hmem _ he).1 rfl, h.indexed.nodup⟩
  · rw [vec_putAt, hentry] at hx hy
    split at hx
    · next hi =>
      split at hy
      · next hj => exact hi.trans hj.symm
      · obtain rfl := Option.some.inj hx
        exact absurd hkey.symm (hnew j y hy)
    · split at hy
      · obtain rfl := Option.some.inj hy
        exact absurd hkey (hnew i x hx)
      · exact h.distinct i j x y hx hy hkey

/-- The entry gets the place, if it has a new name. -/
theorem Inv.insert (h : Inv key emptyUd r) (hfree : objectAt? key emptyUd r place = none)
    (hud : key ud ≠ key emptyUd) (hnew : findIndex key r (key ud) = none) :
    ∃ r', insert key emptyUd r place ud = .ok r' ∧ Inv key emptyUd r' ∧
      ∀ i, objectAt? key emptyUd r' i = if i = place then some ud else objectAt? key emptyUd r i := by
  have hnames := h.findIndex_eq_none.1 hnew
  unfold Registry.insert
  rw [hnew]
  refine ⟨_, rfl, ?_⟩
  by_cases hsize : r.vec.length ≤ place
  · rw [if_pos hsize]
    obtain ⟨hinv, hentry⟩ := (h.grow place).putAt (lt_length_grow r place)
      ((objectAt?_grow r place place).trans hfree) hud
      (fun i x hx => hnames i x ((objectAt?_grow r place i).symm.trans hx))
    exact ⟨hinv, fun i => by rw [hentry, objectAt?_grow]⟩
  · rw [if_neg hsize]
    exact h.putAt (Nat.not_le.1 hsize) hfree hud hnames

/-- The place becomes free. -/
theorem Inv.remove (h : Inv key emptyUd r) (hx : objectAt? key emptyUd r i = some x) :
    Inv key emptyUd (remove key emptyUd r i) ∧
      ∀ j, objectAt? key emptyUd (remove key emptyUd r i) j =
        if j = i then none else objectAt? key emptyUd r j := by
  have hv : r.vec[i]? = some x := (entryAt_eq_some.1 hx).1
  have hlt : i < r.vec.length := (List.getElem?_eq_some_iff.1 hv).1
  have hmem := h.indexed.mem_self (Nat.zero_le i) hx
  have hentry : ∀ j, entryAt key emptyUd (r.vec.set i emptyUd) j =
      if j = i then none else entryAt key emptyUd r.vec j := by
    intro j
    split
    · next hj => rw [hj, entryAt_set_self hlt, if_pos rfl]
    · next hj => exact entryAt_set_of_ne hj
  obtain ⟨hvec, hindex⟩ : (Registry.remove key emptyUd r i).vec = r.vec.set i emptyUd ∧
      (Registry.remove key emptyUd r i).index = r.index.erase (i, i) := by
    have hremove : Registry.remove key emptyUd r i =
        { r.setVec (r.vec.set i emptyUd) with
          index :=
            match r.index.find? fun e => pointsTo key r.vec (key x) e.1 with
            | none => r.index
            | some e => r.index.erase e } := by
      rw [Registry.remove, hv]
    rw [hremove]
    refine ⟨vec_setVec (r := r), ?_⟩
    cases hfind : r.index.find? fun e => pointsTo key r.vec (key x) e.1 with
    | none => exact absurd ((pointsTo_of_entryAt hx).2 rfl) (List.find?_eq_none.1 hfind _ hmem)
    | some e =>
      have hpoints : pointsTo key r.vec (key x) e.1 = true :=
        List.find?_some (p := fun e : ℕ × ℕ => pointsTo key r.vec (key x) e.1) hfind
      obtain rfl := h.indexed.eq_of_pointsTo h.distinct (List.mem_of_find?_eq_some hfind)
        hpoints hx rfl
      rfl
  refine ⟨⟨⟨fun e => ?_, ?_⟩, fun a b y z hy hz => ?_⟩, fun j => by
    rw [objectAt?, hvec, hentry, objectAt?]⟩
  · rw [hindex, hvec, hentry, h.indexed.nodup.mem_erase_iff, h.indexed.mem_index]
    constructor
    · rintro ⟨hne, heq, -, hsome⟩
      rw [if_neg fun hi => hne (Prod.ext hi (heq ▸ hi))]
      exact ⟨heq, Nat.zero_le _, hsome⟩
    · rintro ⟨heq, -, hsome⟩
      split at hsome
      · cases hsome
      · next hi => exact ⟨fun he => hi (he ▸ rfl), heq, Nat.zero_le _, hsome⟩
  · rw [hindex]
    exact h.indexed.nodup.erase _
  · rw [hvec, hentry] at hy hz
    split at hy
    · cases hy
    · split at hz
      · cases hz
      · exact h.distinct a b y z hy hz

end Registry

end Dueca.Objects
