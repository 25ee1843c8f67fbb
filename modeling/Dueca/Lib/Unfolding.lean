import Mathlib.Data.Fintype.Card

/-!
# The unfolding of a graph

In a graph a node has a list of next ones. A walk is a list of positions in these lists. A search
that remembers nothing visits a node once for each walk that leads there: it comes to an end, and
visits nothing twice, if and only if no two walks from the start lead to the same place.
-/

namespace Dueca.Lib

variable {α κ β : Type*} (next : α → List α)

/-- The node at the end of a walk. -/
def follow : α → List ℕ → Option α
  | a, [] => some a
  | a, i :: u =>
    match (next a)[i]? with
    | some b => follow b u
    | none => none

/-- The results for all members, one after another, or none when one of them has none. -/
def collect (f : α → Option (List β)) : List α → Option (List β)
  | [] => some []
  | a :: as =>
    match f a with
    | some l =>
      match collect f as with
      | some m => some (l ++ m)
      | none => none
    | none => none

/-- A search that remembers nothing, to a depth below `n`. -/
def visits : ℕ → α → Option (List α)
  | 0, _ => none
  | n + 1, a =>
    match collect (visits n) (next a) with
    | some l => some (a :: l)
    | none => none

/-- No two walks lead to the same place. -/
def Unshared (key : α → κ) (a : α) : Prop :=
  ∀ u v b c, follow next a u = some b → follow next a v = some c → key b = key c → u = v

variable {next} {key : α → κ} {a b c : α} {u v : List ℕ} {l : List α} {i n : ℕ}

/-! ### Walks -/

theorem follow_cons (h : (next a)[i]? = some b) : follow next a (i :: u) = follow next b u := by
  rw [follow, h]

theorem exists_of_follow_cons (h : follow next a (i :: u) = some c) :
    ∃ b, (next a)[i]? = some b ∧ follow next b u = some c := by
  rw [follow] at h
  split at h
  · rename_i b hb
    exact ⟨b, hb, h⟩
  · cases h

theorem follow_of_prefix (huv : u <+: v) (h : follow next a v = some c) :
    ∃ b, follow next a u = some b := by
  induction u generalizing a v with
  | nil => exact ⟨a, rfl⟩
  | cons i u ih =>
    obtain ⟨w, rfl⟩ := huv
    obtain ⟨b, hb, hrest⟩ := exists_of_follow_cons h
    obtain ⟨d, hd⟩ := ih (List.prefix_append u w) hrest
    exact ⟨d, (follow_cons hb).trans hd⟩

theorem Unshared.of_next (h : Unshared next key a) (hb : (next a)[i]? = some b) :
    Unshared next key b := by
  intro u v c d hu hv hkey
  exact (List.cons.inj (h (i :: u) (i :: v) c d ((follow_cons hb).trans hu)
    ((follow_cons hb).trans hv) hkey)).2

/-- A walk that shares nothing passes each place once. -/
theorem Unshared.length_lt [Fintype κ] (h : Unshared next key a) (hu : follow next a u = some b) :
    u.length < Fintype.card κ := by
  choose at_ hat using fun i : Fin (u.length + 1) =>
    follow_of_prefix (List.take_prefix i u) hu
  have hinj : Function.Injective fun i => key (at_ i) := by
    intro i j hij
    have htake := congrArg List.length (h _ _ _ _ (hat i) (hat j) hij)
    rw [List.length_take_of_le (Nat.le_of_lt_succ i.isLt),
      List.length_take_of_le (Nat.le_of_lt_succ j.isLt)] at htake
    exact Fin.ext htake
  have hcard := Fintype.card_le_of_injective _ hinj
  rw [Fintype.card_fin] at hcard
  exact hcard

/-! ### Collected results -/

theorem collect_cons_eq_some {f : α → Option (List β)} {as : List α} {m : List β} :
    collect f (a :: as) = some m ↔
      ∃ l l', f a = some l ∧ collect f as = some l' ∧ m = l ++ l' := by
  rw [collect]
  cases f a with
  | none => exact ⟨nofun, fun ⟨_, _, h, _⟩ => nomatch h⟩
  | some l =>
    cases collect f as with
    | none => exact ⟨nofun, fun ⟨_, _, _, h, _⟩ => nomatch h⟩
    | some l' =>
      constructor
      · rintro ⟨⟩
        exact ⟨l, l', rfl, rfl, rfl⟩
      · rintro ⟨_, _, ⟨⟩, ⟨⟩, rfl⟩
        rfl

/-- The results of the members lie in the whole one after another. -/
theorem collect_eq_some {f : α → Option (List β)} {as : List α} {m : List β} :
    collect f as = some m ↔ ∃ ls : List (List β), as.map f = ls.map some ∧ m = ls.flatten := by
  induction as generalizing m with
  | nil =>
    constructor
    · rintro ⟨⟩
      exact ⟨[], rfl, rfl⟩
    · rintro ⟨ls, hls, rfl⟩
      rw [List.map_eq_nil_iff.mp hls.symm]
      rfl
  | cons a as ih =>
    rw [collect_cons_eq_some]
    constructor
    · rintro ⟨l, l', hl, hl', rfl⟩
      obtain ⟨ls, hls, rfl⟩ := ih.mp hl'
      exact ⟨l :: ls, by rw [List.map_cons, List.map_cons, hl, hls], rfl⟩
    · rintro ⟨ls, hls, rfl⟩
      cases ls with
      | nil => cases hls
      | cons l ls =>
        obtain ⟨hl, hls⟩ := List.cons.inj hls
        exact ⟨l, ls.flatten, hl, ih.mpr ⟨ls, hls, rfl⟩, rfl⟩

/-! ### What a search visits -/

theorem visits_succ_eq_some : visits next (n + 1) a = some l ↔
    ∃ ls : List (List α), (next a).map (visits next n) = ls.map some ∧ l = a :: ls.flatten := by
  rw [visits]
  constructor
  · intro h
    split at h
    · rename_i m hm
      obtain ⟨ls, hls, rfl⟩ := collect_eq_some.mp hm
      exact ⟨ls, hls, (Option.some.inj h).symm⟩
    · cases h
  · rintro ⟨ls, hls, rfl⟩
    rw [collect_eq_some.mpr ⟨ls, hls, rfl⟩]

theorem visits_next {ls : List (List α)} (h : (next a).map (visits next n) = ls.map some)
    (hb : (next a)[i]? = some b) : ∃ m, ls[i]? = some m ∧ visits next n b = some m := by
  have hget := congrArg (·[i]?) h
  rw [List.getElem?_map, List.getElem?_map, hb] at hget
  cases hm : ls[i]? with
  | none =>
    rw [hm] at hget
    cases hget
  | some m =>
    rw [hm] at hget
    exact ⟨m, rfl, Option.some.inj hget⟩

theorem next_visits {ls : List (List α)} {m : List α}
    (h : (next a).map (visits next n) = ls.map some) (hm : ls[i]? = some m) :
    ∃ b, (next a)[i]? = some b ∧ visits next n b = some m := by
  have hget := congrArg (·[i]?) h
  rw [List.getElem?_map, List.getElem?_map, hm] at hget
  cases hb : (next a)[i]? with
  | none =>
    rw [hb] at hget
    cases hget
  | some b =>
    rw [hb] at hget
    exact ⟨b, rfl, Option.some.inj hget⟩

/-- In a list of lists without common members, a member tells the position. -/
theorem eq_of_pairwise_disjoint {ls : List (List κ)} (h : ls.Pairwise List.Disjoint) {j : ℕ}
    {m m' : List κ} {x : κ} (hm : ls[i]? = some m) (hm' : ls[j]? = some m') (hx : x ∈ m)
    (hx' : x ∈ m') : i = j := by
  obtain ⟨hi, rfl⟩ := List.getElem?_eq_some_iff.mp hm
  obtain ⟨hj, rfl⟩ := List.getElem?_eq_some_iff.mp hm'
  rcases Nat.lt_trichotomy i j with hlt | heq | hlt
  · exact absurd hx' (List.pairwise_iff_getElem.mp h i j hi hj hlt hx)
  · exact heq
  · exact absurd hx (List.pairwise_iff_getElem.mp h j i hj hi hlt hx')

/-- A search visits the ends of all walks. -/
theorem mem_of_visits (h : visits next n a = some l) : b ∈ l ↔ ∃ u, follow next a u = some b := by
  induction n generalizing a b l with
  | zero => cases h
  | succ n ih =>
    obtain ⟨ls, hls, rfl⟩ := visits_succ_eq_some.mp h
    rw [List.mem_cons, List.mem_flatten]
    constructor
    · rintro (rfl | ⟨m, hm, hb⟩)
      · exact ⟨[], rfl⟩
      · obtain ⟨i, hi⟩ := List.mem_iff_getElem?.mp hm
        obtain ⟨c, hc, hvisits⟩ := next_visits hls hi
        obtain ⟨u, hu⟩ := (ih hvisits).mp hb
        exact ⟨i :: u, (follow_cons hc).trans hu⟩
    · rintro ⟨u, hu⟩
      cases u with
      | nil => exact .inl (Option.some.inj hu).symm
      | cons i u =>
        obtain ⟨c, hc, hu⟩ := exists_of_follow_cons hu
        obtain ⟨m, hm, hvisits⟩ := visits_next hls hc
        exact .inr ⟨m, List.mem_of_getElem? hm, (ih hvisits).mpr ⟨u, hu⟩⟩

/-- Where nothing is visited twice, no two walks meet. -/
theorem unshared_of_nodup (h : visits next n a = some l) (hnodup : (l.map key).Nodup) :
    Unshared next key a := by
  induction n generalizing a l with
  | zero => cases h
  | succ n ih =>
    obtain ⟨ls, hls, rfl⟩ := visits_succ_eq_some.mp h
    rw [List.map_cons, List.nodup_cons, List.map_flatten] at hnodup
    obtain ⟨hhead, htail⟩ := hnodup
    obtain ⟨heach, hapart⟩ := List.nodup_flatten.mp htail
    have hbelow : ∀ {i u c}, follow next a (i :: u) = some c →
        ∃ m, ls[i]? = some m ∧ c ∈ m := by
      intro i u c hu
      obtain ⟨b, hb, hu⟩ := exists_of_follow_cons hu
      obtain ⟨m, hm, hvisits⟩ := visits_next hls hb
      exact ⟨m, hm, (mem_of_visits hvisits).mpr ⟨u, hu⟩⟩
    have hnever : ∀ {i u c}, follow next a (i :: u) = some c → key c ≠ key a := by
      intro i u c hu hkey
      obtain ⟨m, hm, hc⟩ := hbelow hu
      exact hhead (List.mem_flatten.mpr ⟨m.map key,
        List.mem_map_of_mem (List.mem_of_getElem? hm), hkey ▸ List.mem_map_of_mem hc⟩)
    intro u v c d hu hv hkey
    cases u with
    | nil =>
      cases v with
      | nil => rfl
      | cons j v =>
        obtain rfl := Option.some.inj hu
        exact absurd hkey.symm (hnever hv)
    | cons i u =>
      cases v with
      | nil =>
        obtain rfl := Option.some.inj hv
        exact absurd hkey (hnever hu)
      | cons j v =>
        obtain ⟨m, hm, hc⟩ := hbelow hu
        obtain ⟨m', hm', hd⟩ := hbelow hv
        -- the same branch, since no place is in two of them
        obtain rfl : i = j := by
          have hc' : key c ∈ m.map key := List.mem_map_of_mem hc
          have hd' : key c ∈ m'.map key := hkey ▸ List.mem_map_of_mem hd
          refine eq_of_pairwise_disjoint hapart ?_ ?_ hc' hd'
          · rw [List.getElem?_map, hm]
            rfl
          · rw [List.getElem?_map, hm']
            rfl
        obtain ⟨b, hb, hu⟩ := exists_of_follow_cons hu
        obtain ⟨b', hb', hv⟩ := exists_of_follow_cons hv
        obtain rfl := Option.some.inj (hb.symm.trans hb')
        obtain ⟨m₂, hm₂, hvisits⟩ := visits_next hls hb
        have hnodup := heach _ (List.mem_map_of_mem (List.mem_of_getElem? hm₂))
        rw [ih hvisits hnodup u v c d hu hv hkey]

/-- Where all walks are short, a search comes to an end. -/
theorem exists_visits (h : ∀ u b, follow next a u = some b → u.length < n) :
    ∃ l, visits next n a = some l := by
  induction n generalizing a with
  | zero => exact absurd (h [] a rfl) (Nat.not_lt_zero _)
  | succ n ih =>
    have hbranch : ∀ b ∈ next a, ∃ l, visits next n b = some l := by
      intro b hb
      obtain ⟨i, hi⟩ := List.mem_iff_getElem?.mp hb
      exact ih fun u c hu => Nat.lt_of_succ_lt_succ (h (i :: u) c ((follow_cons hi).trans hu))
    have hall : ∀ bs : List α, (∀ b ∈ bs, ∃ l, visits next n b = some l) →
        ∃ ls : List (List α), bs.map (visits next n) = ls.map some := by
      intro bs
      induction bs with
      | nil => exact fun _ => ⟨[], rfl⟩
      | cons b bs ihbs =>
        intro hb
        obtain ⟨l, hl⟩ := hb b List.mem_cons_self
        obtain ⟨ls, hls⟩ := ihbs fun c hc => hb c (List.mem_cons_of_mem _ hc)
        exact ⟨l :: ls, by rw [List.map_cons, List.map_cons, hl, hls]⟩
    obtain ⟨ls, hls⟩ := hall (next a) hbranch
    exact ⟨_, visits_succ_eq_some.mpr ⟨ls, hls, rfl⟩⟩

/-- Where no two walks meet, nothing is visited twice. -/
theorem Unshared.nodup (hu : Unshared next key a) (h : visits next n a = some l) :
    (l.map key).Nodup := by
  induction n generalizing a l with
  | zero => cases h
  | succ n ih =>
    obtain ⟨ls, hls, rfl⟩ := visits_succ_eq_some.mp h
    -- whatever is visited in a branch is at the end of a walk into that branch
    have hwalk : ∀ {i m c}, ls[i]? = some m → c ∈ m → ∃ u, follow next a (i :: u) = some c := by
      intro i m c hm hc
      obtain ⟨b, hb, hvisits⟩ := next_visits hls hm
      obtain ⟨u, hu⟩ := (mem_of_visits hvisits).mp hc
      exact ⟨u, (follow_cons hb).trans hu⟩
    rw [List.map_cons, List.nodup_cons, List.map_flatten, List.nodup_flatten]
    refine ⟨?_, ?_, ?_⟩
    · intro hmem
      obtain ⟨_, hm, hkey⟩ := List.mem_flatten.mp hmem
      obtain ⟨m, hmem, rfl⟩ := List.mem_map.mp hm
      obtain ⟨c, hc, hkey⟩ := List.mem_map.mp hkey
      obtain ⟨i, hi⟩ := List.mem_iff_getElem?.mp hmem
      obtain ⟨u, hfollow⟩ := hwalk hi hc
      cases hu [] (i :: u) a c rfl hfollow hkey.symm
    · intro _ hm
      obtain ⟨m, hmem, rfl⟩ := List.mem_map.mp hm
      obtain ⟨i, hi⟩ := List.mem_iff_getElem?.mp hmem
      obtain ⟨b, hb, hvisits⟩ := next_visits hls hi
      exact ih (hu.of_next hb) hvisits
    · rw [List.pairwise_map, List.pairwise_iff_getElem]
      intro i j hi hj hlt k hk hk'
      obtain ⟨c, hc, rfl⟩ := List.mem_map.mp hk
      obtain ⟨d, hd, hkey⟩ := List.mem_map.mp hk'
      obtain ⟨u, hc⟩ := hwalk (List.getElem?_eq_getElem hi) hc
      obtain ⟨v, hd⟩ := hwalk (List.getElem?_eq_getElem hj) hd
      exact Nat.ne_of_lt hlt (List.cons.inj (hu _ _ _ _ hc hd hkey.symm)).1

/-- In a finite graph, a search comes to an end and visits each place once if and only if no two
walks lead to the same place. -/
theorem visits_nodup_iff [Fintype κ] :
    (∃ n l, visits next n a = some l ∧ (l.map key).Nodup) ↔ Unshared next key a := by
  constructor
  · rintro ⟨n, l, h, hnodup⟩
    exact unshared_of_nodup h hnodup
  · intro h
    obtain ⟨l, hl⟩ := exists_visits fun u b hu => h.length_lt hu
    exact ⟨_, l, hl, h.nodup hl⟩

end Dueca.Lib
