import Dueca.Status.Combination
import Dueca.Status.Summary
import Mathlib.Data.List.Nodup

/-!
# The status tree is never stale

A node that is not dirty has the status that its children give. An update makes all nodes above
the leaf dirty, and asking for a status makes nodes clean with a status that has just been
calculated. An insertion makes no node dirty: a clean node above a new leaf keeps its status.
-/

namespace Dueca.Status

open Dueca.Lib

variable {N S V : Type}

namespace Summary

/-! ### What is below a node -/

mutual

/-- All nodes. -/
def nodes : Summary N S → List (Summary N S)
  | mk l st d bs => mk l st d bs :: nodesAll bs

def nodesAll : List (Summary N S) → List (Summary N S)
  | [] => []
  | b :: bs => nodes b ++ nodesAll bs

end

mutual

/-- Their ids. -/
def ids : Summary N S → List (ModuleId N)
  | mk l _ _ bs => l :: idsAll bs

def idsAll : List (Summary N S) → List (ModuleId N)
  | [] => []
  | b :: bs => ids b ++ idsAll bs

end

mutual

/-- The statuses given for the leaves. -/
def tree (g : ModuleId N → V) : Summary N S → Lib.Tree V
  | mk l _ _ bs =>
    match bs with
    | [] => .leaf (g l)
    | b :: bs => .node (tree g b :: treeAll g bs)

def treeAll (g : ModuleId N → V) : List (Summary N S) → List (Lib.Tree V)
  | [] => []
  | b :: bs => tree g b :: treeAll g bs

end

/-- A leaf below as many inner nodes. -/
def chainTree (v : V) : ℕ → Lib.Tree V
  | 0 => .leaf v
  | n + 1 => .node [chainTree v n]

variable [DecidableEq N]

mutual

/-- The statuses given for the leaves, and that of a further one, in the first branch to which its
id belongs. -/
def treeWith (g : ModuleId N → V) (id : ModuleId N) (v : V) : Summary N S → Lib.Tree V
  | mk l _ _ bs => .node (treeWithAll g id v (id.length - (l.length + 1)) bs)

def treeWithAll (g : ModuleId N → V) (id : ModuleId N) (v : V) (n : ℕ) :
    List (Summary N S) → List (Lib.Tree V)
  | [] => [chainTree v n]
  | b :: bs =>
    if isMeOrDescendant b.linkId id then treeWith g id v b :: treeAll g bs
    else tree g b :: treeWithAll g id v n bs

end

/-- The id of a child has one part more, and no two children have the same. -/
inductive WellFormed : Summary N S → Prop
  | mk {l st d bs} (parts : ∀ b ∈ bs, ∃ x, b.linkId = l ++ [x]) (nodup : (bs.map linkId).Nodup)
      (branches : ∀ b ∈ bs, WellFormed b) : WellFormed (mk l st d bs)

/-- A leaf has the status given for its id, and a clean inner node the combination of those below
it. -/
inductive Kept (combine : S → S → S) (clear : S) (g : ModuleId N → S) : Summary N S → Prop
  | mk {l st d bs} (leaf : bs = [] → st = g l)
      (clean : bs ≠ [] → d = false → st = ((mk l st d bs).tree g).combined combine clear)
      (branches : ∀ b ∈ bs, Kept combine clear g b) : Kept combine clear g (mk l st d bs)

end Summary

/-! ### A tree as it ought to be -/

section Claim

variable [DecidableEq N] (combine : S → S → S) (clear : S)

/-- Every node gives its status, and every inserted id is in the tree once. -/
structure NeverStale (k : Keeping N S) : Prop where
  fresh : ∀ node ∈ k.root.nodes,
    (node.getOrCalculateStatus combine clear).1 = (node.tree k.given).combined combine clear
  found : ∀ id ∈ k.inserted, (∃ node, k.root.findSummary id = some node ∧ node.linkId = id) ∧
    k.root.existsSummary id = true ∧ k.root.ids.count id = 1

/-- A leaf is not inserted again with another status, and a new leaf does not change the combination
of a clean node above it. -/
def CarefulCall (k : Keeping N S) : StatusOp N S → Prop
  | .insertLinkAndStatus id status =>
    (∀ node ∈ k.root.nodes, node.linkId = id → node.branches = [] → status = k.given id) ∧
      (id ∉ k.root.ids → ∀ node ∈ k.root.nodes, isMeOrDescendant node.linkId id = true →
        node.dirty = false → (node.treeWith k.given id status).combined combine clear =
          (node.tree k.given).combined combine clear)
  | .updateStatus _ _ | .getOrCalculateStatus _ => True

end Claim

/-! ### Ids -/

section Ids

variable [DecidableEq N] {me o id : ModuleId N}

theorem isMeOrDescendant_iff : isMeOrDescendant me o = true ↔ me <+: o :=
  List.isPrefixOf_iff_prefix

theorem isMe_iff : isMe me o = true ↔ o = me := by
  rw [isMe, Bool.and_eq_true, decide_eq_true_eq, isMeOrDescendant_iff]
  constructor
  · rintro ⟨hlen, hpre⟩
    exact (hpre.eq_of_length hlen.symm).symm
  · rintro rfl
    exact ⟨rfl, List.prefix_rfl⟩

end Ids

namespace Summary

/-! ### Trees of the same shape -/

mutual

/-- The ids alone. -/
def skeleton : Summary N S → Summary N Unit
  | mk l _ _ bs => mk l () false (skeletonAll bs)

def skeletonAll : List (Summary N S) → List (Summary N Unit)
  | [] => []
  | b :: bs => skeleton b :: skeletonAll bs

end

variable {t t' b node : Summary N S} {bs bs' : List (Summary N S)} {l id : ModuleId N} {s st : S}
  {d : Bool}

theorem skeletonAll_eq : skeletonAll bs = bs.map skeleton := by
  induction bs with
  | nil => rfl
  | cons b bs ih => rw [skeletonAll, ih, List.map_cons]

theorem linkId_skeleton (t : Summary N S) : t.skeleton.linkId = t.linkId := by
  cases t
  rfl

theorem tree_skeleton (g : ModuleId N → V) (t : Summary N S) : t.skeleton.tree g = t.tree g := by
  induction t using Summary.induction with
  | mk l st d bs ih =>
    have hall : ∀ bs : List (Summary N S), (∀ b ∈ bs, b.skeleton.tree g = b.tree g) →
        treeAll g (skeletonAll bs) = treeAll g bs := by
      intro bs ih
      induction bs with
      | nil => rfl
      | cons b bs ihbs =>
        rw [skeletonAll, treeAll, treeAll, ih b List.mem_cons_self,
          ihbs fun c hc => ih c (List.mem_cons_of_mem _ hc)]
    cases bs with
    | nil => rfl
    | cons b bs =>
      rw [skeleton, skeletonAll, tree, tree, ih b List.mem_cons_self,
        hall bs fun c hc => ih c (List.mem_cons_of_mem _ hc)]

theorem ids_skeleton (t : Summary N S) : t.skeleton.ids = t.ids := by
  induction t using Summary.induction with
  | mk l st d bs ih =>
    rw [skeleton, ids, ids]
    congr 1
    induction bs with
    | nil => rfl
    | cons b bs ihbs =>
      rw [skeletonAll, idsAll, idsAll, ih b List.mem_cons_self,
        ihbs fun c hc => ih c (List.mem_cons_of_mem _ hc)]

theorem wellFormed_skeleton : t.skeleton.WellFormed ↔ t.WellFormed := by
  induction t using Summary.induction with
  | mk l st d bs ih =>
    have hlinks : (bs.map skeleton).map linkId = bs.map linkId := by
      rw [List.map_map]
      exact List.map_congr_left fun b _ => linkId_skeleton b
    rw [skeleton, skeletonAll_eq]
    constructor
    · rintro ⟨hparts, hnodup, hbranches⟩
      refine ⟨fun b hb => ?_, hlinks ▸ hnodup, fun b hb => ?_⟩
      · exact linkId_skeleton b ▸ hparts _ (List.mem_map_of_mem hb)
      · exact (ih b hb).mp (hbranches _ (List.mem_map_of_mem hb))
    · rintro ⟨hparts, hnodup, hbranches⟩
      refine ⟨?_, hlinks.symm ▸ hnodup, ?_⟩
      · rintro _ hc
        obtain ⟨b, hb, rfl⟩ := List.mem_map.mp hc
        exact (linkId_skeleton b).symm ▸ hparts b hb
      · rintro _ hc
        obtain ⟨b, hb, rfl⟩ := List.mem_map.mp hc
        exact (ih b hb).mpr (hbranches b hb)

theorem WellFormed.congr (h : t.WellFormed) (hshape : t'.skeleton = t.skeleton) :
    t'.WellFormed := wellFormed_skeleton.mp (hshape ▸ wellFormed_skeleton.mpr h)

theorem tree_congr (g : ModuleId N → V) (hshape : t'.skeleton = t.skeleton) :
    t'.tree g = t.tree g := by
  rw [← tree_skeleton, hshape, tree_skeleton]

theorem ids_congr (hshape : t'.skeleton = t.skeleton) : t'.ids = t.ids := by
  rw [← ids_skeleton, hshape, ids_skeleton]

/-! ### What the nodes have -/

theorem linkId_mem_ids (t : Summary N S) : t.linkId ∈ t.ids := by
  cases t
  exact List.mem_cons_self

theorem mem_idsAll : id ∈ idsAll bs ↔ ∃ b ∈ bs, id ∈ b.ids := by
  induction bs with
  | nil => exact ⟨nofun, fun ⟨_, h, _⟩ => nomatch h⟩
  | cons b bs ih => rw [idsAll, List.mem_append, ih, List.exists_mem_cons_iff]

theorem mem_nodesAll : node ∈ nodesAll bs ↔ ∃ b ∈ bs, node ∈ b.nodes := by
  induction bs with
  | nil => exact ⟨nofun, fun ⟨_, h, _⟩ => nomatch h⟩
  | cons b bs ih => rw [nodesAll, List.mem_append, ih, List.exists_mem_cons_iff]

theorem mem_nodes : node ∈ (mk l st d bs).nodes ↔
    node = mk l st d bs ∨ ∃ b ∈ bs, node ∈ b.nodes := by
  rw [nodes, List.mem_cons, mem_nodesAll]

theorem mem_ids : id ∈ (mk l st d bs).ids ↔ id = l ∨ ∃ b ∈ bs, id ∈ b.ids := by
  rw [ids, List.mem_cons, mem_idsAll]

/-- Ids below a node start with that of the node. -/
theorem WellFormed.prefix_of_mem (h : t.WellFormed) (hid : id ∈ t.ids) : t.linkId <+: id := by
  induction h with
  | @mk l st d bs hparts _ _ ih =>
    rcases mem_ids.mp hid with rfl | ⟨b, hb, hid⟩
    · exact List.prefix_rfl
    · obtain ⟨x, hx⟩ := hparts b hb
      have hpre := ih b hb hid
      rw [hx] at hpre
      exact (List.prefix_append l [x]).trans hpre

/-- An id belongs to one branch at most. -/
theorem WellFormed.eq_of_prefix (h : (Summary.mk l st d bs).WellFormed) {c : Summary N S}
    (hb : b ∈ bs) (hc : c ∈ bs) (hbid : b.linkId <+: id) (hcid : c.linkId <+: id) : b = c := by
  cases h with
  | mk hparts hnodup _ =>
    obtain ⟨x, hx⟩ := hparts b hb
    obtain ⟨y, hy⟩ := hparts c hc
    have hlen : b.linkId.length = c.linkId.length := by
      rw [hx, hy, List.length_append, List.length_append, List.length_singleton,
        List.length_singleton]
    exact List.inj_on_of_nodup_map hnodup hb hc
      ((List.prefix_of_prefix_length_le hbid hcid (Nat.le_of_eq hlen)).eq_of_length hlen)

theorem idsAll_eq : idsAll bs = bs.flatMap ids := by
  induction bs with
  | nil => rfl
  | cons b bs ih => rw [idsAll, ih, List.flatMap_cons]

theorem WellFormed.not_mem_branch (h : (Summary.mk l st d bs).WellFormed) (hb : b ∈ bs) :
    l ∉ b.ids := by
  intro hl
  cases h with
  | mk hparts _ hbranches =>
    obtain ⟨x, hx⟩ := hparts b hb
    have hlen := ((hbranches b hb).prefix_of_mem hl).length_le
    rw [hx, List.length_append, List.length_singleton] at hlen
    omega

/-- No id occurs twice. -/
theorem WellFormed.nodup_ids (h : t.WellFormed) : t.ids.Nodup := by
  induction h with
  | @mk l st d bs hparts hnodup hbranches ih =>
    have hwf : (Summary.mk l st d bs).WellFormed := .mk hparts hnodup hbranches
    rw [ids, List.nodup_cons, idsAll_eq, List.nodup_flatMap]
    refine ⟨?_, ih, ?_⟩
    · intro hl
      obtain ⟨b, hb, hl⟩ := List.mem_flatMap.mp hl
      exact hwf.not_mem_branch hb hl
    · refine (List.pairwise_map.mp hnodup).imp_of_mem fun {b c} hb hc hne id hbid hcid => ?_
      exact hne (congrArg linkId (hwf.eq_of_prefix hb hc
        ((hbranches b hb).prefix_of_mem hbid) ((hbranches c hc).prefix_of_mem hcid)))

/-! ### Finding a node -/

section Find

variable [DecidableEq N]

theorem findInBranches_eq (hb : b ∈ bs) (hpre : b.linkId <+: id)
    (hunique : ∀ c ∈ bs, c.linkId <+: id → c = b) :
    findInBranches id bs = findSummary id b ∧ existsInBranches id bs = existsSummary id b := by
  induction bs with
  | nil => cases hb
  | cons c bs ih =>
    by_cases hc : c.linkId <+: id
    · obtain rfl := hunique c List.mem_cons_self hc
      rw [findInBranches, existsInBranches, if_pos (isMeOrDescendant_iff.mpr hc),
        if_pos (isMeOrDescendant_iff.mpr hc)]
      exact ⟨rfl, rfl⟩
    · have hne : b ≠ c := by
        rintro rfl
        exact hc hpre
      rw [findInBranches, existsInBranches, if_neg (isMeOrDescendant_iff.not.mpr hc),
        if_neg (isMeOrDescendant_iff.not.mpr hc)]
      exact ih ((List.mem_cons.mp hb).resolve_left hne)
        fun e he => hunique e (List.mem_cons_of_mem _ he)

/-- Every id in the tree is found. -/
theorem WellFormed.find_of_mem (h : t.WellFormed) (hid : id ∈ t.ids) :
    (∃ node, t.findSummary id = some node ∧ node.linkId = id) ∧ t.existsSummary id = true := by
  induction h with
  | @mk l st d bs hparts hnodup hbranches ih =>
    have hwf : (Summary.mk l st d bs).WellFormed := .mk hparts hnodup hbranches
    rw [findSummary, existsSummary]
    by_cases hme : id = l
    · rw [if_pos (isMe_iff.mpr hme), if_pos (isMe_iff.mpr hme)]
      exact ⟨⟨_, rfl, hme.symm⟩, rfl⟩
    · obtain ⟨b, hb, hbid⟩ := (mem_ids.mp hid).resolve_left hme
      have hpre := (hbranches b hb).prefix_of_mem hbid
      have hbelow : bs ≠ [] ∧ isMeOrDescendant l id = true :=
        ⟨List.ne_nil_of_mem hb, isMeOrDescendant_iff.mpr (hwf.prefix_of_mem hid)⟩
      obtain ⟨hfind, hexists⟩ := findInBranches_eq hb hpre
        fun c hc hcid => hwf.eq_of_prefix hc hb hcid hpre
      rw [if_neg (isMe_iff.not.mpr hme), if_neg (isMe_iff.not.mpr hme), if_pos hbelow,
        if_pos hbelow, hfind, hexists]
      exact ih b hb hbid

end Find

/-! ### Asking for the status -/

variable {combine : S → S → S} {clear acc : S} {g g' : ModuleId N → S}

theorem tree_of_ne_nil (g : ModuleId N → V) (h : bs ≠ []) :
    (mk l st d bs).tree g = .node (treeAll g bs) := by
  cases bs with
  | nil => exact absurd rfl h
  | cons b bs => rfl

/-- A kept status, or one that is calculated: in any case it is the combination of those below, and
the tree is kept as it is. -/
theorem Kept.calculated (h : Kept combine clear g t) :
    (t.getOrCalculateStatus combine clear).1 = (t.tree g).combined combine clear ∧
      Kept combine clear g (t.getOrCalculateStatus combine clear).2 ∧
        (t.getOrCalculateStatus combine clear).2.skeleton = t.skeleton := by
  induction h with
  | @mk l st d bs hleaf hclean hbranches ih =>
    -- all branches, from any status on
    have hall : ∀ (bs : List (Summary N S)) acc,
        (∀ b ∈ bs, (b.getOrCalculateStatus combine clear).1 = (b.tree g).combined combine clear ∧
          Kept combine clear g (b.getOrCalculateStatus combine clear).2 ∧
            (b.getOrCalculateStatus combine clear).2.skeleton = b.skeleton) →
        (getOrCalculateAll combine clear acc bs).1 =
            Tree.combinedFrom combine clear acc (treeAll g bs) ∧
          (∀ b ∈ (getOrCalculateAll combine clear acc bs).2, Kept combine clear g b) ∧
            skeletonAll (getOrCalculateAll combine clear acc bs).2 = skeletonAll bs := by
      intro bs
      induction bs with
      | nil => exact fun acc _ => ⟨rfl, nofun, rfl⟩
      | cons b bs ihbs =>
        intro acc hb
        obtain ⟨hst, hkept, hshape⟩ := hb b List.mem_cons_self
        obtain ⟨hsts, hkepts, hshapes⟩ := ihbs
          (combine acc (b.getOrCalculateStatus combine clear).1)
          fun c hc => hb c (List.mem_cons_of_mem _ hc)
        refine ⟨?_, ?_, ?_⟩
        · rw [treeAll, Tree.combinedFrom, ← hst]
          exact hsts
        · exact List.forall_mem_cons.mpr ⟨hkept, hkepts⟩
        · rw [getOrCalculateAll, skeletonAll, skeletonAll, hshape, hshapes]
    by_cases hcalc : d = true ∧ bs ≠ []
    · obtain ⟨hst, hkept, hshape⟩ := hall bs clear ih
      have hsame : (Summary.mk l (getOrCalculateAll combine clear clear bs).1 false
          (getOrCalculateAll combine clear clear bs).2).skeleton =
            (Summary.mk l st d bs).skeleton := by
        rw [skeleton, skeleton, hshape]
      have htree : (getOrCalculateAll combine clear clear bs).1 =
          ((Summary.mk l st d bs).tree g).combined combine clear := by
        rw [tree_of_ne_nil g hcalc.2]
        exact hst
      rw [getOrCalculateStatus, if_pos hcalc]
      refine ⟨htree, .mk (fun hnil => ?_) (fun _ _ => ?_) hkept, hsame⟩
      · have hlen := congrArg List.length hshape
        rw [hnil, skeletonAll_eq, skeletonAll_eq, List.length_map, List.length_map] at hlen
        exact absurd (List.length_eq_zero_iff.mp hlen.symm) hcalc.2
      · exact htree.trans (congrArg _ (tree_congr g hsame).symm)
    · rw [getOrCalculateStatus, if_neg hcalc]
      have htree : st = ((Summary.mk l st d bs).tree g).combined combine clear := by
        by_cases hnil : bs = []
        · subst hnil
          exact hleaf rfl
        · exact hclean hnil (Bool.eq_false_iff.mpr fun hd => hcalc ⟨hd, hnil⟩)
      exact ⟨htree, .mk hleaf (fun _ _ => htree.trans (congrArg _ (tree_congr g rfl))) hbranches,
        rfl⟩

theorem Kept.of_mem_nodes (h : Kept combine clear g t) (hnode : node ∈ t.nodes) :
    Kept combine clear g node := by
  induction h with
  | mk hleaf hclean hbranches ih =>
    rcases mem_nodes.mp hnode with rfl | ⟨b, hb, hnode⟩
    · exact .mk hleaf hclean hbranches
    · exact ih b hb hnode

/-! ### Another node in a place -/

theorem skeleton_eq_iff {l' : ModuleId N} {st' : S} {d' : Bool} :
    (mk l' st' d' bs').skeleton = (mk l st d bs).skeleton ↔
      l' = l ∧ bs'.map skeleton = bs.map skeleton := by
  rw [skeleton, skeleton, skeletonAll_eq, skeletonAll_eq]
  simp only [Summary.mk.injEq, true_and]

/-- A node whose branches have been replaced by others of the same shape. -/
theorem Kept.branches_replaced (h : Kept combine clear g (.mk l st d bs))
    (hkept : ∀ b ∈ bs', Kept combine clear g b) (hshape : bs'.map skeleton = bs.map skeleton) :
    Kept combine clear g (.mk l st d bs') := by
  cases h with
  | mk hleaf hclean _ =>
    have hnil : bs' = [] ↔ bs = [] := by
      rw [← List.map_eq_nil_iff, hshape, List.map_eq_nil_iff]
    refine .mk (fun hbs => hleaf (hnil.mp hbs)) (fun hbs hd => ?_) hkept
    rw [tree_congr g (skeleton_eq_iff.mpr ⟨rfl, hshape⟩)]
    exact hclean (hnil.not.mp hbs) hd

section Replace

variable [DecidableEq N]

/-- The node that is found may be replaced by one of the same shape. -/
theorem Kept.replaced (h : Kept combine clear g t) {node' : Summary N S}
    (hfind : t.findSummary id = some node)
    (hnode : Kept combine clear g node →
      Kept combine clear g node' ∧ node'.skeleton = node.skeleton) :
    Kept combine clear g (replace id node' t) ∧ (replace id node' t).skeleton = t.skeleton := by
  induction h with
  | @mk l st d bs hleaf hclean hbranches ih =>
    have hwhole : Kept combine clear g (.mk l st d bs) := .mk hleaf hclean hbranches
    rw [findSummary] at hfind
    rw [replace]
    split_ifs at hfind ⊢ with hme hbelow
    · obtain rfl := Option.some.inj hfind
      exact hnode hwhole
    · have hall : ∀ bs : List (Summary N S), findInBranches id bs = some node →
          (∀ b ∈ bs, Kept combine clear g b) →
          (∀ b ∈ bs, b.findSummary id = some node → Kept combine clear g (replace id node' b) ∧
            (replace id node' b).skeleton = b.skeleton) →
          (∀ b ∈ replaceInBranches id node' bs, Kept combine clear g b) ∧
            (replaceInBranches id node' bs).map skeleton = bs.map skeleton := by
        intro bs
        induction bs with
        | nil => exact fun h => nomatch h
        | cons b bs ihbs =>
          intro hfind hold hnew
          rw [findInBranches] at hfind
          rw [replaceInBranches]
          split_ifs at hfind ⊢ with hpre
          · obtain ⟨hk, hs⟩ := hnew b List.mem_cons_self hfind
            refine ⟨List.forall_mem_cons.mpr
              ⟨hk, fun c hc => hold c (List.mem_cons_of_mem _ hc)⟩, ?_⟩
            rw [List.map_cons, List.map_cons, hs]
          · obtain ⟨hk, hs⟩ := ihbs hfind (fun c hc => hold c (List.mem_cons_of_mem _ hc))
              fun c hc => hnew c (List.mem_cons_of_mem _ hc)
            refine ⟨List.forall_mem_cons.mpr ⟨hold b List.mem_cons_self, hk⟩, ?_⟩
            rw [List.map_cons, List.map_cons, hs]
      obtain ⟨hk, hs⟩ := hall bs hfind hbranches ih
      exact ⟨hwhole.branches_replaced hk hs, skeleton_eq_iff.mpr ⟨rfl, hs⟩⟩

end Replace

/-! ### Given statuses -/

theorem linkId_mem_ids_of_mem (h : node ∈ t.nodes) : node.linkId ∈ t.ids := by
  induction t using Summary.induction with
  | mk l st d bs ih =>
    rcases mem_nodes.mp h with rfl | ⟨b, hb, hnode⟩
    · exact linkId_mem_ids _
    · exact mem_ids.mpr (.inr ⟨b, hb, ih b hb hnode⟩)

section Given

variable {v : S}

/-- The status is given again to a leaf, or to no leaf. -/
def GivenAgain (g : ModuleId N → S) (id : ModuleId N) (v : S) (t : Summary N S) : Prop :=
  ∀ node ∈ t.nodes, node.linkId = id → node.branches = [] → v = g id

theorem givenAgain_of_not_mem (h : id ∉ t.ids) : GivenAgain g id v t := by
  rintro node hnode rfl
  exact absurd (linkId_mem_ids_of_mem hnode) h

theorem GivenAgain.branch (h : GivenAgain g id v (.mk l st d bs)) (hb : b ∈ bs) :
    GivenAgain g id v b :=
  fun node hnode => h node (mem_nodes.mpr (.inr ⟨b, hb, hnode⟩))

/-- No id belongs to two branches. -/
theorem WellFormed.apart (h : (Summary.mk l st d bs).WellFormed) (id : ModuleId N) :
    bs.Pairwise fun b c => b.linkId <+: id → ¬ c.linkId <+: id := by
  cases h with
  | mk hparts hnodup hbranches =>
    refine (List.pairwise_map.mp hnodup).imp_of_mem fun {b c} hb hc hne hbid hcid => ?_
    have hwf : (Summary.mk l st d bs).WellFormed := .mk hparts hnodup hbranches
    exact hne (congrArg linkId (hwf.eq_of_prefix hb hc hbid hcid))

variable [DecidableEq N]

theorem tree_update (h : GivenAgain g id v t) :
    t.tree (Function.update g id v) = t.tree g := by
  induction t using Summary.induction with
  | mk l st d bs ih =>
    have hall : ∀ bs : List (Summary N S),
        (∀ b ∈ bs, b.tree (Function.update g id v) = b.tree g) →
          treeAll (Function.update g id v) bs = treeAll g bs := by
      intro bs hbs
      induction bs with
      | nil => rfl
      | cons b bs ihbs =>
        rw [treeAll, treeAll, hbs b List.mem_cons_self,
          ihbs fun c hc => hbs c (List.mem_cons_of_mem _ hc)]
    by_cases hnil : bs = []
    · subst hnil
      rw [tree, tree]
      congr 1
      by_cases hl : l = id
      · subst hl
        rw [Function.update_self]
        exact h _ (mem_nodes.mpr (.inl rfl)) rfl rfl
      · exact Function.update_of_ne hl _ _
    · rw [tree_of_ne_nil _ hnil, tree_of_ne_nil _ hnil, hall bs fun b hb => ih b hb (h.branch hb)]

theorem Kept.given_again (h : Kept combine clear g t) (hagain : GivenAgain g id v t) :
    Kept combine clear (Function.update g id v) t := by
  induction h with
  | @mk l st d bs hleaf hclean hbranches ih =>
    refine .mk (fun hnil => ?_) (fun hbs hd => ?_) fun b hb => ih b hb (hagain.branch hb)
    · by_cases hl : l = id
      · subst hl
        rw [Function.update_self, hleaf hnil]
        exact (hagain _ (mem_nodes.mpr (.inl rfl)) rfl hnil).symm
      · rw [Function.update_of_ne hl]
        exact hleaf hnil
    · rw [tree_update hagain]
      exact hclean hbs hd

/-! ### Updates -/

section Update

variable [DecidableEq S] {newstatus : S} {changed : Bool}

theorem prefix_of_updateStatus (h : t.updateStatus id newstatus = some (changed, t')) :
    t.linkId <+: id := by
  cases t with
  | mk l st d bs =>
    rw [updateStatus] at h
    split_ifs at h with hme hsame hbelow
    · exact (isMe_iff.mp hme) ▸ List.prefix_rfl
    · exact (isMe_iff.mp hme) ▸ List.prefix_rfl
    · exact isMeOrDescendant_iff.mp hbelow.2

theorem prefix_of_updateBranches (h : updateBranches id newstatus bs = some (changed, bs')) :
    ∃ b ∈ bs, b.linkId <+: id := by
  induction bs generalizing changed bs' with
  | nil => cases h
  | cons b bs ih =>
    rw [updateBranches] at h
    split at h
    · rename_i hb
      exact ⟨b, List.mem_cons_self, prefix_of_updateStatus hb⟩
    · split at h
      · rename_i hbs
        obtain ⟨c, hc, hcid⟩ := ih hbs
        exact ⟨c, List.mem_cons_of_mem _ hc, hcid⟩
      · cases h

/-- An update keeps the shape, and a node that is not made dirty has the status that it had. -/
theorem Kept.updated (h : Kept combine clear g t) (hwf : t.WellFormed)
    (hup : t.updateStatus id newstatus = some (changed, t')) :
    Kept combine clear (Function.update g id newstatus) t' ∧ t'.skeleton = t.skeleton ∧
      (changed = false → GivenAgain g id newstatus t) := by
  induction h generalizing changed t' with
  | @mk l st d bs hleaf hclean hbranches ih =>
    have hwhole : Kept combine clear g (.mk l st d bs) := .mk hleaf hclean hbranches
    rw [updateStatus] at hup
    split_ifs at hup with hme hsame hbelow
    · -- the same status again
      obtain rfl := isMe_iff.mp hme
      cases hup
      have hagain : GivenAgain g id newstatus (.mk id st d bs) := by
        intro node hnode hlink hnil
        rcases mem_nodes.mp hnode with rfl | ⟨b, hb, hnode⟩
        · exact hsame.symm.trans (hleaf hnil)
        · exact absurd (hlink ▸ linkId_mem_ids_of_mem hnode) (hwf.not_mem_branch hb)
      exact ⟨hwhole.given_again hagain, rfl, fun _ => hagain⟩
    · obtain rfl := isMe_iff.mp hme
      cases hup
      refine ⟨.mk (fun _ => (Function.update_self id newstatus g).symm)
        (fun _ hd => nomatch hd) ?_, rfl, nofun⟩
      exact fun b hb => (hbranches b hb).given_again
        (givenAgain_of_not_mem (hwf.not_mem_branch hb))
    · have hne : l ≠ id := fun hl => hme (isMe_iff.mpr hl.symm)
      -- the branches: the one that is found changes, and the id is in no other one
      have hall : ∀ (bs bs' : List (Summary N S)),
          bs.Pairwise (fun b c => b.linkId <+: id → ¬ c.linkId <+: id) →
          (∀ b ∈ bs, b.WellFormed) → (∀ b ∈ bs, Kept combine clear g b) →
          (∀ b ∈ bs, ∀ changed b', b.WellFormed →
            b.updateStatus id newstatus = some (changed, b') →
            Kept combine clear (Function.update g id newstatus) b' ∧ b'.skeleton = b.skeleton ∧
              (changed = false → GivenAgain g id newstatus b)) →
          updateBranches id newstatus bs = some (changed, bs') →
          (∀ b ∈ bs', Kept combine clear (Function.update g id newstatus) b) ∧
            bs'.map skeleton = bs.map skeleton ∧
              (changed = false → ∀ b ∈ bs, GivenAgain g id newstatus b) := by
        intro bs
        induction bs with
        | nil => exact fun _ _ _ _ _ h => nomatch h
        | cons b bs ihbs =>
          intro bs' hapart hwfs hkepts hnew hup
          obtain ⟨hfirst, hrest⟩ := List.pairwise_cons.mp hapart
          have hagain : ∀ {c}, c.WellFormed → ¬ c.linkId <+: id → GivenAgain g id newstatus c :=
            fun hc hcid => givenAgain_of_not_mem fun hmem => hcid (hc.prefix_of_mem hmem)
          rw [updateBranches] at hup
          split at hup
          · rename_i changed' b' hb
            cases hup
            obtain ⟨hk, hs, hc⟩ := hnew b List.mem_cons_self _ _ (hwfs b List.mem_cons_self) hb
            have hothers : ∀ c ∈ bs, GivenAgain g id newstatus c := fun c hc =>
              hagain (hwfs c (List.mem_cons_of_mem _ hc)) (hfirst c hc (prefix_of_updateStatus hb))
            refine ⟨List.forall_mem_cons.mpr ⟨hk, fun c hc => ?_⟩, ?_, fun hchanged => ?_⟩
            · exact (hkepts c (List.mem_cons_of_mem _ hc)).given_again (hothers c hc)
            · rw [List.map_cons, List.map_cons, hs]
            · exact List.forall_mem_cons.mpr ⟨hc hchanged, hothers⟩
          · split at hup
            · rename_i changed' bs'' hbs
              cases hup
              obtain ⟨hk, hs, hc⟩ := ihbs _ hrest (fun c hc => hwfs c (List.mem_cons_of_mem _ hc))
                (fun c hc => hkepts c (List.mem_cons_of_mem _ hc))
                (fun c hc => hnew c (List.mem_cons_of_mem _ hc)) hbs
              obtain ⟨c, hcmem, hcid⟩ := prefix_of_updateBranches hbs
              have hb : GivenAgain g id newstatus b :=
                hagain (hwfs b List.mem_cons_self) fun hbid => hfirst c hcmem hbid hcid
              refine ⟨List.forall_mem_cons.mpr ⟨?_, hk⟩, ?_, fun hchanged => ?_⟩
              · exact (hkepts b List.mem_cons_self).given_again hb
              · rw [List.map_cons, List.map_cons, hs]
              · exact List.forall_mem_cons.mpr ⟨hb, hc hchanged⟩
            · cases hup
      split at hup
      · rename_i changed' bs' hbs
        cases hup
        have hapart := hwf.apart id
        cases hwf with
        | mk _ _ hwfs =>
          obtain ⟨hk, hs, hc⟩ := hall bs bs' hapart hwfs hbranches
            (fun b hb _ _ hbwf => ih b hb hbwf) hbs
          have hagain : changed = false → GivenAgain g id newstatus (.mk l st d bs) := by
            intro hchanged node hnode hlink
            rcases mem_nodes.mp hnode with rfl | ⟨b, hb, hnode⟩
            · exact absurd hlink hne
            · exact hc hchanged b hb node hnode hlink
          refine ⟨.mk (fun hnil => ?_) (fun _ hd => ?_) hk, skeleton_eq_iff.mpr ⟨rfl, hs⟩, hagain⟩
          · rw [hnil, List.map_nil] at hs
            exact absurd (List.map_eq_nil_iff.mp hs.symm) hbelow.1
          · obtain ⟨hd, hchanged⟩ := Bool.or_eq_false_iff.mp hd
            rw [tree_congr _ (skeleton_eq_iff.mpr ⟨rfl, hs⟩), tree_update (hagain hchanged)]
            exact hclean hbelow.1 hd
      · cases hup

end Update

/-! ### Insertions -/

theorem insertLinkAndStatus_eq_none : t.insertLinkAndStatus id v = none ↔ ¬ t.linkId <+: id := by
  cases t with
  | mk l st d bs =>
    rw [insertLinkAndStatus, ← isMeOrDescendant_iff]
    split_ifs with hpre hme
    · simp only [linkId, hpre, Bool.false_eq_true, not_false_eq_true]
    · simp only [linkId, hpre, not_true_eq_false]
    · simp only [linkId, hpre, not_true_eq_false, iff_false]
      split <;> nofun

/-- An id that is there is not inserted again. -/
theorem WellFormed.insert_of_mem (h : t.WellFormed) (hid : id ∈ t.ids) :
    t.insertLinkAndStatus id v = some t := by
  induction h with
  | @mk l st d bs hparts hnodup hbranches ih =>
    have hwf : (Summary.mk l st d bs).WellFormed := .mk hparts hnodup hbranches
    have hpre : isMeOrDescendant l id = true :=
      isMeOrDescendant_iff.mpr (hwf.prefix_of_mem hid)
    rw [insertLinkAndStatus, if_neg (by rw [hpre]; decide)]
    by_cases hme : id = l
    · rw [if_pos (isMe_iff.mpr hme)]
    · rw [if_neg (isMe_iff.not.mpr hme)]
      obtain ⟨b, hb, hbid⟩ := (mem_ids.mp hid).resolve_left hme
      have hall : ∀ bs : List (Summary N S), bs.Pairwise (fun b c => b.linkId <+: id →
          ¬ c.linkId <+: id) → b ∈ bs → insertInBranches id v bs = some bs := by
        intro bs hapart hmem
        induction bs with
        | nil => cases hmem
        | cons c bs ihbs =>
          obtain ⟨hfirst, hrest⟩ := List.pairwise_cons.mp hapart
          rw [insertInBranches]
          by_cases hcb : b = c
          · rw [← hcb, ih b hb hbid]
          · have hmem := (List.mem_cons.mp hmem).resolve_left hcb
            have hnone : c.insertLinkAndStatus id v = none :=
              insertLinkAndStatus_eq_none.mpr fun hc =>
                hfirst b hmem hc ((hbranches b hb).prefix_of_mem hbid)
            rw [hnone, ihbs hrest hmem]
      rw [hall bs (hwf.apart id) hb]

/-- The new nodes. -/
theorem chain_spec (id : ModuleId N) (v : S) (combine : S → S → S) (clear : S)
    (g : ModuleId N → S) {n : ℕ}
    (h : n < id.length) :
    (chain id v n).linkId = id.take (id.length - n) ∧ (chain id v n).WellFormed ∧
      Kept combine clear (Function.update g id v) (chain id v n) ∧
        (chain id v n).tree (Function.update g id v) = chainTree v n ∧ id ∈ (chain id v n).ids := by
  induction n with
  | zero =>
    refine ⟨(List.take_length ..).symm, .mk nofun List.nodup_nil nofun, ?_, ?_, ?_⟩
    · exact .mk (fun _ => (Function.update_self id v g).symm) (fun hne => absurd rfl hne) nofun
    · exact congrArg Tree.leaf (Function.update_self id v g)
    · exact List.mem_cons_self
  | succ n ih =>
    obtain ⟨hlink, hwf, hkept, htree, hmem⟩ := ih (Nat.lt_of_succ_lt h)
    have hpart : ∃ x, (chain id v n).linkId = id.take (id.length - (n + 1)) ++ [x] := by
      have hlt : id.length - (n + 1) < id.length := by omega
      refine ⟨id.get ⟨_, hlt⟩, ?_⟩
      rw [hlink, show id.length - n = id.length - (n + 1) + 1 by omega,
        List.take_add_one, List.getElem?_eq_getElem hlt]
      rfl
    refine ⟨rfl, .mk ?_ (List.nodup_singleton _) ?_, .mk nofun (fun _ hd => nomatch hd) ?_, ?_, ?_⟩
    · exact fun b hb => List.mem_singleton.mp hb ▸ hpart
    · exact fun b hb => List.mem_singleton.mp hb ▸ hwf
    · exact fun b hb => List.mem_singleton.mp hb ▸ hkept
    · rw [chain, tree, htree]
      rfl
    · exact mem_ids.mpr (.inr ⟨_, List.mem_singleton_self _, hmem⟩)

/-- What an insertion does to a node: it is well formed and kept, with one more leaf. -/
structure Grows (combine : S → S → S) (clear : S) (g : ModuleId N → S) (id : ModuleId N) (v : S)
    (t t' : Summary N S) : Prop where
  link : t'.linkId = t.linkId
  wellFormed : t'.WellFormed
  kept : Kept combine clear (Function.update g id v) t'
  tree : t'.tree (Function.update g id v) = t.treeWith g id v
  ids : t.ids ⊆ t'.ids
  mem : id ∈ t'.ids

/-- No clean node that is above the new leaf gets another combination. -/
def Unchanged (combine : S → S → S) (clear : S) (g : ModuleId N → S) (id : ModuleId N) (v : S)
    (t : Summary N S) : Prop :=
  ∀ node ∈ t.nodes, isMeOrDescendant node.linkId id = true → node.dirty = false →
    (node.treeWith g id v).combined combine clear = (node.tree g).combined combine clear

theorem treeAll_update (h : ∀ b ∈ bs, id ∉ b.ids) :
    treeAll (Function.update g id v) bs = treeAll g bs := by
  induction bs with
  | nil => rfl
  | cons b bs ih =>
    rw [treeAll, treeAll, tree_update (givenAgain_of_not_mem (h b List.mem_cons_self)),
      ih fun c hc => h c (List.mem_cons_of_mem _ hc)]

omit [DecidableEq N] in
theorem treeAll_append (g : ModuleId N → V) (bs bs' : List (Summary N S)) :
    treeAll g (bs ++ bs') = treeAll g bs ++ treeAll g bs' := by
  induction bs with
  | nil => rfl
  | cons b bs ih => rw [List.cons_append, treeAll, treeAll, ih, List.cons_append]

/-- A new leaf in no branch. -/
theorem treeWithAll_of_none (h : ∀ b ∈ bs, ¬ b.linkId <+: id) (n : ℕ) :
    treeWithAll g id v n bs = treeAll g bs ++ [chainTree v n] := by
  induction bs with
  | nil => rfl
  | cons b bs ih =>
    rw [treeWithAll, if_neg (isMeOrDescendant_iff.not.mpr (h b List.mem_cons_self)),
      ih fun c hc => h c (List.mem_cons_of_mem _ hc), treeAll, List.cons_append]

theorem insertInBranches_eq_none :
    insertInBranches id v bs = none ↔ ∀ b ∈ bs, ¬ b.linkId <+: id := by
  induction bs with
  | nil => exact ⟨fun _ => nofun, fun _ => rfl⟩
  | cons b bs ih =>
    rw [insertInBranches, List.forall_mem_cons, ← ih, ← insertLinkAndStatus_eq_none (v := v)]
    cases hb : b.insertLinkAndStatus id v with
    | some b' => exact ⟨nofun, fun h => nomatch h.1⟩
    | none =>
      cases hbs : insertInBranches id v bs with
      | some bs' => exact ⟨nofun, fun h => nomatch h.2⟩
      | none => exact ⟨fun _ => ⟨rfl, rfl⟩, fun _ => rfl⟩

/-- A new leaf in one of the branches. -/
theorem grows_branches (hkepts : ∀ b ∈ bs, Kept combine clear g b) (hwfs : ∀ b ∈ bs, b.WellFormed)
    (hapart : bs.Pairwise fun b c => b.linkId <+: id → ¬ c.linkId <+: id)
    (hnew : ∀ b ∈ bs, id ∉ b.ids)
    (hgrows : ∀ b ∈ bs, ∀ b', b.insertLinkAndStatus id v = some b' →
      Grows combine clear g id v b b')
    (hins : insertInBranches id v bs = some bs') (n : ℕ) :
    bs'.map linkId = bs.map linkId ∧ (∀ b ∈ bs', b.WellFormed) ∧
      (∀ b ∈ bs', Kept combine clear (Function.update g id v) b) ∧
        treeAll (Function.update g id v) bs' = treeWithAll g id v n bs ∧
          idsAll bs ⊆ idsAll bs' ∧ id ∈ idsAll bs' := by
  induction bs generalizing bs' with
  | nil => cases hins
  | cons b bs ih =>
    obtain ⟨hfirst, hrest⟩ := List.pairwise_cons.mp hapart
    have hnews : ∀ c ∈ bs, id ∉ c.ids := fun c hc => hnew c (List.mem_cons_of_mem _ hc)
    rw [insertInBranches] at hins
    split at hins
    · rename_i b' hb
      cases hins
      have h := hgrows b List.mem_cons_self b' hb
      have hpre : b.linkId <+: id := not_not.mp fun hno => by
        rw [insertLinkAndStatus_eq_none.mpr hno] at hb
        cases hb
      refine ⟨?_, ?_, ?_, ?_, ?_, ?_⟩
      · rw [List.map_cons, List.map_cons, h.link]
      · exact List.forall_mem_cons.mpr
          ⟨h.wellFormed, fun c hc => hwfs c (List.mem_cons_of_mem _ hc)⟩
      · exact List.forall_mem_cons.mpr ⟨h.kept, fun c hc =>
          (hkepts c (List.mem_cons_of_mem _ hc)).given_again (givenAgain_of_not_mem (hnews c hc))⟩
      · rw [treeAll, treeWithAll, if_pos (isMeOrDescendant_iff.mpr hpre), h.tree,
          treeAll_update hnews]
      · exact List.append_subset.mpr ⟨List.subset_append_of_subset_left _ h.ids,
          List.subset_append_right _ _⟩
      · exact List.mem_append_left _ h.mem
    · rename_i hb
      split at hins
      · rename_i bs'' hbs
        cases hins
        obtain ⟨hlinks, hwf', hkept', htree, hids, hmem⟩ := ih
          (fun c hc => hkepts c (List.mem_cons_of_mem _ hc))
          (fun c hc => hwfs c (List.mem_cons_of_mem _ hc)) hrest hnews
          (fun c hc => hgrows c (List.mem_cons_of_mem _ hc)) hbs
        have hno : ¬ b.linkId <+: id := insertLinkAndStatus_eq_none.mp hb
        have hagain : GivenAgain g id v b :=
          givenAgain_of_not_mem (hnew b List.mem_cons_self)
        refine ⟨?_, ?_, ?_, ?_, ?_, ?_⟩
        · rw [List.map_cons, List.map_cons, hlinks]
        · exact List.forall_mem_cons.mpr ⟨hwfs b List.mem_cons_self, hwf'⟩
        · exact List.forall_mem_cons.mpr
            ⟨(hkepts b List.mem_cons_self).given_again hagain, hkept'⟩
        · rw [treeAll, treeWithAll, if_neg (isMeOrDescendant_iff.not.mpr hno), htree,
            tree_update hagain]
        · exact List.append_subset.mpr ⟨List.subset_append_left _ _,
            fun _ hi => List.mem_append_right _ (hids hi)⟩
        · exact List.mem_append_right _ hmem
      · cases hins

/-- A new leaf. -/
theorem Kept.inserted (h : Kept combine clear g t) (hwf : t.WellFormed) (hnew : id ∉ t.ids)
    (hsame : Unchanged combine clear g id v t) (hins : t.insertLinkAndStatus id v = some t') :
    Grows combine clear g id v t t' := by
  induction h generalizing t' with
  | @mk l st d bs hleaf hclean hbranches ih =>
    have hpre : l <+: id := not_not.mp fun hno => by
      rw [insertLinkAndStatus_eq_none (t := .mk l st d bs) |>.mpr hno] at hins
      cases hins
    have hne : id ≠ l := fun hid => hnew (mem_ids.mpr (.inl hid))
    have hbelow : isMeOrDescendant l id = true := isMeOrDescendant_iff.mpr hpre
    have hlt : l.length < id.length := Nat.lt_of_le_of_ne hpre.length_le fun hlen =>
      hne (hpre.eq_of_length hlen).symm
    have hnews : ∀ b ∈ bs, id ∉ b.ids := fun b hb hid => hnew (mem_ids.mpr (.inr ⟨b, hb, hid⟩))
    have hst : d = false →
        st = ((Summary.mk l st d bs).treeWith g id v).combined combine clear := by
      intro hd
      rw [hsame _ (mem_nodes.mpr (.inl rfl)) hbelow hd]
      by_cases hnil : bs = []
      · subst hnil
        exact hleaf rfl
      · exact hclean hnil hd
    have hapart := hwf.apart id
    rw [insertLinkAndStatus, if_neg (by rw [hbelow]; decide),
      if_neg (isMe_iff.not.mpr hne)] at hins
    cases hwf with
    | mk hparts hnodup hwfs =>
    split at hins
    · rename_i bs' hbs
      cases hins
      have hne' : bs ≠ [] := by
        rintro rfl
        cases hbs
      obtain ⟨hlinks, hwf', hkept', htree, hids, hmem⟩ := grows_branches hbranches hwfs hapart hnews
        (fun b hb b' hb' => ih b hb (hwfs b hb) (hnews b hb)
          (fun node hnode => hsame node (mem_nodes.mpr (.inr ⟨b, hb, hnode⟩))) hb') hbs
        (id.length - (l.length + 1))
      have hnil' : bs' ≠ [] := fun hnil => by
        rw [hnil, List.map_nil] at hlinks
        exact hne' (List.map_eq_nil_iff.mp hlinks.symm)
      have hwhole : (Summary.mk l st d bs').tree (Function.update g id v) =
          (Summary.mk l st d bs).treeWith g id v := by
        rw [tree_of_ne_nil _ hnil', htree, treeWith]
      refine
        { link := rfl
          wellFormed := .mk (fun b hb => ?_) (hlinks ▸ hnodup) hwf'
          kept := .mk (fun hnil => absurd hnil hnil') (fun _ hd => hwhole ▸ hst hd) hkept'
          tree := hwhole
          ids := List.cons_subset_cons _ hids
          mem := List.mem_cons_of_mem _ hmem }
      have hb' : b.linkId ∈ bs.map linkId := hlinks ▸ List.mem_map_of_mem hb
      obtain ⟨c, hc, hcb⟩ := List.mem_map.mp hb'
      exact hcb ▸ hparts c hc
    · rename_i hnone
      cases hins
      have hno := insertInBranches_eq_none.mp hnone
      obtain ⟨hlink, hcwf, hckept, hctree, hcmem⟩ :=
        chain_spec id v combine clear g (n := id.length - (l.length + 1)) (by omega)
      have hpart : ∃ x, (chain id v (id.length - (l.length + 1))).linkId = l ++ [x] := by
        obtain ⟨rest, rfl⟩ := hpre
        rw [hlink]
        rw [List.length_append] at hlt ⊢
        cases rest with
        | nil => exact absurd hlt (Nat.lt_irrefl _)
        | cons x rest =>
          refine ⟨x, ?_⟩
          rw [List.length_cons, show l.length + (rest.length + 1) - (l.length + (rest.length + 1) -
            (l.length + 1)) = l.length + 1 by omega, List.take_length_add_append]
          rfl
      have hpre : (chain id v (id.length - (l.length + 1))).linkId <+: id :=
        hlink ▸ List.take_prefix _ _
      have hwhole : (Summary.mk l st d (bs ++ [chain id v (id.length - (l.length + 1))])).tree
          (Function.update g id v) = (Summary.mk l st d bs).treeWith g id v := by
        rw [tree_of_ne_nil _ (List.append_ne_nil_of_right_ne_nil _ (List.cons_ne_nil _ _)),
          treeWith, treeWithAll_of_none hno, treeAll_append, treeAll_update hnews]
        rw [treeAll, treeAll, hctree]
      refine
        { link := rfl
          wellFormed := .mk ?_ ?_ ?_
          kept := .mk (fun hnil => absurd hnil (List.append_ne_nil_of_right_ne_nil _
            (List.cons_ne_nil _ _))) (fun _ hd => hwhole ▸ hst hd) ?_
          tree := hwhole
          ids := List.cons_subset_cons _ ?_
          mem := mem_ids.mpr
            (.inr ⟨_, List.mem_append_right _ (List.mem_singleton_self _), hcmem⟩) }
      · exact List.forall_mem_append.mpr ⟨hparts, fun b hb => List.mem_singleton.mp hb ▸ hpart⟩
      · rw [List.map_append]
        refine List.nodup_append.mpr ⟨hnodup, List.nodup_singleton _, ?_⟩
        rintro x hx y hy rfl
        obtain ⟨b, hb, rfl⟩ := List.mem_map.mp hx
        refine hno b hb ?_
        rw [List.map_singleton, List.mem_singleton] at hy
        exact hy ▸ hpre
      · exact List.forall_mem_append.mpr ⟨hwfs, fun b hb => List.mem_singleton.mp hb ▸ hcwf⟩
      · exact List.forall_mem_append.mpr ⟨fun b hb => (hbranches b hb).given_again
          (givenAgain_of_not_mem (hnews b hb)), fun b hb => List.mem_singleton.mp hb ▸ hckept⟩
      · intro i hi
        obtain ⟨b, hb, hib⟩ := mem_idsAll.mp hi
        exact mem_idsAll.mpr ⟨b, List.mem_append_left _ hb, hib⟩

end Given

end Summary

/-! ### Runs -/

section Runs

variable {combine : S → S → S} {clear : S}

/-- What holds of a tree in use. -/
structure Keeping.Inv (combine : S → S → S) (clear : S) (k : Keeping N S) : Prop where
  wellFormed : k.root.WellFormed
  kept : k.root.Kept combine clear k.given
  inserted : ∀ id ∈ k.inserted, id ∈ k.root.ids

namespace Keeping

theorem inv_init (id : ModuleId N) (status : S) : Inv combine clear (.init id status) where
  wellFormed := .mk nofun List.nodup_nil nofun
  kept := .mk (fun _ => rfl) (fun hne => absurd rfl hne) nofun
  inserted _ h := List.mem_singleton.mp h ▸ Summary.linkId_mem_ids (.mk id status true [])

/-- Another tree of the same shape. -/
theorem Inv.reshaped {k : Keeping N S} (h : Inv combine clear k) {root : Summary N S}
    {given : ModuleId N → S} (hkept : root.Kept combine clear given)
    (hshape : root.skeleton = k.root.skeleton) :
    Inv combine clear { k with root := root, given := given } where
  wellFormed := h.wellFormed.congr hshape
  kept := hkept
  inserted id hid := Summary.ids_congr hshape ▸ h.inserted id hid

variable [DecidableEq N]

/-- A new leaf, or one that is there. -/
theorem Inv.insert {k : Keeping N S} (h : Inv combine clear k) {id : ModuleId N} {status : S}
    (hcareful : CarefulCall combine clear k (.insertLinkAndStatus id status)) {root : Summary N S}
    (hins : k.root.insertLinkAndStatus id status = some root) :
    Inv combine clear { root := root, given := Function.update k.given id status,
                        inserted := k.inserted ++ [id] } := by
  by_cases hid : id ∈ k.root.ids
  · obtain rfl : k.root = root :=
      Option.some.inj ((h.wellFormed.insert_of_mem hid).symm.trans hins)
    refine ⟨h.wellFormed, h.kept.given_again hcareful.1, ?_⟩
    exact List.forall_mem_append.mpr ⟨h.inserted, fun i hi => List.mem_singleton.mp hi ▸ hid⟩
  · have hgrows := h.kept.inserted h.wellFormed hid (hcareful.2 hid) hins
    refine ⟨hgrows.wellFormed, hgrows.kept, ?_⟩
    exact List.forall_mem_append.mpr ⟨fun i hi => hgrows.ids (h.inserted i hi),
      fun i hi => List.mem_singleton.mp hi ▸ hgrows.mem⟩

theorem Inv.neverStale {k : Keeping N S} (h : Inv combine clear k) :
    NeverStale combine clear k where
  fresh node hnode := (h.kept.of_mem_nodes hnode).calculated.1
  found id hid := by
    obtain ⟨hfind, hexists⟩ := h.wellFormed.find_of_mem (h.inserted id hid)
    exact ⟨hfind, hexists, List.count_eq_one_of_mem h.wellFormed.nodup_ids (h.inserted id hid)⟩

variable [DecidableEq S]

/-- No careful call breaks the invariant, and none faults. -/
theorem Inv.step {k : Keeping N S} (h : Inv combine clear k) {op : StatusOp N S}
    (hcareful : CarefulCall combine clear k op) :
    ∃ k', k.step combine clear op = .ok k' ∧ Inv combine clear k' := by
  cases op with
  | insertLinkAndStatus id status =>
    rw [Keeping.step]
    cases hins : k.root.insertLinkAndStatus id status with
    | some root => exact ⟨_, rfl, h.insert hcareful hins⟩
    | none => exact ⟨k, rfl, h⟩
  | updateStatus id newstatus =>
    rw [Keeping.step]
    cases hup : k.root.updateStatus id newstatus with
    | some res =>
      obtain ⟨hkept, hshape, _⟩ := h.kept.updated h.wellFormed hup
      exact ⟨_, rfl, h.reshaped hkept hshape⟩
    | none => exact ⟨k, rfl, h⟩
  | getOrCalculateStatus id =>
    rw [Keeping.step]
    cases hfind : k.root.findSummary id with
    | some node =>
      obtain ⟨hkept, hroot⟩ := h.kept.replaced hfind fun hk => hk.calculated.2
      exact ⟨_, rfl, h.reshaped hkept hroot⟩
    | none => exact ⟨k, rfl, h⟩

end Keeping

variable [DecidableEq N] [DecidableEq S]

instance (k : Keeping N S) : DecidablePred (CarefulCall combine clear k)
  | .insertLinkAndStatus _ _ => inferInstanceAs (Decidable (_ ∧ (_ → _)))
  | .updateStatus _ _ | .getOrCalculateStatus _ => inferInstanceAs (Decidable True)

/-- If no leaf is inserted again with another status, and new leaves do not change the combination
of clean nodes, the tree is never stale. -/
theorem neverStale_of_run (combine : S → S → S) (clear : S) (id : ModuleId N) (status : S)
    (ops : List (StatusOp N S))
    (h : Allowed (Keeping.step combine clear) (CarefulCall combine clear) (.init id status) ops) :
    ∃ k, exec (Keeping.step combine clear) (.init id status) ops = .ok k ∧
      NeverStale combine clear k := by
  have hinit : Keeping.Inv combine clear (.init id status) := Keeping.inv_init id status
  obtain ⟨k, hk, hinv⟩ := exec_progress (fun _ _ hk hop => hk.step hop) hinit h
  exact ⟨k, hk, hinv.neverStale⟩

end Runs

/-- Two entities, inserted without a state; one gets a module that is switched on, and the second is
inserted below a clean root. -/
theorem neverStale_of_run_neutral :
    ∃ k, exec (Keeping.step StatusT1.combine .clear) (.init ([] : ModuleId ℕ) .clear)
        [.insertLinkAndStatus [0, 3] .clear, .updateStatus [0, 3] ⟨.on, .holdCurrent, 5, 7⟩,
          .getOrCalculateStatus [], .insertLinkAndStatus [1] .clear, .getOrCalculateStatus [0],
          .updateStatus [0, 3] ⟨.on, .holdCurrent, 9, 7⟩] = .ok k ∧
      NeverStale StatusT1.combine .clear k :=
  neverStale_of_run _ _ _ _ _
    ((@allowed_of_checks _ _ _ _ _ _ _
      (fun k op => decide (CarefulCall StatusT1.combine .clear k op)))
      (fun _ _ h => of_decide_eq_true h) (by decide +kernel))

/-- A leaf that is inserted below a clean root is not counted. -/
theorem not_neverStale_insert :
    ¬ ∀ (id : ModuleId ℕ) (status : StatusT1) (ops : List (StatusOp ℕ StatusT1)),
      ∃ k, exec (Keeping.step StatusT1.combine .clear) (.init id status) ops = .ok k ∧
        NeverStale StatusT1.combine .clear k := by
  intro h
  obtain ⟨k, hk, hnever⟩ := h [] .clear
    [.insertLinkAndStatus [0] ⟨.prepared, .inactive, 5, 5⟩, .getOrCalculateStatus [],
      .insertLinkAndStatus [1] ⟨.unPrepared, .inactive, 6, 6⟩]
  obtain ⟨k', hk', htest⟩ := exists_of_endsIn (Keeping.step StatusT1.combine .clear)
    (.init ([] : ModuleId ℕ) .clear)
    [.insertLinkAndStatus [0] ⟨.prepared, .inactive, 5, 5⟩, .getOrCalculateStatus [],
      .insertLinkAndStatus [1] ⟨.unPrepared, .inactive, 6, 6⟩]
    (fun k => decide ((k.root.getOrCalculateStatus StatusT1.combine .clear).1.mstate ≠
      ((k.root.tree k.given).combined StatusT1.combine .clear).mstate)) (by decide +kernel)
  obtain rfl := Except.ok.inj (hk.symm.trans hk')
  have hroot : k.root ∈ k.root.nodes := by
    cases k.root
    exact Summary.mem_nodes.mpr (.inl rfl)
  exact of_decide_eq_true htest (congrArg StatusT1.mstate (hnever.fresh _ hroot))

end Dueca.Status
