import Dueca.Objects.Manager
import Mathlib.Data.List.Nodup
import Mathlib.Order.Nat

/-!
# Ids and names of objects

A directory lists the objects of a node, in the order in which they have been registered. The
managers are compared with these: they answer each call as the directories do, and find the same
objects, by number and by name.

They do so as long as no request is refused. A refused request takes a number, and at node 0 the
assertion in the next request fails. Numbers have 16 bits, an object with the empty name is not
seen in the registry, and the name of an object that is released before it has been sent is lost.
-/

namespace Dueca.Objects

open Dueca.Lib

variable {k : ℕ} {O : Type}

/-! ### Directories -/

/-- An object with its name. It is live until its release. -/
structure Item (O : Type) where
  name : NameSet
  object : O
  live : Bool

abbrev Directory (O : Type) := List (Item O)

def Directory.names (d : Directory O) : List NameSet := d.map (·.name)

/-- The live object with a number. -/
def Directory.get (d : Directory O) (i : ℕ) : Option O :=
  (d[i]?.filter (·.live)).map (·.object)

/-- The live object with a name. -/
def Directory.find (d : Directory O) (ns : NameSet) : Option O :=
  (d.find? fun x => x.live && x.name = ns).map (·.object)

abbrev Directories (k : ℕ) (O : Type) := Fin (k + 1) → Directory O

/-- What a call does, and the answer. -/
def Directories.apply (ds : Directories k O) : Call k O → Directories k O × Answer
  | .request n o ns =>
    if ((ds n).find ns).isSome then (ds, .refused)
    else (Function.update ds n (ds n ++ [⟨ns, o, true⟩]), .issued ⟨n, (ds n).length⟩)
  | .release n id =>
    (Function.update ds n ((ds n).modify id fun x => { x with live := false }), .done)
  | .tokenValid _ _ => (ds, .done)
  | .sendAll _ => (ds, .done)
  | .read _ => (ds, .done)

/-- The id in an answer. -/
def Answer.id? : Answer → Option GlobalId
  | .issued id => some id
  | .refused => none
  | .done => none

/-- There is a node 0. -/
theorem node_zero (k : ℕ) : NeZero (k + 1) := inferInstance

/-- The managers and the directories, with the answers that both have given. -/
structure Session (k : ℕ) (O : Type) where
  system : System k O
  directories : Directories k O
  answers : List (Answer × Answer)

namespace Session

def init (k : ℕ) (O : Type) : Session k O := ⟨.init k O, fun _ => [], []⟩

def step (s : Session k O) (c : Call k O) : Except Unit (Session k O) :=
  match s.system.step c with
  | .error e => .error e
  | .ok (sys, a) =>
    .ok ⟨sys, (s.directories.apply c).1, s.answers ++ [(a, (s.directories.apply c).2)]⟩

/-- The ids that have been issued. -/
def issued (s : Session k O) : List GlobalId := s.answers.filterMap fun a => a.1.id?

/-- Managers and directories agree. -/
structure Consistent (s : Session k O) : Prop where
  answers : ∀ a ∈ s.answers, a.1 = a.2
  unique : s.issued.Nodup
  byId : ∀ n i, (s.system.managers n).getObject i = (s.directories n).get i
  byName : ∀ n ns, (s.system.managers n).findObject ns = (s.directories n).find ns
  names : (s.system.managers 0).allObjectNames[0]? = some (s.directories 0).names
  foreign : ∀ n : Fin (k + 1), ∃ names, (s.system.managers 0).allObjectNames[n.val]? = some names ∧
    names <+: (s.directories n).names

/-- A request for a free name that is not the empty one, when a number is left; a release, at
another node than 0, of an object of which the name has been sent. -/
def Careful (s : Session k O) : Call k O → Prop
  | .request n _ ns => ns ≠ nsdum ∧ (s.system.managers n).containsName ns = false ∧
      (s.directories n).length < 2 ^ 16
  | .release n id => (haveI _ := node_zero k; n = 0) ∨
      (s.system.managers n).containsId id = false ∨
      id < (s.system.managers n).objectIdSent
  | .tokenValid _ _ => True
  | .sendAll _ => True
  | .read _ => True

end Session

/-! ### One node -/

/-- The entry in the registry for an item. -/
def entryOf (n i : ℕ) (x : Item O) : Option (ModuleIdList O) :=
  if x.live then some ⟨x.name, ⟨n, i⟩, some x.object⟩ else none

/-- The manager of a node has the live items of the directory, and the counts are right. -/
structure ObjectManager.NodeInv (m : ObjectManager O) (d : Directory O) (n : ℕ) : Prop where
  location : m.location = n
  registry : m.objectRegistry.Inv (·.ns) .empty
  entries : ∀ i, m.objectRegistry.objectAt? (·.ns) .empty i = d[i]?.bind (entryOf n i)
  length_le : d.length ≤ 2 ^ 16
  count : m.objectIdCount = d.length % 2 ^ 16
  sent_le : m.objectIdSent ≤ d.length
  /-- An object is live as long as its name has not been sent. -/
  unsent : n ≠ 0 → ∀ i x, m.objectIdSent ≤ i → d[i]? = some x → x.live = true

namespace ObjectManager.NodeInv

variable {m : ObjectManager O} {d : Directory O} {n i : ℕ} {x : Item O} {ns : NameSet} {o : O}

theorem entry_live (h : m.NodeInv d n) (hx : d[i]? = some x) (hlive : x.live = true) :
    m.objectRegistry.objectAt? (·.ns) .empty i = some ⟨x.name, ⟨n, i⟩, some x.object⟩ := by
  rw [h.entries, hx, Option.bind_some, entryOf, if_pos hlive]

theorem entry_eq_some (h : m.NodeInv d n) {e : ModuleIdList O} :
    m.objectRegistry.objectAt? (·.ns) .empty i = some e ↔
      ∃ x, d[i]? = some x ∧ x.live = true ∧ e = ⟨x.name, ⟨n, i⟩, some x.object⟩ := by
  rw [h.entries, Option.bind_eq_some_iff]
  constructor
  · rintro ⟨x, hx, he⟩
    rw [entryOf] at he
    split at he
    · next hlive => exact ⟨x, hx, hlive, (Option.some.inj he).symm⟩
    · cases he
  · rintro ⟨x, hx, hlive, rfl⟩
    exact ⟨x, hx, if_pos hlive⟩

theorem containsId_iff (h : m.NodeInv d n) :
    m.containsId i = true ↔ ∃ x, d[i]? = some x ∧ x.live = true := by
  rw [containsId, Registry.contains_eq, Option.isSome_iff_exists]
  constructor
  · rintro ⟨e, he⟩
    obtain ⟨x, hx, hlive, -⟩ := h.entry_eq_some.1 he
    exact ⟨x, hx, hlive⟩
  · rintro ⟨x, hx, hlive⟩
    exact ⟨_, h.entry_live hx hlive⟩

theorem find_live (h : m.NodeInv d n) (hx : d[i]? = some x) (hlive : x.live = true) :
    m.objectRegistry.find .empty i = ⟨x.name, ⟨n, i⟩, some x.object⟩ :=
  Registry.find_eq (h.entry_live hx hlive)

theorem getNameSet_eq (h : m.NodeInv d n) (hx : d[i]? = some x) (hlive : x.live = true) :
    m.getNameSet i = x.name := by
  rw [getNameSet, if_pos (h.containsId_iff.2 ⟨x, hx, hlive⟩), h.find_live hx hlive]

/-- Looking up by number. -/
theorem getObject_eq (h : m.NodeInv d n) (i : ℕ) : m.getObject i = d.get i := by
  rw [getObject, Directory.get]
  by_cases hcontains : m.containsId i = true
  · obtain ⟨x, hx, hlive⟩ := h.containsId_iff.1 hcontains
    rw [if_pos hcontains, h.find_live hx hlive, hx, Option.filter_some, if_pos hlive,
      Option.map_some]
  · rw [if_neg hcontains]
    cases hx : d[i]? with
    | none => rfl
    | some x =>
      have hdead : ¬x.live = true := fun hlive => hcontains (h.containsId_iff.2 ⟨x, hx, hlive⟩)
      rw [Option.filter_some, if_neg hdead, Option.map_none]

/-- A name is found for the number of the live item with that name. -/
theorem findIndex_iff (h : m.NodeInv d n) :
    m.objectRegistry.findIndex (·.ns) ns = some i ↔
      ∃ x, d[i]? = some x ∧ x.live = true ∧ x.name = ns := by
  rw [h.registry.findIndex_iff]
  constructor
  · rintro ⟨e, he, hname⟩
    obtain ⟨x, hx, hlive, rfl⟩ := h.entry_eq_some.1 he
    exact ⟨x, hx, hlive, hname⟩
  · rintro ⟨x, hx, hlive, hname⟩
    exact ⟨_, h.entry_live hx hlive, hname⟩

theorem containsName_iff (h : m.NodeInv d n) :
    m.containsName ns = true ↔
      ∃ (i : ℕ) (x : Item O), d[i]? = some x ∧ x.live = true ∧ x.name = ns := by
  rw [containsName, Registry.containsName, Option.isSome_iff_exists]
  exact exists_congr fun i => h.findIndex_iff

/-- Looking up by name. -/
theorem findObject_eq (h : m.NodeInv d n) (ns : NameSet) : m.findObject ns = d.find ns := by
  rw [findObject, Directory.find]
  cases hfind : d.find? fun x : Item O => x.live && x.name = ns with
  | none =>
    have hnot : ¬m.containsName ns = true := by
      rw [h.containsName_iff]
      rintro ⟨i, x, hx, hlive, hname⟩
      exact List.find?_eq_none.1 hfind x (List.mem_of_getElem? hx) (by simp [hlive, hname])
    rw [if_neg hnot, Option.map_none]
  | some x =>
    obtain ⟨i, hx⟩ := List.mem_iff_getElem?.1 (List.mem_of_find?_eq_some hfind)
    have htest := List.find?_some (p := fun x : Item O => x.live && x.name = ns) hfind
    simp only [Bool.and_eq_true, decide_eq_true_eq] at htest
    obtain ⟨hlive, hname⟩ := htest
    have hindex := h.findIndex_iff.2 ⟨x, hx, hlive, hname⟩
    rw [if_pos (h.containsName_iff.2 ⟨i, x, hx, hlive, hname⟩), Registry.findName, hindex,
      Option.map_some]
    change (m.objectRegistry.find .empty i).cmp = _
    rw [h.find_live hx hlive]

theorem init (n noNodes : ℕ) : (ObjectManager.init (O := O) n noNodes).NodeInv [] n where
  location := rfl
  registry := Registry.inv_init 20
  entries _ := Registry.entryAt_replicate
  length_le := Nat.zero_le _
  count := rfl
  sent_le := Nat.le_refl 0
  unsent _ _ _ _ hx := nomatch hx

/-- The registry accepts an object with a free name, at the next number. -/
theorem request (h : m.NodeInv d n) (o : O) (hns : ns ≠ nsdum)
    (hfree : m.containsName ns = false) (hlen : d.length < 2 ^ 16) :
    ∃ reg, m.objectRegistry.insert (·.ns) .empty m.objectIdCount
        ⟨ns, ⟨m.location, m.objectIdCount⟩, some o⟩ = .ok reg ∧
      NodeInv { m with objectRegistry := reg, objectIdCount := (m.objectIdCount + 1) % 2 ^ 16 }
        (d ++ [⟨ns, o, true⟩]) n := by
  have hcount : m.objectIdCount = d.length := h.count.trans (Nat.mod_eq_of_lt hlen)
  have hplace : m.objectRegistry.objectAt? (·.ns) .empty m.objectIdCount = none := by
    rw [h.entries, hcount, List.getElem?_eq_none (Nat.le_refl _), Option.bind_none]
  have hnew : m.objectRegistry.findIndex (·.ns) ns = none :=
    Option.isNone_iff_eq_none.1 (Option.isSome_eq_false_iff.1 hfree)
  have hud : (⟨ns, ⟨m.location, m.objectIdCount⟩, some o⟩ : ModuleIdList O).ns ≠ nsdum := hns
  obtain ⟨reg, hinsert, hreg, hentry⟩ := h.registry.insert hplace hud hnew
  refine ⟨reg, hinsert, h.location, hreg, fun i => ?_, ?_, ?_, ?_, fun hn i x hi hx => ?_⟩
  · rw [hentry, h.location, hcount]
    rcases Nat.lt_trichotomy i d.length with hlt | rfl | hgt
    · rw [if_neg (Nat.ne_of_lt hlt), h.entries, List.getElem?_append_left hlt]
    · rw [if_pos rfl, List.getElem?_concat_length]
      rfl
    · rw [if_neg (Nat.ne_of_gt hgt), h.entries, List.getElem?_eq_none (Nat.le_of_lt hgt),
        List.getElem?_eq_none (by rw [List.length_append]; exact hgt)]
  · rw [List.length_append]
    exact hlen
  · rw [List.length_append, hcount]
    rfl
  · exact h.sent_le.trans (by rw [List.length_append]; exact Nat.le_add_right _ _)
  · rcases Nat.lt_or_ge i d.length with hlt | hge
    · rw [List.getElem?_append_left hlt] at hx
      exact h.unsent hn i x hi hx
    · rw [List.getElem?_append_right hge] at hx
      obtain rfl := List.mem_singleton.1 (List.mem_of_getElem? hx)
      rfl

/-- The names that have not been sent are sent, in order. -/
theorem sendAll (h : m.NodeInv d n) (hn : n ≠ 0) :
    m.sendAllToNode0.1.NodeInv d n ∧ m.objectIdSent ≤ m.sendAllToNode0.1.objectIdSent ∧
      m.sendAllToNode0.2.map (·.nameSet) =
        (d.names.take m.sendAllToNode0.1.objectIdSent).drop m.objectIdSent ∧
      m.sendAllToNode0.2.map (·.id) = (List.range' m.objectIdSent
        (m.sendAllToNode0.1.objectIdSent - m.objectIdSent)).map (GlobalId.mk n) := by
  unfold sendAllToNode0
  split
  · have hcount : m.objectIdCount ≤ d.length := h.count ▸ Nat.mod_le _ _
    refine ⟨⟨h.location, h.registry, h.entries, h.length_le, h.count,
      Nat.max_le.2 ⟨h.sent_le, hcount⟩, fun hn i x hi hx =>
        h.unsent hn i x ((Nat.le_max_left _ _).trans hi) hx⟩, Nat.le_max_left _ _, ?_, ?_⟩
    · -- What is sent are the names of live objects.
      refine List.ext_getElem? fun j => ?_
      simp only [List.map_map, List.getElem?_map, List.getElem?_drop]
      by_cases hj : m.objectIdSent + j < m.objectIdCount
      · have hlt : m.objectIdSent + j < d.length := hj.trans_le hcount
        have hlive := h.unsent hn _ _ (Nat.le_add_right _ _) (List.getElem?_eq_getElem hlt)
        have hname := h.getNameSet_eq (List.getElem?_eq_getElem hlt) hlive
        rw [List.getElem?_range' (by omega), List.getElem?_take_of_lt (by omega)]
        simp [hname, Directory.names, hlt]
      · rw [List.getElem?_eq_none (by rw [List.length_range']; omega),
          List.getElem?_eq_none (by rw [List.length_take]; omega)]
        rfl
    · simp only [List.map_map]
      have hlength : max m.objectIdSent m.objectIdCount - m.objectIdSent =
          m.objectIdCount - m.objectIdSent := by omega
      rw [hlength]
      refine List.map_congr_left fun i _ => ?_
      rw [← h.location]
      rfl
  · refine ⟨h, Nat.le_refl _, ?_, ?_⟩
    · rw [List.drop_eq_nil_of_le (by rw [List.length_take]; exact Nat.min_le_left _ _)]
      rfl
    · rw [Nat.sub_self]
      rfl

/-- An object is released, of which the name has been sent. -/
theorem release (h : m.NodeInv d n)
    (hsent : n = 0 ∨ m.containsId i = false ∨ i < m.objectIdSent) :
    (m.releaseId i).NodeInv (d.modify i fun x => { x with live := false }) n := by
  have hother : ∀ j, j ≠ i → (d.modify i fun x => { x with live := false })[j]? = d[j]? :=
    fun j hj => by rw [List.getElem?_modify_ne _ _ hj.symm]
  have hself : (d.modify i fun x => { x with live := false })[i]?.bind (entryOf n i) = none := by
    rw [List.getElem?_modify_eq]
    cases d[i]? <;> rfl
  have hlength : (d.modify i fun x => { x with live := false }).length = d.length :=
    List.length_modify ..
  have hunsent : ∀ j x, n ≠ 0 → m.objectIdSent ≤ j →
      (d.modify i fun x => { x with live := false })[j]? = some x → x.live = true := by
    intro j x hn hj hx
    by_cases hji : j = i
    · subst hji
      rw [List.getElem?_modify_eq] at hx
      obtain ⟨y, hy, rfl⟩ := Option.map_eq_some_iff.1 hx
      have hcontains := h.containsId_iff.2 ⟨y, hy, h.unsent hn j y hj hy⟩
      rcases hsent with hzero | hfree | hlt
      · exact absurd hzero hn
      · cases hfree.symm.trans hcontains
      · omega
    · exact h.unsent hn j x hj ((hother j hji).symm.trans hx)
  unfold releaseId
  split
  · next hcontains =>
    obtain ⟨x, hx, hlive⟩ := h.containsId_iff.1 hcontains
    obtain ⟨hreg, hentry⟩ := h.registry.remove (h.entry_live hx hlive)
    refine ⟨h.location, hreg, fun j => ?_, hlength.symm ▸ h.length_le, hlength.symm ▸ h.count,
      hlength.symm ▸ h.sent_le, fun hn j x hj => hunsent j x hn hj⟩
    rw [hentry]
    by_cases hji : j = i
    · rw [if_pos hji, hji, hself]
    · rw [if_neg hji, h.entries, hother j hji]
  · next hnot =>
    refine ⟨h.location, h.registry, fun j => ?_, hlength.symm ▸ h.length_le,
      hlength.symm ▸ h.count, hlength.symm ▸ h.sent_le, fun hn j x hj => hunsent j x hn hj⟩
    by_cases hji : j = i
    · subst hji
      rw [hself, Option.eq_none_iff_forall_not_mem]
      intro e he
      obtain ⟨x, hx, hlive, -⟩ := h.entry_eq_some.1 he
      exact hnot (h.containsId_iff.2 ⟨x, hx, hlive⟩)
    · rw [h.entries, hother j hji]

end ObjectManager.NodeInv

/-- What a call at a node does, for its manager and directory: names are only added, at node 0 to
its own list, and at another node what is sent are the names up to there. -/
structure Moves (m m' : ObjectManager O) (d d' : Directory O) (n : ℕ) (out : List ObjectInfo) :
    Prop where
  inv : m'.NodeInv d' n
  names : d.names <+: d'.names
  own : n = 0 → out = [] ∧ m'.noNodes = m.noNodes ∧
    (m.allObjectNames[0]? = some d.names → m'.allObjectNames[0]? = some d'.names) ∧
    ∀ j, j ≠ 0 → m'.allObjectNames[j]? = m.allObjectNames[j]?
  sent : n ≠ 0 → m.objectIdSent ≤ m'.objectIdSent ∧
    out.map (·.nameSet) = (d'.names.take m'.objectIdSent).drop m.objectIdSent ∧
    out.map (·.id) =
      (List.range' m.objectIdSent (m'.objectIdSent - m.objectIdSent)).map (GlobalId.mk n)

section Moves

variable {m m' : ObjectManager O} {d d' : Directory O} {n i : ℕ} {ns : NameSet} {o : O}
  {out : List ObjectInfo}

/-- Nothing is sent. -/
theorem Moves.silent (hinv : m'.NodeInv d' n) (hnames : d'.names = d.names)
    (hsent : m'.objectIdSent = m.objectIdSent) (hnodes : m'.noNodes = m.noNodes)
    (hall : m'.allObjectNames = m.allObjectNames) : Moves m m' d d' n [] where
  inv := hinv
  names := hnames ▸ List.prefix_refl _
  own _ := ⟨rfl, hnodes, by rw [hall, hnames]; exact id, fun j _ => by rw [hall]⟩
  sent _ := by
    refine ⟨hsent ▸ Nat.le_refl _, ?_, by rw [hsent, Nat.sub_self]; rfl⟩
    rw [List.drop_eq_nil_of_le]
    · rfl
    · rw [List.length_take, hsent]
      exact Nat.min_le_left _ _

theorem moves_release (h : m.NodeInv d n)
    (hsent : n = 0 ∨ m.containsId i = false ∨ i < m.objectIdSent) :
    Moves m (m.releaseId i) d (d.modify i fun x => { x with live := false }) n [] := by
  have hnames : Directory.names (d.modify i fun x => { x with live := false }) = d.names := by
    refine List.ext_getElem? fun j => ?_
    rw [Directory.names, Directory.names, List.getElem?_map, List.getElem?_map,
      List.getElem?_modify]
    cases d[j]? with
    | none => rfl
    | some x =>
      by_cases hij : i = j
      · simp [hij]
      · simp [hij]
  refine .silent (h.release hsent) hnames ?_ ?_ ?_ <;>
  · unfold ObjectManager.releaseId
    split <;> rfl

theorem moves_sendAll (h : m.NodeInv d n) :
    Moves m m.sendAllToNode0.1 d d n m.sendAllToNode0.2 := by
  by_cases hn : n = 0
  · have hsame : m.sendAllToNode0 = (m, []) := by
      rw [ObjectManager.sendAllToNode0, if_neg]
      rintro ⟨hlocation, -⟩
      rw [h.location, hn] at hlocation
      exact Nat.lt_irrefl 0 hlocation
    rw [hsame]
    exact .silent h rfl rfl rfl rfl
  · obtain ⟨hinv, hsent⟩ := h.sendAll hn
    exact ⟨hinv, List.prefix_refl _, fun h0 => absurd h0 hn, fun _ => hsent⟩

/-- A request for a free name gets the next number. -/
theorem moves_request (h : m.NodeInv d n) (o : O) (hns : ns ≠ nsdum)
    (hfree : m.containsName ns = false) (hlen : d.length < 2 ^ 16)
    (hown : n = 0 → m.allObjectNames[0]? = some d.names) :
    ∃ m' out, m.requestId o ns = .ok (m', some ⟨n, d.length⟩, out) ∧
      Moves m m' d (d ++ [⟨ns, o, true⟩]) n out := by
  obtain ⟨reg, hinsert, hinv⟩ := h.request o hns hfree hlen
  have hcount : m.objectIdCount = d.length := h.count.trans (Nat.mod_eq_of_lt hlen)
  have hnames : Directory.names (d ++ [⟨ns, o, true⟩]) = d.names ++ [ns] := List.map_append
  have hprefix : d.names <+: Directory.names (d ++ [⟨ns, o, true⟩]) :=
    hnames ▸ List.prefix_append _ _
  have hid : (⟨m.location, m.objectIdCount⟩ : GlobalId) = ⟨n, d.length⟩ := by
    rw [h.location, hcount]
  unfold ObjectManager.requestId
  simp only [hinsert]
  rw [hid]
  by_cases hn : n = 0
  · have hlocation : ¬m.location > 0 := by
      rw [h.location, hn]
      exact Nat.lt_irrefl 0
    have hstore : ObjectManager.storeName { m with
          objectRegistry := reg, objectIdCount := (m.objectIdCount + 1) % 2 ^ 16 }
        ⟨0, m.objectIdCount⟩ ns = .ok { m with
          objectRegistry := reg, objectIdCount := (m.objectIdCount + 1) % 2 ^ 16,
          allObjectNames := m.allObjectNames.set 0 (d.names ++ [ns]) } := by
      simp only [ObjectManager.storeName, hown hn, hcount, Directory.names, List.length_map,
        if_true]
    rw [if_neg hlocation, hstore]
    refine ⟨_, _, rfl, ⟨hinv.location, hinv.registry, hinv.entries, hinv.length_le, hinv.count,
      hinv.sent_le, hinv.unsent⟩, hprefix, fun _ => ⟨rfl, rfl, fun _ => ?_, fun j hj => ?_⟩,
      fun h0 => absurd hn h0⟩
    · have hlt : 0 < m.allObjectNames.length := (List.getElem?_eq_some_iff.1 (hown hn)).1
      rw [List.getElem?_set_self hlt, hnames]
    · exact List.getElem?_set_ne hj.symm
  · have hlocation : m.location > 0 := h.location ▸ Nat.pos_of_ne_zero hn
    rw [if_pos hlocation]
    obtain ⟨hsend, hsent⟩ := hinv.sendAll hn
    exact ⟨_, _, rfl, hsend, hprefix, fun h0 => absurd h0 hn, fun _ => hsent⟩

end Moves

/-! ### All nodes -/

namespace Session

/-- The names at node 0: its own, and for another node those that have been read; with the ones
that are still to be read these are the names that have been sent, each with its number. -/
structure Inv (s : Session k O) : Prop where
  node : ∀ n, (s.system.managers n).NodeInv (s.directories n) n
  noNodes : (s.system.managers 0).noNodes = k + 1
  own : (s.system.managers 0).allObjectNames[0]? = some (s.directories 0).names
  quiet : s.system.written 0 = []
  foreign : ∀ n : Fin (k + 1), n ≠ 0 → ∃ names,
    (s.system.managers 0).allObjectNames[n.val]? = some names ∧
      names ++ (s.system.written n).map (·.nameSet) =
        (s.directories n).names.take (s.system.managers n).objectIdSent ∧
      (s.system.written n).map (·.id) =
        (List.range' names.length (s.system.written n).length).map (GlobalId.mk n)
  answers : ∀ a ∈ s.answers, a.1 = a.2
  unique : s.issued.Nodup
  issued_lt : ∀ id ∈ s.issued, ∃ n : Fin (k + 1), id.locationId = n ∧
    id.objectId < (s.directories n).length

variable {s s' : Session k O} {n : Fin (k + 1)} {m' : ObjectManager O} {d' : Directory O}
  {out : List ObjectInfo} {a : Answer × Answer}

theorem inv_init (k : ℕ) (O : Type) : (init k O).Inv where
  node n := .init n (k + 1)
  noNodes := rfl
  own := rfl
  quiet := rfl
  foreign n _ := by
    refine ⟨[], ?_, rfl, rfl⟩
    change (List.replicate (k + 1) [])[n.val]? = some []
    rw [List.getElem?_replicate, if_pos n.isLt]
  answers _ ha := nomatch ha
  unique := List.nodup_nil
  issued_lt _ hid := nomatch hid

/-- What managers and directories agree on. -/
theorem Inv.consistent (h : s.Inv) : s.Consistent where
  answers := h.answers
  unique := h.unique
  byId n i := (h.node n).getObject_eq i
  byName n ns := (h.node n).findObject_eq ns
  names := h.own
  foreign n := by
    by_cases hn : n = 0
    · subst hn
      exact ⟨_, h.own, List.prefix_refl _⟩
    · obtain ⟨names, hnames, hsent, -⟩ := h.foreign n hn
      exact ⟨names, hnames, (hsent ▸ List.prefix_append _ _).trans (List.take_prefix _ _)⟩

theorem issued_concat (answers : List (Answer × Answer)) (a : Answer × Answer) :
    (answers ++ [a]).filterMap (fun a => a.1.id?) =
      answers.filterMap (fun a => a.1.id?) ++ a.1.id?.toList := by
  rw [List.filterMap_append]
  cases h : a.1.id? <;> simp [h]

/-- The names that have been sent, when there are more of them. -/
theorem take_append_drop_take {l l' : List NameSet} {i j : ℕ} (hl : l <+: l') (hi : i ≤ l.length)
    (hij : i ≤ j) : l.take i ++ (l'.take j).drop i = l'.take j := by
  obtain ⟨t, rfl⟩ := hl
  have htake : l.take i = ((l ++ t).take j).take i := by
    rw [List.take_take, Nat.min_eq_left hij, List.take_append_of_le_length hi]
  rw [htake, List.take_append_drop]

/-- A call at a node. -/
theorem Inv.set (h : s.Inv)
    (hm : Moves (s.system.managers n) m' (s.directories n) d' n out) (ha : a.1 = a.2)
    (hissued : ∀ id, a.1.id? = some id →
      id = ⟨n, (s.directories n).length⟩ ∧ (s.directories n).length < d'.length) :
    Inv ⟨s.system.set n m' out, Function.update s.directories n d', s.answers ++ [a]⟩ := by
  have hlength : (s.directories n).length ≤ d'.length := by
    have hle := hm.names.length_le
    rwa [Directory.names, Directory.names, List.length_map, List.length_map] at hle
  have hgrown : ∀ j, (s.directories j).length ≤ (Function.update s.directories n d' j).length := by
    intro j
    by_cases hj : j = n
    · rw [hj, Function.update_self]
      exact hlength
    · rw [Function.update_of_ne hj]
  constructor
  case node =>
    intro j
    by_cases hj : j = n
    · subst hj
      simpa only [System.set, Function.update_self] using hm.inv
    · simpa only [System.set, Function.update_of_ne hj] using h.node j
  case noNodes =>
    by_cases hn : (0 : Fin (k + 1)) = n
    · subst hn
      simpa only [System.set, Function.update_self] using (hm.own rfl).2.1.trans h.noNodes
    · simpa only [System.set, Function.update_of_ne hn] using h.noNodes
  case own =>
    by_cases hn : (0 : Fin (k + 1)) = n
    · subst hn
      simpa only [System.set, Function.update_self] using (hm.own rfl).2.2.1 h.own
    · simpa only [System.set, Function.update_of_ne hn] using h.own
  case quiet =>
    by_cases hn : (0 : Fin (k + 1)) = n
    · subst hn
      simp only [System.set, Function.update_self, h.quiet, (hm.own rfl).1, List.append_nil]
    · simpa only [System.set, Function.update_of_ne hn] using h.quiet
  case foreign =>
    intro j hj
    have hval : j.val ≠ 0 := fun h0 => hj (Fin.ext h0)
    obtain ⟨names, hnames, hsent, hids⟩ := h.foreign j hj
    have hnames' : (Function.update s.system.managers n m' 0).allObjectNames[j.val]? =
        some names := by
      by_cases hn : (0 : Fin (k + 1)) = n
      · subst hn
        rw [Function.update_self, (hm.own rfl).2.2.2 j hval, hnames]
      · rw [Function.update_of_ne hn, hnames]
    refine ⟨names, hnames', ?_⟩
    by_cases hjn : j = n
    · subst hjn
      obtain ⟨hle, hnew, hnewIds⟩ := hm.sent hval
      have hsize : (s.system.managers j).objectIdSent ≤ (s.directories j).names.length := by
        rw [Directory.names, List.length_map]
        exact (h.node j).sent_le
      have hcount : names.length + (s.system.written j).length =
          (s.system.managers j).objectIdSent := by
        have hlen := congrArg List.length hsent
        rwa [List.length_append, List.length_map, List.length_take, Nat.min_eq_left hsize] at hlen
      have hout : out.length = m'.objectIdSent - (s.system.managers j).objectIdSent := by
        have hlen := congrArg List.length hnewIds
        rwa [List.length_map, List.length_map, List.length_range'] at hlen
      simp only [System.set, Function.update_self, List.map_append, List.length_append]
      constructor
      · rw [← List.append_assoc, hsent, hnew]
        exact take_append_drop_take hm.names hsize hle
      · rw [hids, hnewIds, ← List.map_append, hout, ← hcount, List.range'_append_1]
    · simp only [System.set, Function.update_of_ne hjn]
      exact ⟨hsent, hids⟩
  case answers =>
    intro b hb
    rcases List.mem_append.1 hb with hb | hb
    · exact h.answers b hb
    · rw [List.mem_singleton.1 hb]
      exact ha
  case unique =>
    have hfresh : ∀ id, a.1.id? = some id → id ∉ s.issued := by
      intro id hid hmem
      obtain ⟨j, hj, hlt⟩ := h.issued_lt id hmem
      obtain ⟨rfl, -⟩ := hissued id hid
      obtain rfl : n = j := Fin.ext hj
      exact Nat.lt_irrefl _ hlt
    rw [issued, issued_concat]
    cases hid : a.1.id? with
    | none =>
      rw [Option.toList_none, List.append_nil]
      exact h.unique
    | some id =>
      rw [Option.toList_some, List.nodup_append]
      refine ⟨h.unique, List.nodup_singleton id, fun x hx y hy hxy => hfresh id hid ?_⟩
      rwa [← List.mem_singleton.1 hy, ← hxy]
  case issued_lt =>
    intro id hid
    obtain ⟨b, hb, hid⟩ := List.mem_filterMap.1 hid
    rcases List.mem_append.1 hb with hb | hb
    · obtain ⟨j, hj, hlt⟩ := h.issued_lt id (List.mem_filterMap.2 ⟨b, hb, hid⟩)
      exact ⟨j, hj, hlt.trans_le (hgrown j)⟩
    · rw [List.mem_singleton.1 hb] at hid
      obtain ⟨rfl, hlt⟩ := hissued id hid
      refine ⟨n, rfl, ?_⟩
      change _ < (Function.update s.directories n d' n).length
      rw [Function.update_self]
      exact hlt

/-- Node 0 reads the next name from another node. -/
theorem Inv.read (h : s.Inv) {e : ObjectInfo} {rest : List ObjectInfo}
    (hwritten : s.system.written n = e :: rest) (a : Answer × Answer) (ha : a.1 = a.2)
    (hdone : a.1.id? = none) :
    ∃ m, (s.system.managers 0).readForeignObjects e = .ok m ∧
      Inv ⟨⟨Function.update s.system.managers 0 m, Function.update s.system.written n rest⟩,
        s.directories, s.answers ++ [a]⟩ := by
  have hn : n ≠ 0 := by
    rintro rfl
    cases h.quiet.symm.trans hwritten
  have hval : n.val ≠ 0 := fun h0 => hn (Fin.ext h0)
  obtain ⟨names, hnames, hsent, hids⟩ := h.foreign n hn
  rw [hwritten] at hsent hids
  have hid : e.id = ⟨n, names.length⟩ := (List.cons.inj hids).1
  have hlt : n.val < (s.system.managers 0).allObjectNames.length :=
    (List.getElem?_eq_some_iff.1 hnames).1
  obtain ⟨m, hread, hnode, hnodes, hall⟩ : ∃ m, (s.system.managers 0).readForeignObjects e = .ok m ∧
      m.NodeInv (s.directories 0) (0 : Fin (k + 1)) ∧ m.noNodes = k + 1 ∧
      m.allObjectNames = (s.system.managers 0).allObjectNames.set n (names ++ [e.nameSet]) := by
    have h0 := h.node 0
    refine ⟨{ s.system.managers 0 with
      allObjectNames := (s.system.managers 0).allObjectNames.set n (names ++ [e.nameSet]) }, ?_,
      ⟨h0.location, h0.registry, h0.entries, h0.length_le, h0.count, h0.sent_le, h0.unsent⟩,
      h.noNodes, rfl⟩
    rw [ObjectManager.readForeignObjects, hid, h.noNodes, if_pos n.isLt, ObjectManager.storeName]
    simp only [hnames, if_true]
  refine ⟨m, hread, ?_⟩
  constructor
  case node =>
    intro j
    by_cases hj : j = 0
    · subst hj
      simpa only [Function.update_self] using hnode
    · simpa only [Function.update_of_ne hj] using h.node j
  case noNodes => simpa only [Function.update_self] using hnodes
  case own =>
    simp only [Function.update_self]
    rw [hall, List.getElem?_set_ne hval]
    exact h.own
  case quiet => simpa only [Function.update_of_ne hn.symm] using h.quiet
  case foreign =>
    intro j hj
    simp only [Function.update_self, Function.update_of_ne hj, hall]
    by_cases hjn : j = n
    · subst hjn
      refine ⟨names ++ [e.nameSet], List.getElem?_set_self hlt, ?_, ?_⟩
      · rw [Function.update_self, ← hsent, List.map_cons, List.append_assoc]
        rfl
      · rw [Function.update_self, List.length_append]
        exact (List.cons.inj hids).2
    · have hvals : n.val ≠ j.val := fun heq => hjn (Fin.ext heq.symm)
      rw [List.getElem?_set_ne hvals, Function.update_of_ne hjn]
      exact h.foreign j hj
  case answers =>
    intro b hb
    rcases List.mem_append.1 hb with hb | hb
    · exact h.answers b hb
    · rw [List.mem_singleton.1 hb]
      exact ha
  case unique =>
    rw [issued, issued_concat, hdone, Option.toList_none, List.append_nil]
    exact h.unique
  case issued_lt =>
    rw [issued, issued_concat, hdone, Option.toList_none, List.append_nil]
    exact h.issued_lt

/-- A careful call. -/
theorem Inv.step (h : s.Inv) {c : Call k O} (hc : s.Careful c) :
    ∃ s', s.step c = .ok s' ∧ s'.Inv := by
  -- For calls that leave the directory as it is.
  have hsame : ∀ {n m' out}, Moves (s.system.managers n) m' (s.directories n) (s.directories n) n
      out → Inv ⟨s.system.set n m' out, s.directories, s.answers ++ [(.done, .done)]⟩ := by
    intro n m' out hm
    have hset := h.set hm (a := (.done, .done)) rfl fun _ hid => by cases hid
    rwa [Function.update_eq_self] at hset
  cases c with
  | request n o ns =>
    obtain ⟨hns, hfree, hlen⟩ := hc
    obtain ⟨m', out, hrequest, hm⟩ := moves_request (h.node n) o hns hfree hlen
      (fun h0 => by
        obtain rfl : n = 0 := Fin.ext h0
        exact h.own)
    have hfind : ¬((s.directories n).find ns).isSome = true := by
      rw [← (h.node n).findObject_eq, ObjectManager.findObject, hfree]
      exact Bool.false_ne_true
    refine ⟨_, ?_, h.set hm (a := (.issued ⟨n, (s.directories n).length⟩,
      .issued ⟨n, (s.directories n).length⟩)) rfl fun id hid =>
        ⟨(Option.some.inj hid).symm, by rw [List.length_append]; exact Nat.lt_succ_self _⟩⟩
    simp only [Session.step, System.step, hrequest, Directories.apply, if_neg hfind]
  | release n id =>
    refine ⟨_, rfl, h.set (moves_release (h.node n) ?_) rfl fun _ hid => by cases hid⟩
    exact hc.imp_left fun h0 => congrArg Fin.val h0
  | tokenValid n valid =>
    have hn := h.node n
    exact ⟨_, rfl, hsame (.silent ⟨hn.location, hn.registry, hn.entries, hn.length_le, hn.count,
      hn.sent_le, hn.unsent⟩ rfl rfl rfl rfl)⟩
  | sendAll n => exact ⟨_, rfl, hsame (moves_sendAll (h.node n))⟩
  | read n =>
    cases hwritten : s.system.written n with
    | nil =>
      have hn := h.node n
      refine ⟨⟨s.system, s.directories, s.answers ++ [(.done, .done)]⟩, ?_, ?_⟩
      · simp only [Session.step, System.step, hwritten, Directories.apply]
      · have hset := hsame (Moves.silent hn rfl rfl rfl rfl)
        rwa [System.set, List.append_nil, Function.update_eq_self, Function.update_eq_self]
          at hset
    | cons e rest =>
      obtain ⟨m, hread, hinv⟩ := h.read hwritten (.done, .done) rfl rfl
      refine ⟨_, ?_, hinv⟩
      simp only [Session.step, System.step, hwritten, hread, Directories.apply]

end Session

/-- In runs of careful calls no assertion fails, and the managers and the directories agree. -/
theorem directory_of_run (calls : List (Call k O))
    (h : Allowed Session.step Session.Careful (Session.init k O) calls) :
    ∃ s, exec Session.step (Session.init k O) calls = .ok s ∧ s.Consistent := by
  obtain ⟨s, hs, hinv⟩ := exec_progress (I := Session.Inv) (fun _ _ hs hc => hs.step hc)
    (Session.inv_init k O) h
  exact ⟨s, hs, hinv.consistent⟩

/-- The condition on calls, as a test. -/
def Session.careful (s : Session k O) : Call k O → Bool
  | .request n _ ns => ns ≠ nsdum && !(s.system.managers n).containsName ns &&
      (s.directories n).length < 2 ^ 16
  | .release n id => (haveI _ := node_zero k; n = 0) || !(s.system.managers n).containsId id ||
      id < (s.system.managers n).objectIdSent
  | .tokenValid _ _ => true
  | .sendAll _ => true
  | .read _ => true

theorem Session.careful_iff {s : Session k O} {c : Call k O} : s.careful c = true ↔ s.Careful c := by
  cases c <;> simp [Session.careful, Session.Careful, and_assoc, or_assoc]

/-- A name with a class only. -/
def ofClass (c : Char) : NameSet := c :: nsdum

/-- There are two nodes. -/
theorem two_nodes : NeZero (1 + 1) := inferInstance

/-- Objects at two nodes: the names from node 1 are sent when the channel can be used. -/
def twoNodes : List (Call 1 ℕ) :=
  haveI := two_nodes
  [.request 0 1 (ofClass 'a'), .request 1 2 (ofClass 'a'), .request 1 3 (ofClass 'b'),
    .tokenValid 1 true, .sendAll 1, .release 1 0, .read 1, .request 1 4 (ofClass 'a'), .read 1]

theorem directory_of_run_twoNodes :
    Allowed Session.step Session.Careful (Session.init 1 ℕ) twoNodes ∧
      ∃ s, exec Session.step (Session.init 1 ℕ) twoNodes = .ok s ∧ s.Consistent := by
  have hallowed : Allowed Session.step Session.Careful (Session.init 1 ℕ) twoNodes :=
    allowed_of_checks (fun _ _ => Session.careful_iff.1) (by decide +kernel)
  exact ⟨hallowed, directory_of_run twoNodes hallowed⟩

/-- A name is requested twice at node 0, and then another one. -/
def againAndNext : List (Call 0 ℕ) :=
  [.request 0 1 (ofClass 'a'), .request 0 2 (ofClass 'a'), .request 0 3 (ofClass 'b')]

/-- After the request that is refused, the assertion in the next one fails. -/
theorem not_consistent_refused :
    ¬∃ s, exec Session.step (Session.init 0 ℕ) againAndNext = .ok s ∧ s.Consistent := by
  rintro ⟨s, hs, -⟩
  have herror : exec Session.step (Session.init 0 ℕ) againAndNext = .error () := rfl
  cases herror.symm.trans hs

end Dueca.Objects
