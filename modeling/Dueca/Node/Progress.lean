import Dueca.Node.Model
import Dueca.Lib.History

/-!
# Progress of the system

As long as the system is not broken up, what a node reports has been reached by all nodes: a
report that it has joined comes after each node has reported that it is joining, and a report
that it is synchronised after each node has reported that it has joined. Timing may be lost and
found again, but a node that has seen the system complete keeps seeing it so.
-/

namespace Dueca.Node

open Dueca.Lib NodeState

variable {n : ℕ} {s t : System n} {i j : Fin n} {m : NodeManager n} {a : NodeState}

/-- The node has joined, and may be synchronised. -/
def Settled (a : NodeState) : Prop := a = nodeJoined ∨ a = nodeSynced

/-- The node is joining, or has joined. -/
def Started (a : NodeState) : Prop := a = nodeJoining ∨ Settled a

/-- Messages other than those that stop the system. -/
def Mild (a : NodeState) : Prop := Started a ∨ a = nodeQuery ∨ a = emergency

theorem Settled.started (h : Settled a) : Started a := .inr h

theorem started_joining : Started nodeJoining := .inl rfl

theorem Started.settled (h : Started a) (hne : a ≠ nodeJoining) : Settled a := h.resolve_left hne

theorem Settled.ne_joining (h : Settled a) : a ≠ nodeJoining := by
  rcases h with rfl | rfl <;> decide

namespace NodeManager

theorem isDuecaComplete_iff : m.isDuecaComplete = true ↔ ∀ j, Settled (m.nodeState j) :=
  decide_eq_true_iff

theorem isDuecaCompleting_iff : m.isDuecaCompleting = true ↔ ∀ j, Started (m.nodeState j) := by
  simp only [isDuecaCompleting, decide_eq_true_iff, Started, Settled]
  exact forall_congr' fun j => or_left_comm

@[simp] theorem slowDown_nodeState : m.slowDown.nodeState = m.nodeState := by
  unfold slowDown
  split <;> rfl

@[simp] theorem slowDown_breaking : m.slowDown.breaking = m.breaking := by
  unfold slowDown
  split <;> rfl

/-- What a manager may send, going by its view of the nodes. -/
structure MaySend (m : NodeManager n) (a : NodeState) : Prop where
  mild : Mild a
  joining : a = nodeJoining → ¬ m.isDuecaCompleting
  settled : Settled a → m.isDuecaCompleting
  synced : a = nodeSynced → m.isDuecaComplete

theorem completing_of_complete (h : m.isDuecaComplete = true) : m.isDuecaCompleting = true :=
  isDuecaCompleting_iff.mpr fun j => (isDuecaComplete_iff.mp h j).started

/-- An answer to a query fits with the view of the nodes. -/
theorem maySend_reply (hbreaking : m.breaking = false) : m.MaySend m.reply := by
  unfold reply
  rw [hbreaking, if_neg Bool.false_ne_true]
  split
  · rename_i h
    have hcomplete := (Bool.and_eq_true _ _ ▸ h).1
    exact ⟨.inl (.inr (.inr rfl)), (nofun), fun _ => completing_of_complete hcomplete,
      fun _ => hcomplete⟩
  split
  · rename_i h
    exact ⟨.inl (.inr (.inl rfl)), (nofun), fun _ => h, (nofun)⟩
  · rename_i h
    exact ⟨.inl started_joining, fun _ => h, fun hs => absurd rfl hs.ne_joining, (nofun)⟩

theorem maySend_query : m.MaySend nodeQuery where
  mild := .inr (.inl rfl)
  joining := nofun
  settled h := by rcases h with h | h <;> cases h
  synced := nofun

theorem maySend_emergency : m.MaySend emergency where
  mild := .inr (.inr rfl)
  joining := nofun
  settled h := by rcases h with h | h <;> cases h
  synced := nofun

/-- What may be sent depends on the view only. -/
theorem MaySend.of_eq {m' : NodeManager n} (h : m.MaySend a)
    (heq : m'.nodeState = m.nodeState) : m'.MaySend a := by
  have hcompleting : m'.isDuecaCompleting = m.isDuecaCompleting := by
    simp only [isDuecaCompleting, heq]
  have hcomplete : m'.isDuecaComplete = m.isDuecaComplete := by
    simp only [isDuecaComplete, heq]
  exact ⟨h.mild, hcompleting ▸ h.joining, hcompleting ▸ h.settled, hcomplete ▸ h.synced⟩

/-- A node that has started is still started in the view of the manager, and one that has joined
has still joined. -/
structure Ahead (m m' : NodeManager n) : Prop where
  started : ∀ j, Started (m.nodeState j) → Started (m'.nodeState j)
  settled : ∀ j, Settled (m.nodeState j) → Settled (m'.nodeState j)

theorem Ahead.of_eq {m m' : NodeManager n} (h : m'.nodeState = m.nodeState) : Ahead m m' :=
  ⟨fun j => by rw [h]; exact id, fun j => by rw [h]; exact id⟩

theorem Ahead.complete {m m' : NodeManager n} (h : Ahead m m') :
    m.isDuecaComplete = true → m'.isDuecaComplete = true := by
  simp only [isDuecaComplete_iff]
  exact fun hm j => h.settled j (hm j)

theorem Ahead.completing {m m' : NodeManager n} (h : Ahead m m') :
    m.isDuecaCompleting = true → m'.isDuecaCompleting = true := by
  simp only [isDuecaCompleting_iff]
  exact fun hm j => h.started j (hm j)

end NodeManager

open NodeManager

/-! ### Messages of a writer -/

@[simp] theorem System.act_nodes_self {sent : List NodeState} :
    (s.act i m sent).nodes i = m := Function.update_self ..

@[simp] theorem System.act_nodes_of_ne {sent : List NodeState} (h : j ≠ i) :
    (s.act i m sent).nodes j = s.nodes j := Function.update_of_ne h ..

@[simp] theorem System.act_read {sent : List NodeState} : (s.act i m sent).read = s.read := rfl

theorem System.act_entry {sent : List NodeState} :
    (s.act i m sent).entry j = s.entry j ++ if j = i then sent else [] := by
  simp only [entry, act, List.filter_append, List.map_append]
  by_cases h : j = i
  · subst h
    simp [List.filter_map, Function.comp_def]
  · have hne : ¬ i = j := fun e => h e.symm
    simp [List.filter_map, Function.comp_def, h, hne]

@[simp] theorem System.advance_entry {k : Fin n} : (s.advance i j).entry k = s.entry k := rfl

theorem System.le_advance_read {k l : Fin n} : s.read k l ≤ (s.advance i j).read k l := by
  unfold advance
  by_cases hk : k = i
  · subst hk
    by_cases hl : l = j
    · subst hl
      simp
    · simp [hl]
  · simp [hk]

theorem System.mem_entry : a ∈ s.entry j ↔ (j, a) ∈ s.log := by
  simp only [entry, List.mem_map, List.mem_filter, decide_eq_true_eq]
  constructor
  · rintro ⟨⟨_, _⟩, ⟨hmem, rfl⟩, rfl⟩
    exact hmem
  · intro h
    exact ⟨(j, a), ⟨h, rfl⟩, rfl⟩

/-! ### The invariant -/

/-- What each message needs of the messages before it. -/
def Reached (before : List (Fin n × NodeState)) (p : Fin n × NodeState) : Prop :=
  (p.2 = nodeJoined → ∀ j, ∃ b, Started b ∧ (j, b) ∈ before) ∧
  (p.2 = nodeSynced → ∀ j, ∃ b, Settled b ∧ (j, b) ∈ before)

/-- What holds in all runs that do not break up the system. -/
structure Inv (s : System n) : Prop where
  calm : ∀ i, (s.nodes i).breaking = false
  mild : ∀ p ∈ s.log, Mild p.2
  /-- A view of a node comes from what was read of it. -/
  seen : ∀ i j, (s.nodes i).nodeState j = nodeLoose ∨
    (s.nodes i).nodeState j ∈ (s.entry j).take (s.read i j)
  /-- A node that has joined does not go back to joining. -/
  ordered : ∀ j, (s.entry j).Pairwise fun a b => Settled a → b ≠ nodeJoining
  completing : ∀ j, ∀ a ∈ s.entry j, Settled a → (s.nodes j).isDuecaCompleting
  complete : ∀ j, nodeSynced ∈ s.entry j → (s.nodes j).isDuecaComplete
  reached : Preceded Reached s.log

theorem inv_init (n : ℕ) : Inv (System.init n) where
  calm _ := rfl
  mild _ h := nomatch h
  seen _ _ := .inl rfl
  ordered _ := List.Pairwise.nil
  completing _ _ h := nomatch h
  complete _ h := nomatch h
  reached := preceded_nil

/-- A view of a node that is not the initial one has been sent. -/
theorem Inv.sent (h : Inv s) (hne : (s.nodes i).nodeState j ≠ nodeLoose) :
    (j, (s.nodes i).nodeState j) ∈ s.log :=
  System.mem_entry.mp (List.mem_of_mem_take ((h.seen i j).resolve_left hne))

theorem Started.ne_loose (h : Started a) : a ≠ nodeLoose := by
  rcases h with rfl | rfl | rfl <;> decide

/-- A manager changes without sending. -/
theorem Inv.quiet (h : Inv s) (hbreaking : m.breaking = false) (hahead : Ahead (s.nodes i) m)
    (hseen : ∀ j, m.nodeState j = nodeLoose ∨ m.nodeState j ∈ (s.entry j).take (s.read i j)) :
    Inv (s.act i m []) := by
  have hentry : ∀ j, (s.act i m []).entry j = s.entry j := fun j => by simp [System.act_entry]
  have hlog : (s.act i m []).log = s.log := by simp [System.act]
  constructor
  case calm =>
    intro k
    by_cases hk : k = i
    · subst hk
      rwa [System.act_nodes_self]
    · rw [System.act_nodes_of_ne hk]
      exact h.calm k
  case mild => exact hlog ▸ h.mild
  case seen =>
    intro k j
    rw [hentry, System.act_read]
    by_cases hk : k = i
    · subst hk
      rw [System.act_nodes_self]
      exact hseen j
    · rw [System.act_nodes_of_ne hk]
      exact h.seen k j
  case ordered => exact fun j => hentry j ▸ h.ordered j
  case completing =>
    intro k a ha hs
    have hk := h.completing k a (hentry k ▸ ha) hs
    by_cases hki : k = i
    · subst hki
      rw [System.act_nodes_self]
      exact hahead.completing hk
    · rwa [System.act_nodes_of_ne hki]
  case complete =>
    intro k ha
    have hk := h.complete k (hentry k ▸ ha)
    by_cases hki : k = i
    · subst hki
      rw [System.act_nodes_self]
      exact hahead.complete hk
    · rwa [System.act_nodes_of_ne hki]
  case reached => exact hlog ▸ h.reached

/-- A manager sends what fits with its view of the nodes. -/
theorem Inv.send (h : Inv s) (hsend : (s.nodes i).MaySend a) :
    Inv (s.act i (s.nodes i) [a]) := by
  have hnodes : (s.act i (s.nodes i) [a]).nodes = s.nodes := Function.update_eq_self ..
  have hlog : (s.act i (s.nodes i) [a]).log = s.log ++ [(i, a)] := rfl
  constructor
  case calm =>
    intro k
    rw [hnodes]
    exact h.calm k
  case mild =>
    intro p hp
    rw [hlog, List.mem_append, List.mem_singleton] at hp
    rcases hp with hp | rfl
    · exact h.mild p hp
    · exact hsend.mild
  case seen =>
    intro k j
    rw [hnodes, System.act_entry]
    refine (h.seen k j).imp_right fun hk => ?_
    rw [System.act_read, List.take_append]
    exact List.mem_append_left _ hk
  case ordered =>
    intro j
    rw [System.act_entry]
    split
    · rename_i hj
      subst hj
      refine List.pairwise_append.mpr ⟨h.ordered j, List.pairwise_singleton .., ?_⟩
      intro b hb c hc hset hjoin
      rw [List.mem_singleton] at hc
      subst hc
      exact hsend.joining hjoin (h.completing j b hb hset)
    · rw [List.append_nil]
      exact h.ordered j
  case completing =>
    intro k b hb hset
    rw [hnodes]
    rw [System.mem_entry, hlog, List.mem_append, List.mem_singleton, Prod.mk.injEq] at hb
    rcases hb with hb | ⟨rfl, rfl⟩
    · exact h.completing k b (System.mem_entry.mpr hb) hset
    · exact hsend.settled hset
  case complete =>
    intro k hb
    rw [hnodes]
    rw [System.mem_entry, hlog, List.mem_append, List.mem_singleton, Prod.mk.injEq] at hb
    rcases hb with hb | ⟨rfl, rfl⟩
    · exact h.complete k (System.mem_entry.mpr hb)
    · exact hsend.synced rfl
  case reached =>
    rw [hlog, preceded_concat]
    refine ⟨h.reached, fun ha j => ?_, fun ha j => ?_⟩
    · have hj := isDuecaCompleting_iff.mp (hsend.settled (.inl ha)) j
      exact ⟨_, hj, h.sent hj.ne_loose⟩
    · have hj := isDuecaComplete_iff.mp (hsend.synced ha) j
      exact ⟨_, hj, h.sent hj.started.ne_loose⟩

theorem System.act_act {m' : NodeManager n} {sent : List NodeState} :
    (s.act i m []).act i m' sent = s.act i m' sent := by
  simp [act]

/-- A manager changes, and then sends what fits with its view. -/
theorem Inv.act_send (h : Inv (s.act i m [])) (hsend : m.MaySend a) : Inv (s.act i m [a]) := by
  have hnode : (s.act i m []).nodes i = m := System.act_nodes_self
  have := h.send (i := i) (a := a) (by rwa [hnode])
  rwa [hnode, System.act_act] at this

theorem Inv.advance (h : Inv s) : Inv (s.advance i j) where
  calm := h.calm
  mild := h.mild
  seen k l := (h.seen k l).imp_right fun hk =>
    List.take_subset_take_left _ System.le_advance_read hk
  ordered := h.ordered
  completing := h.completing
  complete := h.complete
  reached := h.reached

/-- The next message of a writer. -/
theorem Inv.next (h : Inv s) (ha : (s.entry j)[s.read i j]? = some a) :
    Mild a ∧ (Settled ((s.nodes i).nodeState j) → a ≠ nodeJoining) := by
  obtain ⟨hlt, ha⟩ := List.getElem?_eq_some_iff.mp ha
  have hmem : a ∈ s.entry j := ha ▸ List.getElem_mem hlt
  refine ⟨h.mild _ (System.mem_entry.mp hmem), fun hset => ?_⟩
  -- the view was sent before this message
  have hview := (h.seen i j).resolve_left hset.started.ne_loose
  have hdrop : a ∈ (s.entry j).drop (s.read i j) := by
    rw [List.drop_eq_getElem_cons hlt, ha]
    exact List.mem_cons_self
  have horder := h.ordered j
  rw [← List.take_append_drop (s.read i j) (s.entry j), List.pairwise_append] at horder
  exact horder.2.2 _ hview a hdrop hset

/-- With the next message of a writer as its view of that node, a manager is ahead. -/
theorem Inv.ahead_note (h : Inv s) (ha : (s.entry j)[s.read i j]? = some a) (hstart : Started a)
    (hm : m.nodeState = Function.update (s.nodes i).nodeState j a) : Ahead (s.nodes i) m := by
  obtain ⟨-, hnext⟩ := h.next ha
  constructor
  · intro k hk
    rw [hm]
    by_cases hkj : k = j
    · subst hkj
      rwa [Function.update_self]
    · rwa [Function.update_of_ne hkj]
  · intro k hk
    rw [hm]
    by_cases hkj : k = j
    · subst hkj
      rw [Function.update_self]
      exact hstart.settled (hnext hk)
    · rwa [Function.update_of_ne hkj]

/-- The next message of a writer becomes the view of that node. -/
theorem Inv.note (h : Inv s) (ha : (s.entry j)[s.read i j]? = some a) (hstart : Started a)
    (hm : m.nodeState = Function.update (s.nodes i).nodeState j a)
    (hbreaking : m.breaking = false) : Inv ((s.advance i j).act i m []) := by
  refine h.advance.quiet hbreaking (h.ahead_note ha hstart hm) fun k => ?_
  rw [hm]
  by_cases hkj : k = j
  · subst hkj
    rw [Function.update_self]
    right
    obtain ⟨hlt, rfl⟩ := List.getElem?_eq_some_iff.mp ha
    have hread : (s.advance i k).read i k = s.read i k + 1 := by simp [System.advance]
    rw [hread, System.advance_entry, List.take_succ_eq_append_getElem hlt]
    exact List.mem_append_right _ (List.mem_singleton_self _)
  · rw [Function.update_of_ne hkj]
    exact h.advance.seen i k

/-! ### Runs -/

/-- Each manager is ahead of what it was. -/
def AllAhead (s t : System n) : Prop := ∀ i, Ahead (s.nodes i) (t.nodes i)

theorem AllAhead.refl (s : System n) : AllAhead s s := fun _ => .of_eq rfl

theorem AllAhead.trans {u : System n} (h : AllAhead s t) (h' : AllAhead t u) : AllAhead s u :=
  fun i => ⟨fun j hj => (h' i).started j ((h i).started j hj),
    fun j hj => (h' i).settled j ((h i).settled j hj)⟩

theorem allAhead_act {sent : List NodeState} (h : Ahead (s.nodes i) m) :
    AllAhead s (s.act i m sent) := by
  intro k
  by_cases hk : k = i
  · subst hk
    rwa [System.act_nodes_self]
  · rw [System.act_nodes_of_ne hk]
    exact .of_eq rfl

/-- A change that leaves the view of the nodes alone. -/
theorem Inv.same (h : Inv s) (hm : m.nodeState = (s.nodes i).nodeState)
    (hbreaking : m.breaking = (s.nodes i).breaking) : Inv (s.act i m []) :=
  h.quiet (hbreaking.trans (h.calm i)) (.of_eq hm) fun j => hm ▸ h.seen i j

theorem note_of_fin (j : Fin n) (a : NodeState) : m.note j a =
    .ok { m with nodeState := Function.update m.nodeState j a } := by
  simp [NodeManager.note, Nat.not_lt.mpr j.isLt.le]

/-- Handling a message keeps the invariant. -/
theorem Inv.processMessages (h : Inv s) (ha : (s.entry j)[s.read i j]? = some a) :
    ∃ m sent, (s.nodes i).processMessages j a = .ok (m, sent) ∧ Ahead (s.nodes i) m ∧
      Inv ((s.advance i j).act i m sent) := by
  obtain ⟨hmild, -⟩ := h.next ha
  have hadvance := h.advance (i := i) (j := j)
  rcases hmild with hstart | rfl | rfl
  · -- a report: the view of `j` changes
    have heq : (s.nodes i).processMessages j a = .ok ({ s.nodes i with
        nodeState := Function.update (s.nodes i).nodeState j a }.slowDown, []) := by
      rcases hstart with rfl | rfl | rfl <;> simp [NodeManager.processMessages, note_of_fin]
    exact ⟨_, _, heq, h.ahead_note ha hstart slowDown_nodeState,
      h.note ha hstart slowDown_nodeState (slowDown_breaking.trans (h.calm i))⟩
  · -- a query
    refine ⟨_, _, rfl, .of_eq slowDown_nodeState, ?_⟩
    have hquiet : Inv ((s.advance i j).act i (s.nodes i).slowDown []) :=
      hadvance.same slowDown_nodeState slowDown_breaking
    split
    · exact hquiet.act_send ((maySend_reply (h.calm i)).of_eq slowDown_nodeState)
    · exact hquiet
  · -- an emergency
    exact ⟨_, _, rfl, .of_eq slowDown_nodeState, hadvance.same slowDown_nodeState slowDown_breaking⟩

/-- An event, other than a break, keeps the invariant, and no manager falls behind. -/
theorem Inv.step {input : Input n} (h : Inv s) (hno : ∀ i, input ≠ .breakUp i) :
    ∃ t, step s input = .ok t ∧ Inv t ∧ AllAhead s t := by
  cases input with
  | writeIsValid i => exact ⟨_, rfl, h.same rfl rfl, allAhead_act (.of_eq rfl)⟩
  | readIsValid i => exact ⟨_, rfl, h.same rfl rfl, allAhead_act (.of_eq rfl)⟩
  | ticker i synced => exact ⟨_, rfl, h.same rfl rfl, allAhead_act (.of_eq rfl)⟩
  | breakUp i => exact absurd rfl (hno i)
  | emitQuery i =>
    refine ⟨_, rfl, ?_⟩
    split
    · refine ⟨?_, allAhead_act (.of_eq rfl)⟩
      unfold NodeManager.emitQuery
      split
      · exact h.send maySend_query
      · exact h.same rfl rfl
    · exact ⟨h, .refl s⟩
  | emergency i =>
    refine ⟨_, rfl, ?_⟩
    split
    · have hquiet : Inv (s.act i { s.nodes i with critical := true } []) := h.same rfl rfl
      exact ⟨hquiet.act_send maySend_emergency, allAhead_act (.of_eq rfl)⟩
    · exact ⟨h, .refl s⟩
  | processMessages i j =>
    simp only [Node.step]
    split
    · cases ha : (s.entry j)[s.read i j]? with
      | none => exact ⟨s, rfl, h, .refl s⟩
      | some a =>
        obtain ⟨m, sent, heq, hahead, hinv⟩ := h.processMessages ha
        simp only [heq]
        have hall : AllAhead (s.advance i j) ((s.advance i j).act i m sent) := allAhead_act hahead
        exact ⟨_, rfl, hinv, hall⟩
    · exact ⟨s, rfl, h, .refl s⟩

/-- A run without a break goes through, keeps the invariant, and no manager falls behind. -/
theorem Inv.run {inputs : List (Input n)} (h : Inv s) (hno : ∀ i, .breakUp i ∉ inputs) :
    ∃ t, exec Node.step s inputs = .ok t ∧ Inv t ∧ AllAhead s t := by
  have hok : Allowed Node.step (fun _ input => ∀ i, input ≠ .breakUp i) s inputs :=
    .of_forall fun input hmem _ i heq => hno i (heq ▸ hmem)
  refine exec_progress (I := fun u => Inv u ∧ AllAhead s u) ?_ ⟨h, .refl s⟩ hok
  rintro u input ⟨hu, hahead⟩ hinput
  obtain ⟨v, hstep, hv, hahead'⟩ := hu.step hinput
  exact ⟨v, hstep, hv, hahead.trans hahead'⟩

/-- The reports of the nodes agree with each other. -/
structure ReportsProgress (s : System n) : Prop where
  /-- A node that reports to have joined comes after all have reported to be joining. -/
  joined : ∀ before i after, s.log = before ++ (i, nodeJoined) :: after →
    ∀ j, (j, nodeJoining) ∈ before ∨ (j, nodeJoined) ∈ before ∨ (j, nodeSynced) ∈ before
  /-- A node that reports to be synchronised comes after all have reported to have joined. -/
  synced : ∀ before i after, s.log = before ++ (i, nodeSynced) :: after →
    ∀ j, (j, nodeJoined) ∈ before ∨ (j, nodeSynced) ∈ before
  /-- A node that has reported to have joined does not report to be joining. -/
  settled : ∀ before i after, s.log = before ++ (i, nodeJoined) :: after →
    (i, nodeJoining) ∉ after
  /-- If a node sees the system synchronised, all nodes have seen it complete. -/
  complete : ∀ i, (s.nodes i).isDuecaSynced → ∀ j, (s.nodes j).isDuecaComplete

theorem System.entry_of_log {before after : List (Fin n × NodeState)} {p : Fin n × NodeState}
    (h : s.log = before ++ p :: after) : ∃ as bs, s.entry p.1 = as ++ p.2 :: bs ∧
      ∀ b, (p.1, b) ∈ after → b ∈ bs := by
  refine ⟨(before.filter (·.1 = p.1)).map (·.2), (after.filter (·.1 = p.1)).map (·.2), ?_, ?_⟩
  · simp [entry, h]
  · intro b hb
    exact List.mem_map.mpr ⟨(p.1, b), List.mem_filter.mpr ⟨hb, by simp⟩, rfl⟩

theorem Inv.reportsProgress (h : Inv s) : ReportsProgress s where
  joined before i after heq j := by
    obtain ⟨b, rfl | rfl | rfl, hmem⟩ := (h.reached before _ after heq).1 rfl j
    · exact .inl hmem
    · exact .inr (.inl hmem)
    · exact .inr (.inr hmem)
  synced before i after heq j := by
    obtain ⟨b, rfl | rfl, hmem⟩ := (h.reached before _ after heq).2 rfl j
    · exact .inl hmem
    · exact .inr hmem
  settled before i after heq hmem := by
    obtain ⟨as, bs, hentry, hafter⟩ := System.entry_of_log heq
    have horder := h.ordered i
    rw [hentry, List.pairwise_append, List.pairwise_cons] at horder
    exact horder.2.1.1 _ (hafter _ hmem) (.inl rfl) rfl
  complete i hi j := by
    have hj : (s.nodes i).nodeState j = nodeSynced := decide_eq_true_iff.mp hi j
    have hsent := h.sent (i := i) (j := j) (by rw [hj]; decide)
    rw [hj] at hsent
    exact h.complete j (System.mem_entry.mpr hsent)

/-- Nodes only report progress that the whole system has made, and a system that is seen to be
complete, or completing, stays so. -/
theorem reportsProgress_of_run (n : ℕ) (inputs later : List (Input n))
    (hno : ∀ i, .breakUp i ∉ inputs ++ later) :
    ∃ s t, exec step (System.init n) inputs = .ok s ∧ exec step s later = .ok t ∧
      ReportsProgress t ∧
      ∀ i, ((s.nodes i).isDuecaComplete → (t.nodes i).isDuecaComplete) ∧
        ((s.nodes i).isDuecaCompleting → (t.nodes i).isDuecaCompleting) := by
  simp only [List.mem_append, not_or] at hno
  obtain ⟨s, hs, hinv, -⟩ := (inv_init n).run fun i => (hno i).1
  obtain ⟨t, ht, hinv', hahead⟩ := hinv.run fun i => (hno i).2
  exact ⟨s, t, hs, ht, hinv'.reportsProgress, fun i =>
    ⟨(hahead i).complete, (hahead i).completing⟩⟩

/-- Node 0 queries, and both nodes handle the query and then their two answers. -/
def sampleRound : List (Input 2) :=
  [.emitQuery 0, .processMessages 0 0, .processMessages 1 0, .processMessages 0 0,
    .processMessages 0 1, .processMessages 1 0, .processMessages 1 1]

/-- Two nodes start, with their tickers synchronised. -/
def sampleStart : List (Input 2) :=
  [.writeIsValid 0, .writeIsValid 1, .readIsValid 0, .readIsValid 1, .ticker 0 true, .ticker 1 true]

theorem reportsProgress_sampleRounds :
    ∃ s t, exec step (System.init 2) (sampleStart ++ sampleRound) = .ok s ∧
      exec step s (sampleRound ++ sampleRound) = .ok t ∧ ReportsProgress t ∧
      ∀ i, ((s.nodes i).isDuecaComplete → (t.nodes i).isDuecaComplete) ∧
        ((s.nodes i).isDuecaCompleting → (t.nodes i).isDuecaCompleting) :=
  reportsProgress_of_run 2 (sampleStart ++ sampleRound) (sampleRound ++ sampleRound) (by decide)

/-- After three rounds the nodes see the system synchronised. -/
example : endsIn step (System.init 2)
    (sampleStart ++ sampleRound ++ sampleRound ++ sampleRound)
    (fun t => (t.nodes 0).isDuecaSynced && (t.nodes 1).isDuecaSynced) = true := by decide

end Dueca.Node
