import Dueca.Net.Nodes
import Dueca.Net.PeerCount

/-!
# The admission of nodes in the order of the list

The network master accepts peers by the size of one map, and fills its messages by
comparing that size with the count of active peers. This module follows the map, the list
of peers and the nodes accepted through the checks, and shows for which runs each node of
the list is accepted once and in its turn, and messages are filled with work exactly when
all nodes are active.
-/

namespace Dueca.Net

open Dueca.Lib NetCommunicatorMaster DuecaNetMaster

variable {c : NodeList} {d d' : DuecaNetMaster} {m m' : NetCommunicatorMaster}
variable {info metainfo : MetaInfo} {ps : List (ℕ × NodeConfig)} {peer : CommPeer}
variable {warnings : Bool} {i peerId : ℕ}

/-! ### The list and the map -/

theorem NodeList.nodup (c : NodeList) : c.peerNodeids.Nodup :=
  (c.complete.nodup_iff.mpr List.nodup_range).of_cons

/-- A list without repetition that stays within another is as long only if it has all of
it. -/
theorem length_eq_iff_subset {α : Type} {l L : List α} (hl : l.Nodup) (hL : L.Nodup)
    (hsub : l ⊆ L) : l.length = L.length ↔ L ⊆ l := by
  constructor
  · intro hlen
    exact ((List.subperm_of_subset hl hsub).perm_of_length_le hlen.ge).symm.subset
  · intro hsub'
    exact ((List.perm_ext_iff_of_nodup hl hL).mpr
      fun _ => ⟨fun h => hsub h, fun h => hsub' h⟩).length_eq

/-- The order of a node is one more than a place of it in the list. -/
theorem sendOrder_cases (ids : List ℕ) (nodeid : ℕ) :
    (nodeid ∉ ids ∧ sendOrder ids nodeid = 0) ∨
      ∃ k, ids[k]? = some nodeid ∧ sendOrder ids nodeid = k + 1 := by
  have hfold : ∀ start order,
      (nodeid ∉ ids ∧ (ids.zipIdx start).foldl
        (fun order p => if p.1 = nodeid then p.2 + 1 else order) order = order) ∨
      ∃ k, ids[k]? = some nodeid ∧ (ids.zipIdx start).foldl
        (fun order p => if p.1 = nodeid then p.2 + 1 else order) order = start + k + 1 := by
    induction ids with
    | nil => exact fun _ _ => .inl ⟨List.not_mem_nil, rfl⟩
    | cons a ids ih =>
      intro start order
      rw [List.zipIdx_cons, List.foldl_cons]
      obtain ⟨hnot, hfold⟩ | ⟨k, hk, hfold⟩ := ih (start + 1) (if a = nodeid then start + 1 else order)
      · by_cases ha : a = nodeid
        · exact .inr ⟨0, by simp [ha], by simpa [ha] using hfold⟩
        · exact .inl ⟨by simp [hnot, Ne.symm ha], by simpa [ha] using hfold⟩
      · exact .inr ⟨k + 1, by simpa using hk, by rw [hfold]; omega⟩
  obtain h | ⟨k, hk, h⟩ := hfold 0 0
  · exact .inl h
  · exact .inr ⟨k, hk, by simpa [sendOrder] using h⟩

/-- Peers and the nodes that they are entered with. -/
def registrations (metainfo : MetaInfo) : List (ℕ × ℕ) :=
  metainfo.entries.map fun e => (e.1, e.2.nodeid)

/-- Peers and the nodes that they are, or are to be, entered with. -/
def said (metainfo : MetaInfo) (payloads : List (ℕ × NodeConfig)) : List (ℕ × ℕ) :=
  registrations metainfo ++ payloads.map fun p => (p.1, p.2.nodeid)

/-- One peer is one node. -/
def OneToOne (l : List (ℕ × ℕ)) : Prop := ∀ a ∈ l, ∀ b ∈ l, a.1 = b.1 ↔ a.2 = b.2

theorem OneToOne.mono {l l' : List (ℕ × ℕ)} (h : OneToOne l) (hsub : l' ⊆ l) : OneToOne l' :=
  fun a ha b hb => h a (hsub ha) b (hsub hb)

theorem registrations_subset_said : registrations metainfo ⊆ said metainfo ps :=
  List.subset_append_left ..

/-- The orders in the map are the places in the list. -/
def Placed (c : NodeList) (metainfo : MetaInfo) : Prop :=
  ∀ e ∈ metainfo.entries, ∃ k, e.2.sendOrder = k + 1 ∧ c.peerNodeids[k]? = some e.2.nodeid

theorem Placed.mem (h : Placed c metainfo) {a : ℕ × ℕ} (ha : a ∈ registrations metainfo) :
    a.2 ∈ c.peerNodeids := by
  obtain ⟨e, he, rfl⟩ := List.mem_map.mp ha
  obtain ⟨k, -, hk⟩ := h e he
  exact List.mem_of_getElem? hk

/-- A payload for this network, from a node of the list. -/
def Configured (c : NodeList) (config : NodeConfig) : Prop :=
  config.numNodes = c.noOfNodes ∧ config.nodeid ∈ c.peerNodeids

theorem mem_registrations_assign {entry : PeerMeta} {a : ℕ × ℕ} :
    a ∈ registrations (metainfo.assign peerId entry) ↔
      a = (peerId, entry.nodeid) ∨ a ∈ registrations metainfo ∧ a.1 ≠ peerId := by
  simp only [registrations, List.mem_map, KeyMap.mem_assign Function.injective_id]
  constructor
  · rintro ⟨e, rfl | ⟨he, hne⟩, rfl⟩
    · exact .inl rfl
    · exact .inr ⟨⟨e, he, rfl⟩, hne⟩
  · rintro (rfl | ⟨⟨e, he, rfl⟩, hne⟩)
    · exact ⟨(peerId, entry), .inl rfl, rfl⟩
    · exact ⟨e, .inr ⟨he, hne⟩, rfl⟩

/-- A payload of a configured node is entered. -/
theorem clientDecodeConfig_ok {config : NodeConfig} (hplaced : Placed c metainfo)
    (hconfig : Configured c config) :
    ∃ entry : PeerMeta, entry.nodeid = config.nodeid ∧
      clientDecodeConfig c metainfo peerId config = .ok (metainfo.assign peerId entry) ∧
      Placed c (metainfo.assign peerId entry) := by
  obtain ⟨hnum, hmem⟩ := hconfig
  obtain ⟨hnot, -⟩ | ⟨k, hk, horder⟩ := sendOrder_cases c.peerNodeids config.nodeid
  · exact absurd hmem hnot
  · refine ⟨{ nodeid := config.nodeid, name := config.hostname, sendOrder := k + 1 }, rfl, ?_, ?_⟩
    · simp [clientDecodeConfig, hnum, horder]
    · intro e he
      obtain rfl | ⟨he, -⟩ := (KeyMap.mem_assign Function.injective_id).mp he
      · exact ⟨k, rfl, hk⟩
      · exact hplaced e he

/-- Decoding the payloads of a peer moves them to the map: what peers are entered with, or
are to be, is as before. -/
theorem decodeConfigs_said (hplaced : Placed c metainfo) (hps : ∀ p ∈ ps, Configured c p.2)
    (hone : OneToOne (said metainfo ps)) :
    ∃ metainfo', decodeConfigs c peerId metainfo ps = .ok metainfo' ∧ Placed c metainfo' ∧
      registrations metainfo ⊆ registrations metainfo' ∧
      (∀ a ∈ registrations metainfo', a ∈ registrations metainfo ∨ a.1 = peerId) ∧
      ∀ a, a ∈ said metainfo' (ps.filter fun p => p.1 != peerId) ↔ a ∈ said metainfo ps := by
  induction ps generalizing metainfo with
  | nil => exact ⟨metainfo, rfl, hplaced, List.Subset.refl _, fun a ha => .inl ha, fun a => Iff.rfl⟩
  | cons p ps ih =>
    obtain ⟨hp, hps⟩ := List.forall_mem_cons.mp hps
    by_cases hid : p.1 = peerId
    · obtain ⟨entry, hnode, hdecode, hplaced₁⟩ :=
        @clientDecodeConfig_ok _ _ peerId _ hplaced hp
      -- an entry that the peer has already is the same
      have hsame : ∀ a, a ∈ registrations (metainfo.assign peerId entry) ↔
          a = (p.1, p.2.nodeid) ∨ a ∈ registrations metainfo := by
        intro a
        rw [mem_registrations_assign, hnode, hid]
        refine or_congr_right' fun hne => ⟨And.left, fun ha => ⟨ha, fun heq => hne ?_⟩⟩
        have hnodes := (hone a (List.mem_append_left _ ha) (p.1, p.2.nodeid)
          (List.mem_append_right _ (by simp))).mp (heq.trans hid.symm)
        exact Prod.ext heq hnodes
      have hsaid : ∀ a, a ∈ said (metainfo.assign peerId entry) ps ↔ a ∈ said metainfo (p :: ps) := by
        intro a
        simp only [said, List.mem_append, hsame, List.map_cons, List.mem_cons]
        tauto
      obtain ⟨metainfo', hrest, hplaced', hsub, hnew, hall⟩ :=
        ih hplaced₁ hps (hone.mono fun a ha => (hsaid a).mp ha)
      refine ⟨metainfo', ?_, hplaced', fun a ha => hsub ((hsame a).mpr (.inr ha)), ?_, ?_⟩
      · simp only [decodeConfigs, if_pos hid, hdecode, hrest]
      · intro a ha
        obtain ha | ha := hnew a ha
        · obtain rfl | ha := (hsame a).mp ha
          · exact .inr hid
          · exact .inl ha
        · exact .inr ha
      · intro a
        rw [List.filter_cons_of_neg (by simp [hid]), hall, hsaid]
    · obtain ⟨metainfo', hrest, hplaced', hsub, hnew, hall⟩ := ih hplaced hps (hone.mono (by
        simp only [said, List.map_cons]
        grind))
      refine ⟨metainfo', ?_, hplaced', hsub, hnew, ?_⟩
      · simp only [decodeConfigs, if_neg hid, hrest]
      · intro a
        rw [List.filter_cons_of_pos (by simp [hid])]
        have := hall a
        simp only [said, List.mem_append, List.map_cons, List.mem_cons] at this ⊢
        tauto

/-- Each entry of the map is of another node. -/
theorem nodup_registered (hone : OneToOne (registrations metainfo)) :
    ((registrations metainfo).map Prod.snd).Nodup := by
  rw [List.nodup_iff_pairwise_ne, List.pairwise_map, registrations, List.pairwise_map]
  refine metainfo.sorted.imp_of_mem fun {e f} he hf hlt heq => ?_
  exact hlt.ne ((hone (e.1, e.2.nodeid) (List.mem_map_of_mem he) (f.1, f.2.nodeid)
    (List.mem_map_of_mem hf)).mpr heq)

/-- All nodes of the list are in the map. -/
def AllRegistered (c : NodeList) (metainfo : MetaInfo) : Prop :=
  ∀ node ∈ c.peerNodeids, ∃ a ∈ registrations metainfo, a.2 = node

theorem length_eq_iff (hplaced : Placed c metainfo) (hone : OneToOne (registrations metainfo)) :
    metainfo.entries.length = c.peerNodeids.length ↔ AllRegistered c metainfo := by
  have hsub : (registrations metainfo).map Prod.snd ⊆ c.peerNodeids := by
    intro node hnode
    obtain ⟨a, ha, rfl⟩ := List.mem_map.mp hnode
    exact hplaced.mem ha
  have h := length_eq_iff_subset (nodup_registered hone) c.nodup hsub
  rw [List.length_map, registrations, List.length_map] at h
  rw [h]
  refine forall_congr' fun node => imp_congr_right fun _ => ?_
  rw [List.mem_map, registrations]

/-! ### The list of peers between the passes -/

/-- No peer takes up a state beyond vetting, and none that is to be vetted disappears. -/
structure Calm (m m' : NetCommunicatorMaster) : Prop where
  beyond : ∀ q ∈ m'.states, q.2 ≠ .vetting → ∃ s ≠ PeerState.vetting, (q.1, s) ∈ m.states
  vetting : ∀ sendId, (sendId, PeerState.vetting) ∈ m.states → (sendId, .vetting) ∈ m'.states

theorem Calm.refl (m : NetCommunicatorMaster) : Calm m m :=
  ⟨fun q hq hne => ⟨q.2, hne, hq⟩, fun _ => id⟩

theorem Calm.trans {m₁ m₂ m₃ : NetCommunicatorMaster} (h : Calm m₁ m₂) (h' : Calm m₂ m₃) :
    Calm m₁ m₃ := by
  refine ⟨fun q hq hne => ?_, fun sendId hid => h'.vetting _ (h.vetting _ hid)⟩
  obtain ⟨s, hs, hmem⟩ := h'.beyond q hq hne
  exact h.beyond (q.1, s) hmem hs

theorem Calm.of_states (h : m'.states = m.states) : Calm m m' := by
  refine ⟨fun q hq hne => ⟨q.2, hne, h ▸ hq⟩, fun sendId hid => h ▸ hid⟩

/-- A planned change meets a peer that waits to join, or an active one that leaves. -/
def Joins (m : NetCommunicatorMaster) (change : ChangeCycle) : Prop :=
  ∀ p, m.peers.find? (fun p => p.sendId == change.peer.toNat) = some p →
    p.state = if change.addition then .wait else .active

/-- Each planned change that is carried out now meets such a peer. -/
def ChangesJoin (m : NetCommunicatorMaster) : List ChangeCycle → Prop
  | [] => True
  | change :: rest =>
    cycleIsCurrentOrPast m.net.messageCycle change.changeCycle = true →
      Joins m change ∧ ChangesJoin (m.applyChange change) rest

theorem Joins.meets {change : ChangeCycle} (h : Joins m change) : m.Meets change := by
  intro p hp
  rw [h p hp]
  cases change.addition <;> simp

theorem ChangesJoin.meet {l : List ChangeCycle} (h : ChangesJoin m l) : m.ChangesMeet l := by
  induction l generalizing m with
  | nil => exact trivial
  | cons change rest ih => exact fun hdue => ⟨(h hdue).1.meets, ih (h hdue).2⟩

theorem calm_applyChange {change : ChangeCycle} (h : Joins m change) :
    Calm m (m.applyChange change) := by
  obtain heq | ⟨l₁, p, l₂, hl, -, -, hfind, ⟨hadd, hpeers, -⟩ | ⟨hadd, hpeers, -⟩⟩ :=
    applyChange_cases m change
  · rw [heq]
    exact .refl m
  · have hstate := h p hfind
    rw [hadd, if_pos rfl] at hstate
    constructor
    · intro q hq hne
      simp only [states, hpeers, hl, List.map_append, List.map_cons, List.mem_append,
        List.mem_cons] at hq ⊢
      obtain hq | rfl | hq := hq
      · exact ⟨q.2, hne, .inl hq⟩
      · exact ⟨.wait, fun hwait => (by cases hwait), .inr (.inl (by rw [hstate]))⟩
      · exact ⟨q.2, hne, .inr (.inr hq)⟩
    · intro sendId hid
      simp only [states, hpeers, hl, List.map_append, List.map_cons, List.mem_append,
        List.mem_cons, hstate, Prod.mk.injEq, reduceCtorEq, and_false, false_or] at hid ⊢
      exact hid
  · have hstate := h p hfind
    rw [hadd, if_neg Bool.false_ne_true] at hstate
    constructor
    · intro q hq hne
      simp only [states, hpeers, hl, List.map_append, List.map_cons, List.mem_append,
        List.mem_cons] at hq ⊢
      exact ⟨q.2, hne, hq.imp_right .inr⟩
    · intro sendId hid
      simp only [states, hpeers, hl, List.map_append, List.map_cons, List.mem_append,
        List.mem_cons, hstate, Prod.mk.injEq, reduceCtorEq, and_false, false_or] at hid ⊢
      exact hid

theorem calm_applyChanges {l : List ChangeCycle} (h : ChangesJoin m l) :
    Calm m (m.applyChanges l) := by
  induction l generalizing m with
  | nil => exact .of_states rfl
  | cons change rest ih =>
    simp only [applyChanges]
    split
    · rename_i hdue
      obtain ⟨hhead, hrest⟩ := h hdue
      exact (calm_applyChange hhead).trans (ih hrest)
    · exact .of_states rfl

theorem calm_assignPeerId (m : NetCommunicatorMaster) : Calm m m.assignPeerId := by
  constructor
  · intro q hq hne
    simp only [states, assignPeerId, List.map_append, List.map_cons, List.map_nil,
      List.mem_append, List.mem_singleton] at hq
    obtain hq | rfl := hq
    · exact ⟨q.2, hne, hq⟩
    · exact absurd rfl hne
  · intro sendId hid
    simp only [states, assignPeerId, List.map_append, List.mem_append] at hid ⊢
    exact .inl hid

theorem calm_receiveOne {e : ConfigEvent}
    (hhold : ∀ origin, e = .closed origin → ∀ p ∈ m.peers, p.sendId ≠ origin) :
    Calm m (m.receiveOne e) := by
  cases e with
  | opened => exact calm_assignPeerId m
  | message origin commands =>
    refine .of_states (map_replaceF ?_)
    intro a b hab
    split at hab
    · cases hab
      rfl
    · cases hab
  | closed origin =>
    refine .of_states ?_
    rw [states, states, receiveOne]
    congr 1
    apply List.replaceF_of_forall_none
    intro p hp
    simp [hhold origin rfl p hp]

/-- The peers beyond vetting are those of the nodes accepted, and a node that is entered
and not yet accepted has a peer that is to be vetted. -/
structure Seated (d : DuecaNetMaster) : Prop where
  joined : ∀ q ∈ d.base.states, q.2 ≠ .vetting →
    ∃ node ∈ d.accepted, (q.1, node) ∈ registrations d.metainfo
  waiting : ∀ a ∈ registrations d.metainfo, a.2 ∉ d.accepted →
    (a.1, .vetting) ∈ d.base.states

theorem Seated.of_calm (h : Seated d) (hcalm : Calm d.base m') :
    Seated { d with base := m' } := by
  refine ⟨fun q hq hne => ?_, fun a ha hnot => hcalm.vetting _ (h.waiting a ha hnot)⟩
  obtain ⟨s, hs, hmem⟩ := hcalm.beyond q hq hne
  exact h.joined (q.1, s) hmem hs

/-- All payloads are from nodes of the list, and each node has one peer. -/
structure ConfigsFit (c : NodeList) (d : DuecaNetMaster) : Prop where
  configured : ∀ p ∈ d.payloads, Configured c p.2
  oneToOne : OneToOne (said d.metainfo d.payloads)

/-- A message that was filled has work exactly if all nodes were active. -/
def PacksWhenComplete (c : NodeList) (d : DuecaNetMaster) : Prop :=
  ∀ call ∈ d.packed, call.taken = true ↔ ∀ node ∈ c.peerNodeids, node ∈ call.active

/-- What holds of the master, but for the payloads that are to come. -/
structure Admitting (c : NodeList) (d : DuecaNetMaster) : Prop where
  counted : d.base.Counted
  placed : Placed c d.metainfo
  counter : d.sendOrderCounter = d.accepted.length + 1
  inOrder : d.accepted <+: c.peerNodeids
  full : d.accepted ≠ [] → AllRegistered c d.metainfo
  seated : Seated d
  oneToOne : OneToOne (registrations d.metainfo)
  packing : PacksWhenComplete c d
  rejected : d.rejected = []

/-- If all nodes are entered or are to be, no other peer waits to be vetted. -/
def NoStranger (c : NodeList) (d : DuecaNetMaster) : Prop :=
  (∀ node ∈ c.peerNodeids, ∃ a ∈ said d.metainfo d.payloads, a.2 = node) →
    ∀ q ∈ d.base.states, q.2 = .vetting → ∃ a ∈ said d.metainfo d.payloads, a.1 = q.1

/-- What holds while a check passes over the list. -/
structure Passing (c : NodeList) (d : DuecaNetMaster) : Prop extends Admitting c d where
  fits : ConfigsFit c d
  strangers : NoStranger c d

/-! ### Filling a message -/

/-- Each active peer has a node of its own. -/
theorem activeNodes_spec (h : Admitting c d) :
    d.activeNodes.length = d.base.net.npeers ∧ d.activeNodes.Nodup ∧
      d.activeNodes ⊆ c.peerNodeids := by
  have hnode : ∀ p ∈ d.base.peers.filter fun p => p.state == .active,
      ∃ node, (d.metainfo.value? p.sendId).map PeerMeta.nodeid = some node ∧
        (p.sendId, node) ∈ registrations d.metainfo := by
    intro p hp
    obtain ⟨hmem, hactive⟩ := List.mem_filter.mp hp
    have hstate : p.state = .active := by simpa using hactive
    obtain ⟨node, -, hreg⟩ := h.seated.joined (p.sendId, p.state)
      (List.mem_map_of_mem (f := fun p : CommPeer => (p.sendId, p.state)) hmem) (by simp [hstate])
    obtain ⟨⟨sendId, entry⟩, he, heq⟩ := List.mem_map.mp hreg
    obtain ⟨rfl, rfl⟩ := Prod.mk.inj heq
    refine ⟨_, ?_, hreg⟩
    rw [(KeyMap.value?_eq_some Function.injective_id).mpr he]
    rfl
  refine ⟨?_, ?_, ?_⟩
  · rw [h.counted.count, List.countP_eq_length_filter, activeNodes]
    generalize d.base.peers.filter (fun p => p.state == .active) = l at hnode ⊢
    induction l with
    | nil => rfl
    | cons p l ih =>
      obtain ⟨hp, hrest⟩ := List.forall_mem_cons.mp hnode
      obtain ⟨node, hsome, -⟩ := hp
      simp only [List.filterMap_cons, hsome, List.length_cons, ih hrest]
  · rw [List.nodup_iff_pairwise_ne, activeNodes, List.pairwise_filterMap]
    refine (h.counted.distinct.filter _).imp_of_mem ?_
    intro p q hp hq hne x hx y hy heq
    obtain ⟨nodep, hsomep, hregp⟩ := hnode p hp
    obtain ⟨nodeq, hsomeq, hregq⟩ := hnode q hq
    obtain rfl := Option.some.inj (hsomep.symm.trans hx)
    obtain rfl := Option.some.inj (hsomeq.symm.trans hy)
    have hactive : q.state = .active := by simpa using (List.mem_filter.mp hq).2
    exact hne hactive ((h.oneToOne _ hregp _ hregq).mpr heq)
  · intro node hmem
    obtain ⟨p, hp, hsome⟩ := List.mem_filterMap.mp hmem
    obtain ⟨node', hsome', hreg⟩ := hnode p hp
    obtain rfl := Option.some.inj (hsome'.symm.trans hsome)
    exact h.placed.mem hreg

theorem Admitting.pack (h : Admitting c d) (hpeers : d.base.net.npeers ≠ 0) :
    Admitting c d.clientPackPayload := by
  refine { h with seated := ⟨h.seated.joined, h.seated.waiting⟩, packing := ?_ }
  obtain ⟨hlen, hnodup, hsub⟩ := activeNodes_spec h
  -- there is an active peer, so that all nodes are entered
  have hsome : d.accepted ≠ [] := by
    rw [h.counted.count, ← Nat.pos_iff_ne_zero, List.countP_pos_iff] at hpeers
    obtain ⟨p, hp, hactive⟩ := hpeers
    obtain ⟨node, hnode, -⟩ := h.seated.joined (p.sendId, p.state)
      (List.mem_map_of_mem (f := fun p : CommPeer => (p.sendId, p.state)) hp)
      (by simp [show p.state = .active by simpa using hactive])
    exact List.ne_nil_of_mem hnode
  have hfull := (length_eq_iff h.placed h.oneToOne).mpr (h.full hsome)
  intro call hcall
  obtain hcall | hcall := List.mem_append.mp hcall
  · exact h.packing call hcall
  · rw [List.mem_singleton.mp hcall, beq_iff_eq, hfull, ← hlen,
      length_eq_iff_subset hnodup c.nodup hsub]
    exact Iff.rfl

/-! ### Looking at one peer -/

theorem Passing.mem_said (h : Passing c d) {a : ℕ × ℕ} (ha : a ∈ said d.metainfo d.payloads) :
    a.2 ∈ c.peerNodeids := by
  obtain ha | ha := List.mem_append.mp ha
  · exact h.placed.mem ha
  · obtain ⟨p, hp, rfl⟩ := List.mem_map.mp ha
    exact (h.fits.configured p hp).2

/-- It is this peer's turn to be accepted. -/
def Turn (c : NodeList) (d : DuecaNetMaster) (sendId : ℕ) : Prop :=
  ∃ node, (sendId, node) ∈ said d.metainfo d.payloads ∧
    c.peerNodeids[d.accepted.length]? = some node

/-- The master with one more node accepted. -/
def withAccepted (d : DuecaNetMaster) (node : ℕ) : DuecaNetMaster :=
  { d with sendOrderCounter := d.sendOrderCounter + 1, accepted := d.accepted ++ [node] }

/-- A peer is accepted if all nodes are entered and it is its turn, and has to wait
otherwise. -/
theorem clientAuthorizePeer_passing (warnings : Bool) (h : Passing c d) {sendId : ℕ}
    (hmem : (sendId, PeerState.vetting) ∈ d.base.states) :
    (∃ node, (sendId, node) ∈ registrations d.metainfo ∧
        c.peerNodeids[d.accepted.length]? = some node ∧ AllRegistered c d.metainfo ∧
        d.clientAuthorizePeer c warnings sendId = (.accept, withAccepted d node)) ∨
      (d.clientAuthorizePeer c warnings sendId = (.delay, d) ∧
        (AllRegistered c d.metainfo → ¬ Turn c d sendId)) := by
  by_cases hlen : d.metainfo.entries.length = c.peerNodeids.length
  · have hall := (length_eq_iff h.placed h.oneToOne).mp hlen
    -- the peer is no stranger, and its payload has been decoded
    obtain ⟨a, ha, rfl⟩ := h.strangers
      (fun node hnode => by
        obtain ⟨b, hb, hbnode⟩ := hall node hnode
        exact ⟨b, registrations_subset_said hb, hbnode⟩) _ hmem rfl
    obtain ⟨b, hb, hnode⟩ := hall a.2 (h.mem_said ha)
    have hid : b.1 = a.1 := (h.fits.oneToOne b (registrations_subset_said hb) a ha).mpr hnode
    obtain rfl : b = a := Prod.ext hid hnode
    obtain ⟨⟨sendId, entry⟩, he, rfl⟩ := List.mem_map.mp hb
    obtain ⟨k, hk, hplace⟩ := h.placed _ he
    have hvalue := (KeyMap.value?_eq_some Function.injective_id).mpr he
    by_cases hturn : k = d.accepted.length
    · refine .inl ⟨entry.nodeid, hb, hturn ▸ hplace, hall, ?_⟩
      simp only [clientAuthorizePeer, if_pos hlen, hvalue]
      rw [if_pos (by rw [hk, h.counter, hturn]), withAccepted]
    · refine .inr ⟨?_, fun _ => ?_⟩
      · simp only [clientAuthorizePeer, if_pos hlen, hvalue]
        rw [if_neg (by rw [hk, h.counter]; omega)]
      · rintro ⟨node, hsaid, hnext⟩
        have hsame := (h.fits.oneToOne _ hsaid _ ha).mp rfl
        dsimp only at hsame
        have hlt := (List.getElem?_eq_some_iff.mp hplace).1
        exact hturn ((List.getElem?_inj hlt c.nodup).mp (hplace.trans (hsame ▸ hnext.symm)))
  · refine .inr ⟨by simp only [clientAuthorizePeer, if_neg hlen], fun hall => ?_⟩
    exact absurd ((length_eq_iff h.placed h.oneToOne).mpr hall) hlen

/-- What looking at peers does: nothing is taken from the map, and each acceptance leaves
one fewer peer to be vetted. Without one, the list and what is said of it are as before. -/
structure Onward (d d' : DuecaNetMaster) (accepted : Bool) : Prop where
  length : d'.base.peers.length = d.base.peers.length
  grows : registrations d.metainfo ⊆ registrations d'.metainfo
  vettings : d'.base.vettings ≤ d.base.vettings
  fewer : accepted = true → d'.base.vettings < d.base.vettings
  quiet : accepted = false → d'.accepted = d.accepted ∧ d'.base.states = d.base.states ∧
    ∀ a, a ∈ said d'.metainfo d'.payloads ↔ a ∈ said d.metainfo d.payloads

theorem Onward.refl (d : DuecaNetMaster) : Onward d d false :=
  ⟨rfl, List.Subset.refl _, le_rfl, nofun, fun _ => ⟨rfl, rfl, fun _ => Iff.rfl⟩⟩

theorem Onward.trans {d₁ d₂ d₃ : DuecaNetMaster} {x y : Bool} (h : Onward d₁ d₂ x)
    (h' : Onward d₂ d₃ y) : Onward d₁ d₃ (x || y) := by
  refine ⟨h'.length.trans h.length, fun a ha => h'.grows (h.grows ha),
    h'.vettings.trans h.vettings, ?_, ?_⟩
  · intro hxy
    obtain hx | hy := Bool.or_eq_true_iff.mp hxy
    · exact h'.vettings.trans_lt (h.fewer hx)
    · exact (h'.fewer hy).trans_le h.vettings
  · intro hxy
    obtain ⟨hx, hy⟩ := Bool.or_eq_false_iff.mp hxy
    obtain ⟨hacc, hstates, hsaid⟩ := h.quiet hx
    obtain ⟨hacc', hstates', hsaid'⟩ := h'.quiet hy
    exact ⟨hacc'.trans hacc, hstates'.trans hstates, fun a => (hsaid' a).trans (hsaid a)⟩

theorem AllRegistered.mono {metainfo' : MetaInfo} (h : AllRegistered c metainfo)
    (hsub : registrations metainfo ⊆ registrations metainfo') : AllRegistered c metainfo' := by
  intro node hnode
  obtain ⟨a, ha, heq⟩ := h node hnode
  exact ⟨a, hsub ha, heq⟩

theorem acceptPeer_passing (h : Passing c d) (hget : d.base.peers[i]? = some peer)
    (hstate : peer.state = .vetting) {node : ℕ}
    (hreg : (peer.sendId, node) ∈ registrations d.metainfo)
    (hnext : c.peerNodeids[d.accepted.length]? = some node) (hall : AllRegistered c d.metainfo) :
    let d' := { withAccepted d node with base := d.base.acceptPeer i peer }
    Passing c d' ∧ Onward d d' true := by
  intro d'
  have hstates := states_getElem? hget
  rw [hstate] at hstates
  have hmodify : ∀ j, d'.base.states[j]? =
      (fun q : ℕ × PeerState => if i = j then (q.1, .wait) else q) <$> d.base.states[j]? := by
    intro j
    rw [acceptPeer_states, List.getElem?_modify]
  constructor
  · refine { h with
      counted := h.counted.of_keeps (.of_accept rfl hstates acceptPeer_states)
      counter := ?_, inOrder := ?_, full := fun _ => hall, seated := ⟨?_, ?_⟩
      fits := ⟨h.fits.configured, h.fits.oneToOne⟩, strangers := ?_ }
    · simp only [d', withAccepted, h.counter, List.length_append, List.length_singleton]
    · obtain ⟨rest, hrest⟩ := h.inOrder
      rw [← hrest, List.getElem?_append_right le_rfl, Nat.sub_self] at hnext
      cases rest with
      | nil => cases hnext
      | cons a rest =>
        obtain rfl : a = node := by simpa using hnext
        exact ⟨rest, by rw [← hrest]; simp [d', withAccepted]⟩
    · intro q hq hne
      obtain ⟨j, hj⟩ := List.mem_iff_getElem?.mp hq
      rw [hmodify] at hj
      obtain ⟨q₀, hq₀, rfl⟩ := Option.map_eq_some_iff.mp hj
      by_cases hij : i = j
      · subst hij
        obtain rfl := Option.some.inj (hstates.symm.trans hq₀)
        rw [if_pos rfl]
        exact ⟨node, List.mem_append_right _ (List.mem_singleton_self _), hreg⟩
      · rw [if_neg hij] at hne ⊢
        obtain ⟨node', hnode', hreg'⟩ := h.seated.joined q₀ (List.mem_of_getElem? hq₀) hne
        exact ⟨node', List.mem_append_left _ hnode', hreg'⟩
    · intro a ha hnot
      obtain ⟨hnot, hother⟩ := not_or.mp (mt List.mem_append.mpr hnot)
      obtain ⟨j, hj⟩ := List.mem_iff_getElem?.mp (h.seated.waiting a ha hnot)
      refine List.mem_iff_getElem?.mpr ⟨j, ?_⟩
      rw [hmodify, hj]
      have hij : i ≠ j := by
        rintro rfl
        obtain heq := (Prod.mk.inj (Option.some.inj (hj.symm.trans hstates))).1
        exact hother (List.mem_singleton.mpr ((h.oneToOne a ha _ hreg).mp heq))
      simp [hij]
    · intro hnodes q hq hvetting
      obtain ⟨j, hj⟩ := List.mem_iff_getElem?.mp hq
      rw [hmodify] at hj
      obtain ⟨q₀, hq₀, rfl⟩ := Option.map_eq_some_iff.mp hj
      by_cases hij : i = j
      · simp [hij] at hvetting
      · rw [if_neg hij] at hvetting ⊢
        exact h.strangers hnodes q₀ (List.mem_of_getElem? hq₀) hvetting
  · -- what the pass over the peers does with an accepted one
    let w : Pass := { master := d.base, asked := 0 }
    let w' : Pass := { master := d.base.acceptPeer i peer, asked := 1, anychanges := true
                       examined := [peer.sendId] }
    have hexamine : examine (fun _ => .accept) w peer i = .ok (w', i + 1) := by
      simp only [examine, hstate]
      rfl
    obtain ⟨-, -, hle, hless⟩ := @examine_measure w _ _ _ _ _ hget hexamine
    refine ⟨?_, List.Subset.refl _, hle, fun _ => (hless rfl).resolve_left
      (fun hno => by cases hno), fun hno => by cases hno⟩
    have hlen := congrArg List.length (@acceptPeer_states d.base peer i)
    rwa [length_states, List.length_modify, length_states] at hlen

theorem decodePayloads_passing (h : Passing c d) (hget : d.base.peers[i]? = some peer) :
    ∃ d', { d with base := d.base.decodeConfigData i }.decodePayloads c peer.sendId = .ok d' ∧
      Passing c d' ∧ Onward d d' false := by
  obtain ⟨metainfo', hdecode, hplaced, hsub, hnew, hsaid⟩ :=
    @decodeConfigs_said _ _ _ peer.sendId h.placed h.fits.configured h.fits.oneToOne
  have hmem : (peer.sendId, peer.state) ∈ d.base.states :=
    List.mem_of_getElem? (states_getElem? hget)
  have hstates : (d.base.decodeConfigData i).states = d.base.states := decodeConfigData_states
  have hone : OneToOne (said metainfo' (d.payloads.filter fun p => p.1 != peer.sendId)) :=
    h.fits.oneToOne.mono fun a ha => (hsaid a).mp ha
  refine ⟨{ d with
      base := d.base.decodeConfigData i
      metainfo := metainfo'
      payloads := d.payloads.filter fun p => p.1 != peer.sendId }, ?_, ?_, ?_⟩
  · simp only [decodePayloads, hdecode]
  · refine { h with
      counted := h.counted.of_keeps (.of_states decodeConfigData_net hstates)
      placed := hplaced, full := fun hne => (h.full hne).mono hsub, seated := ⟨?_, ?_⟩
      oneToOne := hone.mono registrations_subset_said
      fits := ⟨fun p hp => h.fits.configured p (List.mem_filter.mp hp).1, hone⟩
      strangers := ?_ }
    · intro q hq hne
      rw [hstates] at hq
      obtain ⟨node, hnode, hreg⟩ := h.seated.joined q hq hne
      exact ⟨node, hnode, hsub hreg⟩
    · intro a ha hnot
      rw [hstates]
      obtain hold | hid := hnew a ha
      · exact h.seated.waiting a hold hnot
      · by_cases hvetting : peer.state = .vetting
        · rwa [hid, ← hvetting]
        · -- a peer that joined says the node that it was accepted with
          obtain ⟨node, hnode, hreg⟩ := h.seated.joined _ hmem hvetting
          have hsame := (hone a (registrations_subset_said ha) _
            (registrations_subset_said (hsub hreg))).mp hid
          exact absurd (hsame ▸ hnode) hnot
    · intro hnodes q hq hvetting
      rw [hstates] at hq
      obtain ⟨a, ha, heq⟩ := h.strangers (fun node hnode => by
        obtain ⟨a, ha, heq⟩ := hnodes node hnode
        exact ⟨a, (hsaid a).mp ha, heq⟩) q hq hvetting
      exact ⟨a, (hsaid a).mpr ha, heq⟩
  · refine ⟨?_, hsub, ?_, nofun, fun _ => ⟨rfl, hstates, hsaid⟩⟩
    · have hlen := congrArg List.length hstates
      rwa [length_states, length_states] at hlen
    · rw [vettings, vettings, hstates]

/-- Looking at a peer goes through. If it is not accepted although all nodes are entered,
it is not its turn. -/
theorem examineNode_passing (warnings : Bool) (h : Passing c d)
    (hget : d.base.peers[i]? = some peer) :
    ∃ d' accepted, d.examineNode c warnings peer i = .ok (d', accepted, i + 1) ∧
      Passing c d' ∧ Onward d d' accepted ∧
      (accepted = false → peer.state = .vetting → AllRegistered c d.metainfo →
        ¬ Turn c d peer.sendId) := by
  have hmem := List.mem_of_getElem? (states_getElem? hget)
  have hnot : peer.state ≠ .broken := h.counted.noneBroken _ hmem
  obtain ⟨d', hdecode, hpassing, honward⟩ := decodePayloads_passing h hget
  cases hstate : peer.state with
  | vetting =>
    rw [hstate] at hmem
    obtain ⟨node, hreg, hnext, hall, hauth⟩ | ⟨hauth, hturn⟩ :=
      clientAuthorizePeer_passing warnings h hmem
    · obtain ⟨hpassing', honward'⟩ := acceptPeer_passing h hget hstate hreg hnext hall
      refine ⟨_, true, ?_, hpassing', honward', fun hno => by cases hno⟩
      simp only [examineNode, vet, hstate, hauth, examine]
    · refine ⟨d', false, ?_, hpassing, honward, fun _ _ => hturn⟩
      simp only [examineNode, vet, hstate, hauth, examine, hdecode]
  | wait | active =>
    refine ⟨d', false, ?_, hpassing, honward, fun _ hvetting => by cases hvetting⟩
    simp only [examineNode, vet, hstate, examine, hdecode]
  | broken => exact absurd hstate hnot

/-! ### The passes and the check -/

/-- A pass from place `i` on. If no peer is accepted in it although all nodes are entered, it
was no one's turn. -/
theorem nodePass_passing (warnings : Bool) {fuel : ℕ} {anychanges : Bool} (h : Passing c d)
    (hfuel : d.base.peers.length - i < fuel) :
    ∃ d' accepted, d.nodePass c warnings fuel anychanges i = .ok (d', anychanges || accepted) ∧
      Passing c d' ∧ Onward d d' accepted ∧
      (accepted = false → AllRegistered c d.metainfo → ∀ j ≥ i, ∀ sendId,
        d.base.states[j]? = some (sendId, .vetting) → ¬ Turn c d sendId) := by
  induction fuel generalizing d i anychanges with
  | zero => omega
  | succ fuel ih =>
    simp only [nodePass]
    split
    · rename_i hnone
      refine ⟨d, false, by rw [Bool.or_false], h, .refl d, fun _ _ j hj sendId hget => ?_⟩
      have hlen := List.getElem?_eq_none_iff.mp hnone
      rw [← length_states] at hlen
      rw [List.getElem?_eq_none (hlen.trans hj)] at hget
      cases hget
    · rename_i peer hget
      have hlt := (List.getElem?_eq_some_iff.mp hget).1
      obtain ⟨d₁, accepted₁, hexamine, hpassing₁, honward₁, hturn₁⟩ :=
        examineNode_passing warnings h hget
      have hlen := honward₁.length
      obtain ⟨d', accepted, hpass, hpassing, honward, hturn⟩ :=
        @ih d₁ (i + 1) (anychanges || accepted₁) hpassing₁ (by omega)
      refine ⟨d', accepted₁ || accepted, ?_, hpassing, honward₁.trans honward, ?_⟩
      · simp only [hexamine, hpass, Bool.or_assoc]
      · intro hquiet hall j hj sendId hgetj
        obtain ⟨hquiet₁, hquiet⟩ := Bool.or_eq_false_iff.mp hquiet
        obtain ⟨hacc, hstates, hsaid⟩ := honward₁.quiet hquiet₁
        rintro ⟨node, hnode, hnext⟩
        by_cases hij : j = i
        · subst hij
          rw [states_getElem? hget, Option.some.injEq, Prod.mk.injEq] at hgetj
          obtain ⟨rfl, hstate⟩ := hgetj
          exact hturn₁ hquiet₁ hstate hall ⟨node, hnode, hnext⟩
        · exact hturn hquiet (hall.mono honward₁.grows) j (by omega) sendId (hstates ▸ hgetj)
            ⟨node, (hsaid _).mpr hnode, hacc ▸ hnext⟩

/-- If no peer that is to be vetted has its turn although all nodes are entered, all are
accepted. -/
theorem Passing.accepted_eq (h : Passing c d) (hall : AllRegistered c d.metainfo)
    (hturn : ∀ sendId, (sendId, PeerState.vetting) ∈ d.base.states → ¬ Turn c d sendId) :
    d.accepted = c.peerNodeids := by
  obtain ⟨rest, hrest⟩ := h.inOrder
  cases rest with
  | nil => rwa [List.append_nil] at hrest
  | cons node rest =>
    have hnext : c.peerNodeids[d.accepted.length]? = some node := by
      rw [← hrest, List.getElem?_append_right le_rfl, Nat.sub_self]
      rfl
    have hnot : node ∉ d.accepted := by
      have hnodup := c.nodup
      rw [← hrest, List.nodup_append] at hnodup
      exact fun hmem => hnodup.2.2 node hmem node List.mem_cons_self rfl
    obtain ⟨a, ha, rfl⟩ := hall node (List.mem_of_getElem? hnext)
    exact absurd ⟨a.2, registrations_subset_said ha, hnext⟩ (hturn a.1 (h.seated.waiting a ha hnot))

/-- A check goes through, and accepts all nodes if all are entered. -/
theorem repeatNodePasses_passing (warnings : Bool) {fuel : ℕ} (h : Passing c d)
    (hfuel : d.base.vettings < fuel) :
    ∃ d', d.repeatNodePasses c warnings fuel = .ok d' ∧ Passing c d' ∧
      (AllRegistered c d.metainfo → d'.accepted = c.peerNodeids) := by
  induction fuel generalizing d with
  | zero => omega
  | succ fuel ih =>
    obtain ⟨d₁, accepted, hpass, hpassing, honward, hturn⟩ := @nodePass_passing _ _ 0 warnings
      _ false h (Nat.lt_succ_of_le (Nat.sub_le d.base.peers.length 0))
    rw [Bool.false_or] at hpass
    simp only [repeatNodePasses, hpass]
    cases accepted with
    | true =>
      obtain ⟨d', hrepeat, hpassing', hdone⟩ := ih hpassing (by have := honward.fewer rfl; omega)
      exact ⟨d', hrepeat, hpassing', fun hall => hdone (hall.mono honward.grows)⟩
    | false =>
      refine ⟨d₁, rfl, hpassing, fun hall => ?_⟩
      obtain ⟨hacc, hstates, hsaid⟩ := honward.quiet rfl
      refine hpassing.accepted_eq (hall.mono honward.grows) fun sendId hmem => ?_
      rw [hstates] at hmem
      obtain ⟨j, hj⟩ := List.mem_iff_getElem?.mp hmem
      rintro ⟨node, hnode, hnext⟩
      exact hturn rfl hall j (Nat.zero_le j) sendId hj ⟨node, (hsaid _).mp hnode, hacc ▸ hnext⟩

/-- What a check has to meet: the planned changes find their peers as expected and no listed
peer's connection breaks; the payloads are from nodes of the list, each from one peer; and
once all nodes have sent theirs, no other peer waits. -/
structure CarefulNodeCheck (c : NodeList) (d : DuecaNetMaster) (k : NodeCheck) : Prop where
  changes : ChangesJoin d.base d.base.peerChanges
  connections : (d.base.applyChanges d.base.peerChanges).ConnectionsHold
    (k.events.map NodeEvent.event)
  configs : ConfigsFit c (d.received k)
  strangers : NoStranger c (d.received k)

/-- Receiving events only adds payloads, and does to the base what it does there. -/
theorem foldl_receiveNode (events : List NodeEvent) (d : DuecaNetMaster) :
    ∃ payloads, events.foldl receiveNode d =
      { d with
        base := (events.map NodeEvent.event).foldl NetCommunicatorMaster.receiveOne d.base
        payloads := payloads } := by
  induction events generalizing d with
  | nil => exact ⟨d.payloads, rfl⟩
  | cons e events ih => exact ih (d.receiveNode e)

theorem calm_receiveAll {events : List ConfigEvent} (hhold : m.ConnectionsHold events) :
    Calm m (events.foldl NetCommunicatorMaster.receiveOne m) := by
  induction events generalizing m with
  | nil => exact .refl m
  | cons e events ih => exact (calm_receiveOne hhold.1).trans (ih hhold.2)

theorem Admitting.received (h : Admitting c d) {k : NodeCheck} (hk : CarefulNodeCheck c d k) :
    Passing c (d.received k) ∧ (d.received k).metainfo = d.metainfo := by
  obtain ⟨payloads, hreceived⟩ :=
    foldl_receiveNode k.events { d with base := d.base.applyChanges d.base.peerChanges }
  have hfits := hk.configs
  have hstrangers := hk.strangers
  simp only [DuecaNetMaster.received, hreceived] at hfits hstrangers ⊢
  have hseated : Seated { d with
      base := (k.events.map NodeEvent.event).foldl NetCommunicatorMaster.receiveOne
        (d.base.applyChanges d.base.peerChanges) } :=
    h.seated.of_calm ((calm_applyChanges hk.changes).trans (calm_receiveAll hk.connections))
  refine ⟨{ h with
    counted := (h.counted.applyChanges hk.changes.meet).receiveAll hk.connections
    seated := ⟨hseated.joined, hseated.waiting⟩
    fits := hfits, strangers := hstrangers }, trivial⟩

/-- A careful check goes through. It accepts all nodes, if all were entered before. -/
theorem nodeCheck_admitting {k : NodeCheck} (h : Admitting c d) (hk : CarefulNodeCheck c d k) :
    ∃ d', nodeCheck c d k = .ok d' ∧ Admitting c d' ∧
      (AllRegistered c d.metainfo → d'.accepted = c.peerNodeids) := by
  obtain ⟨hpassing, hmetainfo⟩ := h.received hk
  have hle := List.countP_le_length (l := (d.received k).base.states)
    (p := fun p => p.2 == .vetting)
  rw [length_states] at hle
  obtain ⟨d', hcheck, hpassing', hdone⟩ :=
    repeatNodePasses_passing k.warnings hpassing (Nat.lt_succ_of_le hle)
  exact ⟨d', hcheck, hpassing'.toAdmitting, hmetainfo ▸ hdone⟩

/-! ### Runs of the master -/

/-- The condition on a step of the master; only the check has one. -/
def CarefulNodes (c : NodeList) (d : DuecaNetMaster) : NodeInput → Prop
  | .opened | .cycle _ | .pack => True
  | .check k => CarefulNodeCheck c d k

theorem admitting_init : Admitting c {} where
  counted := counted_init
  placed := nofun
  counter := rfl
  inOrder := List.nil_prefix
  full := fun h => absurd rfl h
  seated := ⟨nofun, nofun⟩
  oneToOne := nofun
  packing := nofun
  rejected := rfl

theorem admitting_step {a : NodeInput} (h : Admitting c d) (ha : CarefulNodes c d a) :
    ∃ d', nodeStep c d a = .ok d' ∧ Admitting c d' := by
  cases a with
  | opened =>
    exact ⟨_, rfl, { h with
      counted := h.counted.assignPeerId
      seated := h.seated.of_calm (calm_assignPeerId d.base) }⟩
  | cycle messageCycle =>
    exact ⟨_, rfl, { h with
      counted := ⟨h.counted.count, h.counted.distinct, h.counted.small, h.counted.noneBroken⟩
      seated := h.seated.of_calm (.of_states rfl) }⟩
  | pack =>
    refine ⟨_, rfl, ?_⟩
    split
    · exact h
    · rename_i hpeers
      exact h.pack hpeers
  | check k =>
    obtain ⟨d', hcheck, hadmitting, -⟩ := nodeCheck_admitting h ha
    exact ⟨d', hcheck, hadmitting⟩

/-- The nodes accepted so far are the first of the list. Every rejection left the map and the
count of active peers as they were. Messages have work exactly if all nodes are active. -/
structure Admits (c : NodeList) (d : DuecaNetMaster) : Prop where
  inOrder : d.accepted <+: c.peerNodeids
  rejections : ∀ r ∈ d.rejected, r.knownAfter = r.known ∧ r.npeersAfter = r.npeers
  packing : PacksWhenComplete c d

theorem Admitting.admits (h : Admitting c d) : Admits c d where
  inOrder := h.inOrder
  rejections := by
    rw [h.rejected]
    exact nofun
  packing := h.packing

/-- These inputs are taken, nodes are admitted as they should be, and a check that found all
nodes entered has accepted all of them. -/
def AdmitsNodes (c : NodeList) (ins : List NodeInput) : Prop :=
  ∃ d, exec (nodeStep c) {} ins = .ok d ∧ Admits c d ∧
    ∀ before k, before ++ [.check k] <+: ins → ∀ d₁ d₂,
      exec (nodeStep c) {} before = .ok d₁ → nodeStep c d₁ (.check k) = .ok d₂ →
      AllRegistered c d₁.metainfo → d₂.accepted = c.peerNodeids

theorem vet_rejected : (d.vet c warnings peer).2.rejected = d.rejected := by
  simp only [vet]
  split
  · simp only [clientAuthorizePeer]
    split
    · split
      · split <;> rfl
      · split <;> rfl
    · rfl
  all_goals rfl

/-- The rejections noted so far all left another count. -/
def Miscounts (d : DuecaNetMaster) : Prop := ∀ r ∈ d.rejected, r.npeersAfter ≠ r.npeers

theorem minus32_one_ne (n : ℕ) : minus32 n 1 ≠ n := by
  unfold minus32
  split <;> omega

theorem vetting_of_reject (h : (d.vet c warnings peer).1 = .reject) : peer.state = .vetting := by
  unfold vet at h
  split at h
  · assumption
  all_goals cases h

theorem removePeer_npeers : (m.removePeer i peer).net.npeers = minus32 m.net.npeers 1 :=
  congrArg (fun n : NetCommunicator => minus32 n.npeers 1) (correctFollowId_net ..)

theorem decodePayloads_rejected (h : d.decodePayloads c peerId = .ok d') :
    d'.rejected = d.rejected := by
  unfold decodePayloads at h
  split at h
  · cases h
  · cases h
    rfl

theorem miscounts_examineNode {next : ℕ} {accepted : Bool} (h : Miscounts d)
    (hexamine : d.examineNode c warnings peer i = .ok (d', accepted, next)) : Miscounts d' := by
  have hold := @vet_rejected c d peer warnings
  have hvetting := @vetting_of_reject c d peer warnings
  simp only [examineNode] at hexamine
  generalize d.vet c warnings peer = answered at hexamine hold hvetting
  split at hexamine
  · cases hexamine
  · rename_i w next' hbase
    have hkeep : Miscounts { answered.2 with base := w.master } := by
      simp only [Miscounts, hold]
      exact h
    split at hexamine
    · cases hexamine
      exact hkeep
    · cases hexamine
      exact hkeep
    · rename_i hreject
      cases hexamine
      -- the base class takes the peer off the list, and counts it off
      have hcount : w.master.net.npeers = minus32 d.base.net.npeers 1 := by
        simp only [examine, hvetting hreject, hreject, Except.ok.injEq, Prod.mk.injEq] at hbase
        rw [← hbase.1]
        exact removePeer_npeers
      intro r hr
      obtain hr | hr := List.mem_append.mp hr
      · exact hkeep r hr
      · rw [List.mem_singleton.mp hr]
        dsimp only
        rw [hcount]
        exact minus32_one_ne _
    · split at hexamine
      · cases hexamine
      · rename_i d'' hdecode
        cases hexamine
        rw [Miscounts, decodePayloads_rejected hdecode]
        exact hkeep

theorem miscounts_nodePass {fuel : ℕ} {anychanges accepted : Bool} (h : Miscounts d)
    (hpass : d.nodePass c warnings fuel anychanges i = .ok (d', accepted)) : Miscounts d' := by
  induction fuel generalizing d i anychanges with
  | zero => cases hpass
  | succ fuel ih =>
    simp only [nodePass] at hpass
    split at hpass
    · cases hpass
      exact h
    · split at hpass
      · cases hpass
      · rename_i hexamine
        exact ih (miscounts_examineNode h hexamine) hpass

theorem miscounts_repeatNodePasses {fuel : ℕ} (h : Miscounts d)
    (hrepeat : d.repeatNodePasses c warnings fuel = .ok d') : Miscounts d' := by
  induction fuel generalizing d with
  | zero => cases hrepeat
  | succ fuel ih =>
    simp only [repeatNodePasses] at hrepeat
    split at hrepeat
    · cases hrepeat
    · rename_i hpass
      have h' := miscounts_nodePass h hpass
      split at hrepeat
      · exact ih h' hrepeat
      · cases hrepeat
        exact h'

instance (c : NodeList) (config : NodeConfig) : Decidable (Configured c config) :=
  inferInstanceAs (Decidable (_ ∧ _))

instance (l : List (ℕ × ℕ)) : Decidable (OneToOne l) :=
  inferInstanceAs (Decidable (∀ a ∈ l, ∀ b ∈ l, a.1 = b.1 ↔ a.2 = b.2))

instance (c : NodeList) (d : DuecaNetMaster) : Decidable (NoStranger c d) :=
  inferInstanceAs (Decidable ((∀ node ∈ c.peerNodeids,
    ∃ a ∈ said d.metainfo d.payloads, a.2 = node) →
    ∀ q ∈ d.base.states, q.2 = .vetting → ∃ a ∈ said d.metainfo d.payloads, a.1 = q.1))

/-- A test for `ChangesJoin`. -/
def changesJoinTest (m : NetCommunicatorMaster) : List ChangeCycle → Bool
  | [] => true
  | change :: rest =>
    (m.peers.find? fun p => p.sendId == change.peer.toNat).all
        (fun p => p.state == if change.addition then .wait else .active) &&
      changesJoinTest (m.applyChange change) rest

theorem changesJoin_of_test {l : List ChangeCycle} (h : changesJoinTest m l = true) :
    ChangesJoin m l := by
  induction l generalizing m with
  | nil => exact trivial
  | cons change rest ih =>
    rw [changesJoinTest, Bool.and_eq_true] at h
    refine fun _ => ⟨fun p hp => ?_, ih h.2⟩
    have hall := h.1
    rw [hp] at hall
    simpa using hall

/-- A test for the condition on a step, in which no connection breaks. -/
def carefulNodesTest (c : NodeList) (d : DuecaNetMaster) : NodeInput → Bool
  | .opened | .cycle _ | .pack => true
  | .check k =>
    changesJoinTest d.base d.base.peerChanges &&
      (k.events.all fun e => match e with
        | .closed _ => false
        | .opened | .message .. => true) &&
      decide (∀ p ∈ (d.received k).payloads, Configured c p.2) &&
      decide (OneToOne (said (d.received k).metainfo (d.received k).payloads)) &&
      decide (NoStranger c (d.received k))

theorem connectionsHold_of_test {events : List NodeEvent}
    (h : (events.all fun e => match e with
      | .closed _ => false
      | .opened | .message .. => true) = true) :
    m.ConnectionsHold (events.map NodeEvent.event) := by
  induction events generalizing m with
  | nil => exact trivial
  | cons e events ih =>
    rw [List.all_cons, Bool.and_eq_true] at h
    refine ⟨fun origin heq => ?_, ih h.2⟩
    cases e with
    | closed origin' => cases h.1
    | opened | message => cases heq

theorem carefulNodes_of_test {a : NodeInput} (h : carefulNodesTest c d a = true) :
    CarefulNodes c d a := by
  cases a with
  | opened | cycle | pack => exact trivial
  | check k =>
    simp only [carefulNodesTest, Bool.and_eq_true, decide_eq_true_eq] at h
    obtain ⟨⟨⟨⟨hchanges, hconnections⟩, hconfigured⟩, hone⟩, hstrangers⟩ := h
    exact ⟨changesJoin_of_test hchanges, connectionsHold_of_test hconnections,
      ⟨hconfigured, hone⟩, hstrangers⟩

/-- A network of two nodes, with the master on node 0. -/
def twoNodes : NodeList := ⟨0, [1], by decide⟩

/-- A network of three nodes, with the master on node 0. -/
def threeNodes : NodeList := ⟨0, [1, 2], by decide⟩

/-- Peer `origin` sends that it is this node. -/
def nodeMessage (c : NodeList) (origin nodeid : ℕ) : NodeEvent :=
  .message origin [.clientPayload ⟨nodeid, c.noOfNodes, "host"⟩]

end Dueca.Net
