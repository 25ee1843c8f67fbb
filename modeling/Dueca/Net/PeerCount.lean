import Dueca.Net.Passes
import Mathlib.Data.List.Nodup
import Mathlib.Data.List.Perm.Subperm
import Mathlib.Data.List.Range

/-!
# The peer count of the network master

`npeers` is adjusted by hand when a planned change is carried out, when a peer is
rejected and when its connection breaks. This module follows the count and the
walk over the list through `checkAndUpdatePeerStates`, and shows for which calls
the count equals the number of active peers, every pass looks at every peer that
remains, and the iterator stays within the list.
-/

namespace Dueca.Net

open Dueca.Lib

namespace NetCommunicatorMaster

variable {m : NetCommunicatorMaster} {w w' : Pass} {peer p : CommPeer}
variable {answer : ℕ → VettingResult} {i next fuel asked : ℕ}

/-- The ids in the list, with who is active. -/
def roster (m : NetCommunicatorMaster) : List (ℕ × Bool) :=
  m.states.map fun p => (p.1, p.2 == .active)

theorem ids_eq_roster : m.ids = m.roster.map Prod.fst := by
  simp [ids, roster, states, Function.comp_def]

/-! ### Passes without a rejection or a broken connection -/

/-- No peer in the list is marked as broken. -/
def NoneBroken (m : NetCommunicatorMaster) : Prop := ∀ p ∈ m.states, p.2 ≠ .broken

/-- The count, the ids and who is active are as before, and no peer breaks. -/
structure Keeps (m m' : NetCommunicatorMaster) : Prop where
  net : m'.net = m.net
  roster : m'.roster = m.roster
  noneBroken : m.NoneBroken → m'.NoneBroken

theorem Keeps.refl (m : NetCommunicatorMaster) : Keeps m m := ⟨rfl, rfl, id⟩

theorem Keeps.trans {m₁ m₂ m₃ : NetCommunicatorMaster} (h : Keeps m₁ m₂) (h' : Keeps m₂ m₃) :
    Keeps m₁ m₃ :=
  ⟨h'.net.trans h.net, h'.roster.trans h.roster, h'.noneBroken ∘ h.noneBroken⟩

theorem Keeps.of_states {m m' : NetCommunicatorMaster} (hnet : m'.net = m.net)
    (hs : m'.states = m.states) : Keeps m m' where
  net := hnet
  roster := congrArg (List.map _) hs
  noneBroken := fun h => by rwa [NoneBroken, hs]

theorem Keeps.ids {m m' : NetCommunicatorMaster} (h : Keeps m m') : m'.ids = m.ids := by
  rw [ids_eq_roster, ids_eq_roster, h.roster]

/-- Acceptance changes no one's activity. -/
theorem Keeps.of_accept {m m' : NetCommunicatorMaster} (hnet : m'.net = m.net)
    (hget : m.states[i]? = some (peer.sendId, .vetting))
    (hs : m'.states = m.states.modify i fun p => (p.1, .wait)) : Keeps m m' where
  net := hnet
  roster := by
    simp only [NetCommunicatorMaster.roster, hs]
    apply List.ext_getElem?
    intro j
    by_cases hij : i = j
    · subst hij
      simp [hget]
    · simp [hij]
  noneBroken := by
    intro h p hp
    rw [hs] at hp
    obtain ⟨j, hj⟩ := List.mem_iff_getElem?.mp hp
    rw [List.getElem?_modify] at hj
    split at hj
    · obtain ⟨q, -, rfl⟩ := Option.map_eq_some_iff.mp hj
      exact nofun
    · exact h p (List.mem_of_getElem? (by simpa using hj))

theorem examine_quiet (hanswer : ∀ n, answer n ≠ .reject) (hbroken : w.master.NoneBroken)
    (hget : w.master.peers[i]? = some peer) :
    ∃ w', examine answer w peer i = .ok (w', i + 1) ∧
      w'.examined = w.examined ++ [peer.sendId] ∧ Keeps w.master w'.master := by
  have hstates := states_getElem? hget
  have hnot : peer.state ≠ .broken := hbroken _ (List.mem_of_getElem? hstates)
  have hok : ∃ r, examine answer w peer i = .ok r := by
    simp only [examine]
    split
    · split <;> exact ⟨_, rfl⟩
    · exact ⟨_, rfl⟩
    · exact ⟨_, rfl⟩
    · exact absurd ‹_› hnot
  obtain ⟨⟨w', next⟩, hexamine⟩ := hok
  obtain ⟨hexamined, ⟨-, hreject, -⟩ | ⟨hstate, -, rfl, -, hm⟩ | ⟨-, rfl, -, hm⟩ |
    ⟨hstate, -⟩⟩ := examine_cases hexamine
  · exact absurd hreject (hanswer _)
  · rw [hstate] at hstates
    exact ⟨w', hexamine, hexamined, hm ▸ .of_accept rfl hstates acceptPeer_states⟩
  · exact ⟨w', hexamine, hexamined,
      hm ▸ .of_states decodeConfigData_net decodeConfigData_states⟩
  · exact absurd hstate hnot

/-- A pass from place `i` on, which has looked at the peers before it, looks at all
that are left. -/
theorem peerPass_quiet (fuel : ℕ) (hanswer : ∀ n, answer n ≠ .reject) (hbroken : w.master.NoneBroken)
    (hexamined : w.examined = w.master.ids.take i) :
    peerPass answer fuel w i = .error .outOfFuel ∨
      ∃ w', peerPass answer fuel w i = .ok w' ∧ w'.examined = w'.master.ids ∧
        Keeps w.master w'.master := by
  induction fuel generalizing w i with
  | zero => exact .inl rfl
  | succ fuel ih =>
    simp only [peerPass]
    split
    · rename_i hnone
      refine .inr ⟨w, rfl, ?_, .refl _⟩
      have hle := List.getElem?_eq_none_iff.mp hnone
      rw [hexamined, List.take_of_length_le]
      simpa [ids] using hle
    · rename_i peer hget
      obtain ⟨w₁, hexamine, hexamined₁, hkeeps₁⟩ := examine_quiet hanswer hbroken hget
      have hid : w.master.ids[i]? = some peer.sendId := by simp [ids, hget]
      have htake : w₁.examined = w₁.master.ids.take (i + 1) := by
        rw [hexamined₁, hexamined, hkeeps₁.ids, List.take_add_one, hid, Option.toList_some]
      simp only [hexamine]
      obtain hfuel | ⟨w', hpass, hall, hkeeps⟩ := ih (hkeeps₁.noneBroken hbroken) htake
      · exact .inl hfuel
      · exact .inr ⟨w', hpass, hall, hkeeps₁.trans hkeeps⟩

/-- Every pass of a check looked at every peer that was left when it was over. -/
def Complete (c : Checked) : Prop := ∀ pass ∈ c.passes, ∀ id ∈ pass.2, id ∈ pass.1

theorem repeatPasses_quiet {c : Checked} (asked : ℕ) (hanswer : ∀ n, answer n ≠ .reject)
    (hbroken : c.master.NoneBroken) (hcomplete : Complete c) :
    repeatPasses answer fuel c asked = .error .outOfFuel ∨
      ∃ c', repeatPasses answer fuel c asked = .ok c' ∧ Complete c' ∧
        Keeps c.master c'.master := by
  induction fuel generalizing c asked with
  | zero => exact .inl rfl
  | succ fuel ih =>
    simp only [repeatPasses]
    obtain hfuel | ⟨w, hpass, hall, hkeeps⟩ := peerPass_quiet (c.master.peers.length + 1)
      (w := { master := c.master, asked := asked }) (i := 0) hanswer hbroken rfl
    · rw [hfuel]
      exact .inl rfl
    · simp only [hpass]
      have hcomplete' : Complete ⟨w.master, c.passes ++ [(w.examined, w.master.ids)]⟩ := by
        intro pass hmem
        obtain hold | hnew := List.mem_append.mp hmem
        · exact hcomplete pass hold
        · rw [List.mem_singleton.mp hnew, hall]
          exact fun _ => id
      split
      · obtain hfuel | ⟨c', hrepeat, hc', hkeeps'⟩ :=
          ih w.asked (hkeeps.noneBroken hbroken) hcomplete'
        · exact .inl hfuel
        · exact .inr ⟨c', hrepeat, hc', hkeeps.trans hkeeps'⟩
      · exact .inr ⟨_, rfl, hcomplete', hkeeps⟩

/-! ### The count -/

/-- The count is right, and the planned changes can tell the active peers apart:
their ids fit in 16 bits, and no peer before them in the list has the same id. -/
structure Counted (m : NetCommunicatorMaster) : Prop where
  count : m.net.npeers = m.peers.countP fun p => p.state == .active
  distinct : m.peers.Pairwise fun p q => q.state = .active → p.sendId ≠ q.sendId
  small : ∀ p ∈ m.peers, p.state = .active → p.sendId < 2 ^ 16
  noneBroken : m.NoneBroken

theorem Counted.of_keeps {m m' : NetCommunicatorMaster} (h : m.Counted) (hk : Keeps m m') :
    m'.Counted := by
  have hroster : m'.peers.map (fun p => (p.sendId, p.state == .active)) =
      m.peers.map fun p => (p.sendId, p.state == .active) := by
    simpa [roster, states, Function.comp_def] using hk.roster
  obtain ⟨hcount, hdistinct, hsmall, hbroken⟩ := h
  refine ⟨?_, ?_, ?_, hk.noneBroken hbroken⟩
  · have hboth := congrArg (List.countP Prod.snd) hroster
    rw [List.countP_map, List.countP_map] at hboth
    rw [hk.net, hcount]
    exact hboth.symm
  · have hpairs : (m.peers.map fun p => (p.sendId, p.state == .active)).Pairwise
        fun p q => q.2 = true → p.1 ≠ q.1 := List.pairwise_map.mpr (by simpa using hdistinct)
    rw [← hroster] at hpairs
    simpa [List.pairwise_map] using hpairs
  · intro p hp hactive
    have hmem := List.mem_map_of_mem (f := fun p => (p.sendId, p.state == .active)) hp
    rw [hroster] at hmem
    obtain ⟨q, hq, heq⟩ := List.mem_map.mp hmem
    simp only [Prod.mk.injEq, hactive, beq_self_eq_true, beq_iff_eq] at heq
    rw [← heq.1]
    exact hsmall q hq heq.2

/-- Active peers have different ids of 16 bits. -/
theorem Counted.count_le (h : m.Counted) :
    (m.peers.countP fun p => p.state == .active) ≤ 2 ^ 16 := by
  have hnodup : ((m.peers.filter fun p => p.state == .active).map CommPeer.sendId).Nodup := by
    rw [List.nodup_iff_pairwise_ne, List.pairwise_map]
    refine (h.distinct.filter _).imp_of_mem ?_
    intro p q _ hq hne
    exact hne (by simpa using (List.mem_filter.mp hq).2)
  have hsub : (m.peers.filter fun p => p.state == .active).map CommPeer.sendId ⊆
      List.range (2 ^ 16) := by
    intro id hid
    obtain ⟨p, hp, rfl⟩ := List.mem_map.mp hid
    obtain ⟨hmem, hactive⟩ := List.mem_filter.mp hp
    exact List.mem_range.mpr (h.small p hmem (by simpa using hactive))
  have hle := (List.subperm_of_subset hnodup hsub).length_le
  rwa [List.length_map, List.length_range, ← List.countP_eq_length_filter] at hle

/-- A planned change meets the peer it is for in the state it expects: an addition
a peer that is not active, a removal one that is. -/
def Meets (m : NetCommunicatorMaster) (change : ChangeCycle) : Prop :=
  ∀ p, m.peers.find? (fun p => p.sendId == change.peer.toNat) = some p →
    (p.state = .active ↔ change.addition = false)

/-- Each planned change that is carried out now meets its peer as expected. -/
def ChangesMeet (m : NetCommunicatorMaster) : List ChangeCycle → Prop
  | [] => True
  | change :: rest =>
    cycleIsCurrentOrPast m.net.messageCycle change.changeCycle = true →
      m.Meets change ∧ (m.applyChange change).ChangesMeet rest

theorem Counted.applyChange (h : m.Counted) {change : ChangeCycle} (hmeet : m.Meets change) :
    (m.applyChange change).Counted := by
  have hle := h.count_le
  have hsmall := change.peer.toNat_lt
  obtain heq | ⟨l₁, p, l₂, hl, hid, hfirst, hfind, hcases⟩ := applyChange_cases m change
  · rwa [heq]
  have hactive := hmeet p hfind
  obtain ⟨hcount, hdistinct, hids, hbroken⟩ := h
  simp only [hl, List.countP_append, List.countP_cons] at hle hcount
  simp only [hl, List.pairwise_append, List.pairwise_cons, List.forall_mem_cons] at hdistinct
  obtain ⟨hd₁, ⟨hdp, hd₂⟩, hd₁₂⟩ := hdistinct
  simp only [hl, List.forall_mem_append, List.forall_mem_cons] at hids
  obtain ⟨hids₁, hidp, hids₂⟩ := hids
  simp only [NoneBroken, states, List.forall_mem_map, hl, List.forall_mem_append,
    List.forall_mem_cons] at hbroken
  obtain ⟨hb₁, -, hb₂⟩ := hbroken
  obtain ⟨hadd, hpeers, hnpeers⟩ | ⟨hadd, hpeers, hnpeers⟩ := hcases
  · have hstate : p.state ≠ .active := by simp [hactive, hadd]
    refine ⟨?_, ?_, ?_, ?_⟩
    · simp only [hnpeers, hpeers, List.countP_append, List.countP_cons]
      simp [hstate] at hcount hle
      simp
      omega
    · simp only [hpeers, List.pairwise_append, List.pairwise_cons, List.forall_mem_cons]
      refine ⟨hd₁, ⟨hdp, hd₂⟩, fun q hq => ⟨fun _ => ?_, (hd₁₂ q hq).2⟩⟩
      rw [hid]
      exact hfirst q hq
    · simp only [hpeers, List.forall_mem_append, List.forall_mem_cons]
      exact ⟨hids₁, fun _ => hid ▸ hsmall, hids₂⟩
    · simp only [NoneBroken, states, List.forall_mem_map, hpeers, List.forall_mem_append,
        List.forall_mem_cons]
      exact ⟨hb₁, fun hbroken => (by cases hbroken), hb₂⟩
  · have hstate : p.state = .active := hactive.mpr hadd
    refine ⟨?_, ?_, ?_, ?_⟩
    · simp only [hnpeers, hpeers, List.countP_append]
      simp [hstate] at hcount hle
      rw [minus32_of_le (by omega)]
      omega
    · simp only [hpeers, List.pairwise_append]
      exact ⟨hd₁, hd₂, fun q hq => (hd₁₂ q hq).2⟩
    · simp only [hpeers, List.forall_mem_append]
      exact ⟨hids₁, hids₂⟩
    · simp only [NoneBroken, states, List.forall_mem_map, hpeers, List.forall_mem_append]
      exact ⟨hb₁, hb₂⟩

theorem Counted.setChanges (h : m.Counted) (l : List ChangeCycle) :
    { m with peerChanges := l }.Counted :=
  ⟨h.count, h.distinct, h.small, h.noneBroken⟩

theorem Counted.applyChanges {l : List ChangeCycle} (h : m.Counted) (hmeet : m.ChangesMeet l) :
    (m.applyChanges l).Counted := by
  induction l generalizing m with
  | nil => exact h.setChanges []
  | cons change rest ih =>
    simp only [NetCommunicatorMaster.applyChanges]
    split
    · rename_i hdue
      obtain ⟨hhead, hrest⟩ := hmeet hdue
      exact ih (h.applyChange hhead) hrest
    · exact h.setChanges _

theorem Counted.assignPeerId (h : m.Counted) : m.assignPeerId.Counted := by
  obtain ⟨hcount, hdistinct, hsmall, hbroken⟩ := h
  refine ⟨?_, ?_, ?_, ?_⟩
  · simpa [NetCommunicatorMaster.assignPeerId] using hcount
  · simp only [NetCommunicatorMaster.assignPeerId, List.pairwise_append, List.mem_singleton]
    refine ⟨hdistinct, List.pairwise_singleton .., ?_⟩
    rintro p - q rfl
    exact fun hvetting => by cases hvetting
  · simp only [NetCommunicatorMaster.assignPeerId, List.forall_mem_append,
      List.forall_mem_singleton]
    exact ⟨hsmall, fun hactive => by cases hactive⟩
  · simp only [NoneBroken, states, List.forall_mem_map, NetCommunicatorMaster.assignPeerId,
      List.forall_mem_append, List.forall_mem_singleton] at hbroken ⊢
    exact ⟨hbroken, fun hvetting => by cases hvetting⟩

/-- No connection breaks of a peer that is in the list when the news arrives. -/
def ConnectionsHold (m : NetCommunicatorMaster) : List ConfigEvent → Prop
  | [] => True
  | e :: rest =>
    (∀ origin, e = .closed origin → ∀ p ∈ m.peers, p.sendId ≠ origin) ∧
      (m.receiveOne e).ConnectionsHold rest

theorem Counted.receiveOne (h : m.Counted) (e : ConfigEvent)
    (hhold : ∀ origin, e = .closed origin → ∀ p ∈ m.peers, p.sendId ≠ origin) :
    (m.receiveOne e).Counted := by
  cases e with
  | opened => exact h.assignPeerId
  | message origin commands =>
    refine h.of_keeps (.of_states rfl (map_replaceF ?_))
    intro a b hab
    split at hab
    · cases hab
      rfl
    · cases hab
  | closed origin =>
    -- the origin has left the list already
    have hnone : (m.receiveOne (.closed origin)).peers = m.peers := by
      apply List.replaceF_of_forall_none
      intro p hp
      simp [hhold origin rfl p hp]
    exact h.of_keeps (.of_states rfl (by rw [states, hnone, states]))

theorem Counted.receiveAll {events : List ConfigEvent} (h : m.Counted)
    (hhold : m.ConnectionsHold events) : (events.foldl NetCommunicatorMaster.receiveOne m).Counted := by
  induction events generalizing m with
  | nil => exact h
  | cons e rest ih => exact ih (h.receiveOne e hhold.1) hhold.2

/-! ### The check, and runs of the administration -/

/-- What a check has to meet for the count to stay right: the planned changes find
their peers as expected, no listed peer's connection breaks, and the client rejects
no one. -/
structure CarefulCheck (m : NetCommunicatorMaster) (c : CheckInput) : Prop where
  changes : m.ChangesMeet m.peerChanges
  connections : (m.applyChanges m.peerChanges).ConnectionsHold c.events
  answers : ∀ n, c.answer n ≠ .reject

/-- A careful check goes through, keeps the count, and its passes are complete. -/
theorem counted_check {c : CheckInput} (h : m.Counted) (hc : m.CarefulCheck c) :
    ∃ c', m.checkAndUpdatePeerStates c = .ok c' ∧ c'.master.Counted ∧ Complete c' := by
  have hreceived : (m.receiveConfigs c).Counted :=
    (h.applyChanges hc.changes).receiveAll hc.connections
  obtain hfuel | ⟨c', hc', hcomplete, hkeeps⟩ :=
    (@repeatPasses_quiet c.answer ((m.receiveConfigs c).peers.length + 1)
      { master := m.receiveConfigs c }) 0 hc.answers hreceived.noneBroken nofun
  · exact absurd hfuel (m.checkAndUpdatePeerStates_terminates c)
  · exact ⟨c', hc', hreceived.of_keeps hkeeps, hcomplete⟩

end NetCommunicatorMaster

open NetCommunicatorMaster

/-- The condition on a step of the administration; only the check has one. -/
def Careful (m : NetCommunicatorMaster) : MasterInput → Prop
  | .opened | .cycle _ => True
  | .check c => m.CarefulCheck c

theorem counted_init : NetCommunicatorMaster.Counted {} :=
  ⟨rfl, .nil, nofun, nofun⟩

theorem counted_step {m : NetCommunicatorMaster} {a : MasterInput} (h : m.Counted)
    (ha : Careful m a) : ∃ m', masterStep m a = .ok m' ∧ m'.Counted := by
  cases a with
  | opened => exact ⟨_, rfl, h.assignPeerId⟩
  | cycle messageCycle => exact ⟨_, rfl, h.count, h.distinct, h.small, h.noneBroken⟩
  | check c =>
    obtain ⟨c', hc', hcounted, -⟩ := counted_check h ha
    exact ⟨c'.master, by simp only [masterStep, hc'], hcounted⟩

/-- After these inputs the check goes through; it leaves the count equal to the
number of active peers, and each of its passes looked at every peer that was left
in the list. -/
def PeerCountHolds (ins : List MasterInput) (c : CheckInput) : Prop :=
  ∃ m c', exec masterStep {} ins = .ok m ∧ m.checkAndUpdatePeerStates c = .ok c' ∧
    c'.master.net.npeers = (c'.master.peers.countP fun p => p.state == .active) ∧ Complete c'

/-- Every check of every run whose checks are careful keeps the peer count. -/
theorem peerCount_of_run (ins : List MasterInput) (c : CheckInput)
    (h : Allowed masterStep Careful {} (ins ++ [.check c])) : PeerCountHolds ins c := by
  obtain ⟨m, hm, hcounted⟩ :=
    exec_progress (fun _ _ hs ha => counted_step hs ha) counted_init h.of_append
  obtain ⟨c', hc', hcounted', hcomplete⟩ := counted_check hcounted (h.last hm)
  exact ⟨m, c', hm, hc', hcounted'.count, hcomplete⟩

/-- A peer connects, is accepted, and joins two cycles later. -/
theorem peerCount_one_peer :
    PeerCountHolds [.opened, .check ⟨[], fun _ => .accept⟩, .cycle 0x30]
      ⟨[], fun _ => .accept⟩ := by
  apply peerCount_of_run
  refine (allowed_cons_ok rfl).mpr ⟨trivial, ?_⟩
  refine (allowed_cons_ok rfl).mpr ⟨⟨trivial, trivial, nofun⟩, ?_⟩
  refine (allowed_cons_ok rfl).mpr ⟨trivial, ?_⟩
  refine (allowed_cons_ok rfl).mpr ⟨⟨?_, trivial, nofun⟩, trivial⟩
  refine fun _ => ⟨?_, trivial⟩
  intro p hp
  obtain rfl := Option.some.inj hp
  decide

/-- A peer that is rejected at once takes the count below zero. A peer whose
connection breaks at once is the last in the list, and the iterator is moved beyond
its end. Of two peers of which the first breaks, the second is passed over. A peer
that asks to leave before it is accepted is counted off as well. -/
theorem not_peerCount_reject :
    ¬ PeerCountHolds [.opened] ⟨[], fun _ => .reject⟩ ∧
    ¬ PeerCountHolds [.opened] ⟨[.closed 1], fun _ => .accept⟩ ∧
    ¬ PeerCountHolds [.opened, .opened] ⟨[.closed 1], fun _ => .accept⟩ ∧
    ¬ PeerCountHolds
      [.opened, .check ⟨[.message 1 [.deletePeer]], fun _ => .delay⟩, .cycle 0x50]
      ⟨[], fun _ => .delay⟩ := by
  refine ⟨?_, ?_, ?_, ?_⟩
  · rintro ⟨m, c', hm, hc', hcount, -⟩
    obtain rfl := Except.ok.inj hm
    obtain rfl := Except.ok.inj hc'
    exact absurd hcount (by decide +kernel)
  · rintro ⟨m, c', hm, hc', -⟩
    obtain rfl := Except.ok.inj hm
    cases hc'
  · rintro ⟨m, c', hm, hc', -, hcomplete⟩
    obtain rfl := Except.ok.inj hm
    obtain rfl := Except.ok.inj hc'
    have := hcomplete _ List.mem_cons_self 2
    revert this
    decide +kernel
  · rintro ⟨m, c', hm, hc', hcount, -⟩
    obtain rfl := Except.ok.inj hm
    obtain rfl := Except.ok.inj hc'
    exact absurd hcount (by decide +kernel)

end Dueca.Net
