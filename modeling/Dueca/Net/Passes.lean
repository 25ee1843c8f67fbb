import Dueca.Net.Master
import Mathlib.Data.List.InsertIdx

/-!
# The passes over the list of peers

`checkAndUpdatePeerStates` passes over the list of peers while it erases and
accepts peers. Here is what each of its operations does to the ids and the states
in the list, all that looking at one peer can do, and the two rules that the later
modules use: what every operation preserves, the check preserves; and the passes
end in every case.
-/

namespace Dueca.Net

open Dueca.Lib

section Lists

variable {α β : Type*}

theorem map_replaceF {l : List α} {f : α → Option α} {g : α → β}
    (h : ∀ a b, f a = some b → g b = g a) : (l.replaceF f).map g = l.map g := by
  obtain heq | ⟨a, b, l₁, l₂, -, hab, hl, hr⟩ := List.exists_or_eq_self_of_replaceF f l
  · rw [heq]
  · rw [hr, hl]
    simp [h a b hab]

theorem map_modify {l : List α} {i : ℕ} {f : α → α} {g : α → β} {k : β → β}
    (h : ∀ a, g (f a) = k (g a)) : (l.modify i f).map g = (l.map g).modify i k := by
  induction l generalizing i with
  | nil => cases i <;> rfl
  | cons a l ih =>
    cases i with
    | zero => simp [h]
    | succ i => simpa using ih

theorem replaceF_append_cons {l₁ l₂ : List α} {a b : α} {f : α → Option α}
    (hl : ∀ c ∈ l₁, f c = none) (ha : f a = some b) :
    (l₁ ++ a :: l₂).replaceF f = l₁ ++ b :: l₂ := by
  induction l₁ with
  | nil => simp [ha]
  | cons c l₁ ih =>
    rw [List.cons_append, List.replaceF_cons_of_none f (hl c List.mem_cons_self),
      ih fun d hd => hl d (List.mem_cons_of_mem _ hd), List.cons_append]

/-- The count after a change in one place, up to what that place contributes. -/
theorem countP_modify {l : List α} {i : ℕ} {a : α} {f : α → α} {p : α → Bool}
    (hget : l[i]? = some a) :
    (l.modify i f).countP p + (if p a then 1 else 0) =
      l.countP p + if p (f a) then 1 else 0 := by
  induction l generalizing i with
  | nil => simp at hget
  | cons b l ih =>
    cases i with
    | zero =>
      obtain rfl : b = a := by simpa using hget
      simp only [List.modify_zero_cons, List.countP_cons]
      omega
    | succ i =>
      have := ih (i := i) (by simpa using hget)
      simp only [List.modify_succ_cons, List.countP_cons]
      omega

theorem countP_eraseIdx_le (l : List α) (i : ℕ) (p : α → Bool) :
    (l.eraseIdx i).countP p ≤ l.countP p :=
  (List.eraseIdx_sublist l i).countP_le

end Lists

namespace NetCommunicatorMaster

variable {m : NetCommunicatorMaster} {w w' : Pass} {peer p : CommPeer}
variable {answer : ℕ → VettingResult} {i next fuel asked : ℕ}

/-- The ids and states in the list. -/
def states (m : NetCommunicatorMaster) : List (ℕ × PeerState) :=
  m.peers.map fun p => (p.sendId, p.state)

/-- The ids in the list. -/
def ids (m : NetCommunicatorMaster) : List ℕ := m.peers.map CommPeer.sendId

/-- The number of peers still to be vetted. -/
def vettings (m : NetCommunicatorMaster) : ℕ := m.states.countP fun p => p.2 == .vetting

theorem length_states : m.states.length = m.peers.length := List.length_map ..

theorem states_getElem? (h : m.peers[i]? = some p) : m.states[i]? = some (p.sendId, p.state) := by
  simp [states, h]

/-! ### What leaves ids, states and count alone -/

theorem changeFollowId_peers : (m.changeFollowId p).peers = m.peers := rfl

theorem correctFollowId_states (s f : ℕ) : (m.correctFollowId s f).states = m.states := by
  have hmap : (m.peers.replaceF fun p =>
      if follows s p then some { p with followId := f } else none).map
        (fun p => (p.sendId, p.state)) = m.peers.map fun p => (p.sendId, p.state) := by
    apply map_replaceF
    intro a b hab
    split at hab
    · cases hab
      rfl
    · cases hab
  simp only [correctFollowId, states]
  split
  · rfl
  · split
    · exact hmap
    · rw [changeFollowId_peers]
      exact hmap

theorem correctFollowId_net (s f : ℕ) : (m.correctFollowId s f).net = m.net := by
  simp only [correctFollowId]
  split
  · rfl
  · split <;> rfl

theorem decodeCommand_states (c : PeerCommand) : (m.decodeCommand i c).states = m.states := by
  simp only [decodeCommand]
  split
  · rfl
  · cases c with
    | deletePeer => exact correctFollowId_states ..
    | clientPayload | duecaVersion | unhandled => rfl

theorem decodeCommand_net (c : PeerCommand) : (m.decodeCommand i c).net = m.net := by
  simp only [decodeCommand]
  split
  · rfl
  · cases c with
    | deletePeer => exact correctFollowId_net ..
    | clientPayload | duecaVersion | unhandled => rfl

theorem foldl_decodeCommand (cs : List PeerCommand) :
    (cs.foldl (fun m c => m.decodeCommand i c) m).states = m.states ∧
      (cs.foldl (fun m c => m.decodeCommand i c) m).net = m.net := by
  induction cs generalizing m with
  | nil => exact ⟨rfl, rfl⟩
  | cons c cs ih =>
    obtain ⟨hstates, hnet⟩ := ih (m := m.decodeCommand i c)
    exact ⟨hstates.trans (decodeCommand_states c), hnet.trans (decodeCommand_net c)⟩

theorem decodeConfigData_states : (m.decodeConfigData i).states = m.states := by
  have hkeep : ((m.decodeConfigData i).peers.map fun p => (p.sendId, p.state)) =
      List.modify _ i id := map_modify fun _ => rfl
  rw [List.modify_id] at hkeep
  exact hkeep.trans (foldl_decodeCommand _).1

theorem decodeConfigData_net : (m.decodeConfigData i).net = m.net :=
  (foldl_decodeCommand _).2

theorem removePeer_states : (m.removePeer i peer).states = m.states.eraseIdx i := by
  have hstates := correctFollowId_states (m := m) peer.sendId peer.followId
  calc (m.removePeer i peer).states
      = (m.correctFollowId peer.sendId peer.followId).states.eraseIdx i :=
        (List.eraseIdx_map ..).symm
    _ = m.states.eraseIdx i := by rw [hstates]

theorem acceptPeer_states :
    (m.acceptPeer i peer).states = m.states.modify i fun p => (p.1, .wait) :=
  map_modify fun _ => rfl

/-! ### Planned changes -/

/-- The first peer with this id. -/
theorem exists_first {k : ℕ} (h : m.peers.any fun p => p.sendId == k) :
    ∃ l₁ p l₂, m.peers = l₁ ++ p :: l₂ ∧ p.sendId = k ∧ ∀ q ∈ l₁, q.sendId ≠ k := by
  obtain ⟨p, hp⟩ := Option.isSome_iff_exists.mp
    (List.find?_isSome.mpr (List.any_eq_true.mp h))
  obtain ⟨hk, l₁, l₂, hl, hfirst⟩ := List.find?_eq_some_iff_append.mp hp
  exact ⟨l₁, p, l₂, hl, by simpa using hk, fun q hq => by simpa using hfirst q hq⟩

/-- What carrying out a planned change does: nothing, or it makes the first peer
with its id active, or it erases that peer. -/
theorem applyChange_cases (m : NetCommunicatorMaster) (change : ChangeCycle) :
    m.applyChange change = m ∨
    ∃ l₁ p l₂, m.peers = l₁ ++ p :: l₂ ∧ p.sendId = change.peer.toNat ∧
      (∀ q ∈ l₁, q.sendId ≠ change.peer.toNat) ∧
      m.peers.find? (fun p => p.sendId == change.peer.toNat) = some p ∧
      ((change.addition = true ∧
          (m.applyChange change).peers = l₁ ++ { p with state := .active } :: l₂ ∧
          (m.applyChange change).net.npeers = (m.net.npeers + 1) % 2 ^ 32) ∨
        (change.addition = false ∧ (m.applyChange change).peers = l₁ ++ l₂ ∧
          (m.applyChange change).net.npeers = minus32 m.net.npeers 1)) := by
  simp only [applyChange]
  split
  · rename_i hany
    obtain ⟨l₁, p, l₂, hl, hid, hfirst⟩ := exists_first hany
    refine .inr ⟨l₁, p, l₂, hl, hid, hfirst, ?_, ?_⟩
    · exact List.find?_eq_some_iff_append.mpr ⟨by simp [hid], l₁, l₂, hl, by simpa using hfirst⟩
    split
    · rename_i hadd
      refine .inl ⟨hadd, ?_, ?_⟩
      · simp only [countPeer, hl]
        apply replaceF_append_cons
        · intro q hq
          simp [hfirst q hq]
        · simp [hid]
      · simp only [countPeer]
        split <;> rfl
    · rename_i hadd
      refine .inr ⟨by simpa using hadd, ?_, rfl⟩
      simp only [uncountPeer, hl]
      rw [List.eraseP_append_right _ (by simpa using hfirst),
        List.eraseP_cons_of_pos (by simp [hid])]
  · exact .inl rfl

/-! ### Looking at one peer -/

/-- What looking at one peer can do: reject it, accept it, leave it, or erase it
because its connection broke. -/
theorem examine_cases (h : examine answer w peer i = .ok (w', next)) :
    w'.examined = w.examined ++ [peer.sendId] ∧
    ((peer.state = .vetting ∧ answer w.asked = .reject ∧ next = i ∧
        w'.anychanges = w.anychanges ∧ w'.master = w.master.removePeer i peer) ∨
      (peer.state = .vetting ∧ answer w.asked = .accept ∧ next = i + 1 ∧
        w'.anychanges = true ∧ w'.master = w.master.acceptPeer i peer) ∨
      (peer.state ≠ .broken ∧ next = i + 1 ∧ w'.anychanges = w.anychanges ∧
        w'.master = w.master.decodeConfigData i) ∨
      (peer.state = .broken ∧ next = i + 1 ∧ w'.anychanges = w.anychanges ∧
        i < w'.master.peers.length ∧ w'.master = w.master.removePeer i peer)) := by
  simp only [examine] at h
  split at h
  · rename_i hstate
    split at h
    · rename_i hanswer
      cases h
      exact ⟨rfl, .inl ⟨hstate, hanswer, rfl, rfl, rfl⟩⟩
    · rename_i hanswer
      cases h
      exact ⟨rfl, .inr (.inl ⟨hstate, hanswer, rfl, rfl, rfl⟩)⟩
    · rename_i hanswer
      cases h
      exact ⟨rfl, .inr (.inr (.inl ⟨by simp [hstate], rfl, rfl, rfl⟩))⟩
  · rename_i hstate
    cases h
    exact ⟨rfl, .inr (.inr (.inl ⟨by simp [hstate], rfl, rfl, rfl⟩))⟩
  · rename_i hstate
    cases h
    exact ⟨rfl, .inr (.inr (.inl ⟨by simp [hstate], rfl, rfl, rfl⟩))⟩
  · rename_i hstate
    split at h
    · rename_i hlt
      cases h
      exact ⟨rfl, .inr (.inr (.inr ⟨hstate, rfl, rfl, hlt, rfl⟩))⟩
    · cases h

/-! ### The passes end -/

/-- Each look at a peer leaves fewer places to go, and a peer that is accepted is
one fewer to vet. -/
theorem examine_measure (hget : w.master.peers[i]? = some peer)
    (h : examine answer w peer i = .ok (w', next)) :
    next ≤ w'.master.peers.length ∧
      w'.master.peers.length - next < w.master.peers.length - i ∧
      w'.master.vettings ≤ w.master.vettings ∧
      (w'.anychanges = true → w.anychanges = true ∨
        w'.master.vettings < w.master.vettings) := by
  have hi : i < w.master.states.length := by
    rw [length_states]
    exact (List.getElem?_eq_some_iff.mp hget).1
  rw [← length_states, ← length_states]
  obtain ⟨-, ⟨-, -, rfl, hany, hm⟩ | ⟨hstate, -, rfl, -, hm⟩ | ⟨-, rfl, hany, hm⟩ |
    ⟨-, rfl, hany, hlt, hm⟩⟩ := examine_cases h
  · have hlen := List.length_eraseIdx_of_lt hi
    have hle := countP_eraseIdx_le w.master.states next fun p => p.2 == .vetting
    simp only [vettings, hm, removePeer_states, hany]
    exact ⟨by omega, by omega, hle, Or.inl⟩
  · have hcount := countP_modify (f := fun p : ℕ × PeerState => (p.1, PeerState.wait))
      (p := fun p => p.2 == .vetting) (states_getElem? hget)
    simp [hstate] at hcount
    simp only [vettings, hm, acceptPeer_states, List.length_modify]
    exact ⟨by omega, by omega, by omega, fun _ => .inr (by omega)⟩
  · simp only [vettings, hm, decodeConfigData_states, hany]
    exact ⟨by omega, by omega, le_rfl, Or.inl⟩
  · have hlen := List.length_eraseIdx_of_lt hi
    have hle := countP_eraseIdx_le w.master.states i fun p => p.2 == .vetting
    rw [← length_states, hm, removePeer_states] at hlt
    simp only [vettings, hm, removePeer_states, hany]
    exact ⟨by omega, by omega, hle, Or.inl⟩

theorem examine_ne_outOfFuel : examine answer w peer i ≠ .error .outOfFuel := by
  intro h
  simp only [examine] at h
  split at h
  · split at h <;> cases h
  · cases h
  · cases h
  · split at h <;> cases h

theorem peerPass_ne_outOfFuel (hfuel : w.master.peers.length - i < fuel) :
    peerPass answer fuel w i ≠ .error .outOfFuel := by
  induction fuel generalizing w i with
  | zero => omega
  | succ fuel ih =>
    simp only [peerPass]
    split
    · nofun
    · rename_i peer hget
      split
      · rename_i e he
        intro h
        cases h
        exact examine_ne_outOfFuel he
      · rename_i w' next hexamine
        obtain ⟨-, hless, -⟩ := examine_measure hget hexamine
        exact ih (by omega)

/-- A pass that accepts a peer leaves fewer to vet. -/
theorem peerPass_vettings (h : peerPass answer fuel w i = .ok w') :
    w'.master.vettings ≤ w.master.vettings ∧
      (w'.anychanges = true → w.anychanges = true ∨
        w'.master.vettings < w.master.vettings) := by
  induction fuel generalizing w i with
  | zero => cases h
  | succ fuel ih =>
    simp only [peerPass] at h
    split at h
    · cases h
      exact ⟨le_rfl, Or.inl⟩
    · rename_i peer hget
      split at h
      · cases h
      · rename_i w₁ next hexamine
        obtain ⟨-, -, hle₁, hany₁⟩ := examine_measure hget hexamine
        obtain ⟨hle, hany⟩ := ih h
        refine ⟨Nat.le_trans hle hle₁, fun htrue => ?_⟩
        obtain htrue₁ | hlt := hany htrue
        · exact (hany₁ htrue₁).imp id fun hlt => by omega
        · exact .inr (by omega)

theorem repeatPasses_ne_outOfFuel {c : Checked} (hfuel : c.master.vettings < fuel) :
    repeatPasses answer fuel c asked ≠ .error .outOfFuel := by
  induction fuel generalizing c asked with
  | zero => omega
  | succ fuel ih =>
    simp only [repeatPasses]
    split
    · rename_i e he
      intro h
      cases h
      exact peerPass_ne_outOfFuel (by simp) he
    · rename_i w hpass
      obtain ⟨-, hany⟩ := peerPass_vettings hpass
      split
      · rename_i htrue
        obtain hfalse | hlt := hany htrue
        · cases hfalse
        · exact ih (Nat.lt_of_lt_of_le hlt (Nat.le_of_lt_succ hfuel))
      · nofun

/-- The repeated passes over the list end, whatever peers there are and whatever
the client answers. -/
theorem checkAndUpdatePeerStates_terminates (m : NetCommunicatorMaster) (c : CheckInput) :
    m.checkAndUpdatePeerStates c ≠ .error .outOfFuel := by
  apply repeatPasses_ne_outOfFuel
  have hle := List.countP_le_length (l := (m.receiveConfigs c).states)
    (p := fun p => p.2 == .vetting)
  rw [length_states] at hle
  exact Nat.lt_succ_of_le hle

theorem examine_error {e : Fault} (h : examine answer w peer i = .error e) :
    e = .beyondEnd := by
  simp only [examine] at h
  split at h
  · split at h <;> cases h
  · cases h
  · cases h
  · split at h <;> cases h
    rfl

theorem peerPass_error {e : Fault} (h : peerPass answer fuel w i = .error e) :
    e = .beyondEnd ∨ e = .outOfFuel := by
  induction fuel generalizing w i with
  | zero =>
    cases h
    exact .inr rfl
  | succ fuel ih =>
    simp only [peerPass] at h
    split at h
    · cases h
    · split at h
      · rename_i e' he
        cases h
        exact .inl (examine_error he)
      · exact ih h

theorem repeatPasses_error {e : Fault} {c : Checked}
    (h : repeatPasses answer fuel c asked = .error e) : e = .beyondEnd ∨ e = .outOfFuel := by
  induction fuel generalizing c asked with
  | zero =>
    cases h
    exact .inr rfl
  | succ fuel ih =>
    simp only [repeatPasses] at h
    split at h
    · rename_i e' he
      cases h
      exact peerPass_error he
    · split at h
      · exact ih h
      · cases h

/-- The check stops only where the iterator is moved beyond the end of the list. -/
theorem checkAndUpdatePeerStates_error {c : CheckInput} {e : Fault}
    (h : m.checkAndUpdatePeerStates c = .error e) : e = .beyondEnd := by
  obtain he | rfl := repeatPasses_error h
  · exact he
  · exact absurd h (m.checkAndUpdatePeerStates_terminates c)

/-! ### What the check preserves -/

variable {P : NetCommunicatorMaster → Prop}

theorem peerPass_invariant
    (hremove : ∀ m i p, m.peers[i]? = some p → P m → P (m.removePeer i p))
    (haccept : ∀ m i p, m.peers[i]? = some p → p.state = .vetting → P m → P (m.acceptPeer i p))
    (hdecode : ∀ m i, P m → P (m.decodeConfigData i))
    (hw : P w.master) (h : peerPass answer fuel w i = .ok w') : P w'.master := by
  induction fuel generalizing w i with
  | zero => cases h
  | succ fuel ih =>
    simp only [peerPass] at h
    split at h
    · cases h
      exact hw
    · rename_i peer hget
      split at h
      · cases h
      · rename_i w₁ next hexamine
        refine ih ?_ h
        obtain ⟨-, ⟨-, -, -, -, hm⟩ | ⟨hstate, -, -, -, hm⟩ | ⟨-, -, -, hm⟩ |
          ⟨-, -, -, -, hm⟩⟩ := examine_cases hexamine
        · exact hm ▸ hremove _ _ _ hget hw
        · exact hm ▸ haccept _ _ _ hget hstate hw
        · exact hm ▸ hdecode _ _ hw
        · exact hm ▸ hremove _ _ _ hget hw

/-- What removing, accepting and decoding preserve, the passes preserve. -/
theorem repeatPasses_invariant {c c' : Checked}
    (hremove : ∀ m i p, m.peers[i]? = some p → P m → P (m.removePeer i p))
    (haccept : ∀ m i p, m.peers[i]? = some p → p.state = .vetting → P m → P (m.acceptPeer i p))
    (hdecode : ∀ m i, P m → P (m.decodeConfigData i))
    (hc : P c.master) (h : repeatPasses answer fuel c asked = .ok c') : P c'.master := by
  induction fuel generalizing c asked with
  | zero => cases h
  | succ fuel ih =>
    simp only [repeatPasses] at h
    split at h
    · cases h
    · rename_i w hpass
      have hw : P w.master := peerPass_invariant hremove haccept hdecode hc hpass
      split at h
      · exact ih hw h
      · cases h
        exact hw

/-- What carrying out one change preserves, the planned changes preserve. -/
theorem applyChanges_invariant {l : List ChangeCycle}
    (hchange : ∀ m c, P m → P (m.applyChange c))
    (hqueue : ∀ m l, P m → P { m with peerChanges := l })
    (hm : P m) : P (m.applyChanges l) := by
  induction l generalizing m with
  | nil => exact hqueue m [] hm
  | cons change rest ih =>
    simp only [applyChanges]
    split
    · exact ih (hchange m change hm)
    · exact hqueue m _ hm

end NetCommunicatorMaster

end Dueca.Net
