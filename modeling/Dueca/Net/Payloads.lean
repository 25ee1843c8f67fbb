import Dueca.Net.Steady

/-!
# All messages for one cycle carry the same payload

Over every run of a network: no node stops in `codeAndSendUDPMessage`, and every
datagram carries what its sender packed for the cycle. The condition is on the
cycles in which a node is asked to send again. Without it, an old message of the
master that arrives late is enough to stop a peer.
-/

namespace Dueca.Net

open Dueca.Lib NetCommunicatorMaster

variable {s s' : Network} {i : ℕ}

/-- What a node has packed and passed on. -/
def Network.recordOf (s : Network) (i : ℕ) : NodeRecord :=
  if i = 0 then s.master.record else ((s.peers i).map PeerNode.record).getD {}

/-- The nodes are steady, and each datagram carries what its sender packed. -/
structure Network.Steady (s : Network) : Prop where
  master : s.master.Steady
  next : s.master.admin.nextPeerId < 2 ^ 15
  peers : ∀ i b, s.peers i = some b → 0 < i ∧ i < 2 ^ 15 ∧ b.Steady i (s.configsFor i)
  air : ∀ d ∈ s.air, d.cycle + 0x300 < 2 ^ 32 ∧
    (cycleBase d.cycle, d.payload) ∈ (s.recordOf d.peerId).packed

/-- A message for this cycle is no surprise to the peer: it is its first one, it is for
the cycle after the last one it packed for, or for that one or the one before, and it
did pack for them. -/
def PeerNode.InReach (b : PeerNode) (d : Datagram) : Prop :=
  b.trackingudpcycle = false ∨
    cycleBase d.cycle = cycleBase b.net.packedCycle + 16 ∨
    b.record.HasPacked (cycleBase d.cycle) ∧
      (cycleBase d.cycle = cycleBase b.net.packedCycle ∨
        cycleBase d.cycle + 16 = cycleBase b.net.packedCycle)

/-- The condition on a step. A new connection gets an id of 15 bits. The cycle counter
is far from wrapping. The master goes back one cycle only to a message it packed, and
its number of peers leaves zero only when its next message is a new one. A peer's turn
comes with a message that is in its reach. -/
def KeepsTrack (s : Network) : NetInput → Prop
  | .opened => s.master.admin.nextPeerId + 1 < 2 ^ 15
  | .begin _ => s.master.admin.net.messageCycle + 0x400 < 2 ^ 32
  | .masterReceive d =>
    s.master.phase = .receiving → d ∈ s.air → s.master.GoesBack d → s.master.PackedBefore
  | .check c =>
    s.master.admin.nextPeerId + c.events.length < 2 ^ 15 ∧
      ∀ c', s.master.admin.checkAndUpdatePeerStates c = .ok c' →
        MasterNode.StartsNormal s.master.admin c'.master
  | .peerReceive i d _ =>
    ∀ b, s.peers i = some b → d ∈ s.air → (b.unpackPeerData d).2 = true → b.InReach d
  | .timeout | .config _ | .leave _ => True

theorem recordOf_peer {b : PeerNode} (hi : 0 < i) (hb : s.peers i = some b) :
    s.recordOf i = b.record := by
  simp [Network.recordOf, hb, hi.ne']

/-- Records only grow, so that what is in the air stays packed. -/
theorem Network.Steady.air_mono (h : s.Steady)
    (hrec : ∀ j, (s.recordOf j).packed <+: (s'.recordOf j).packed) {sent : List Datagram}
    (hair : s'.air = s.air ++ sent)
    (hsent : ∀ d ∈ sent, d.cycle + 0x300 < 2 ^ 32 ∧
      (cycleBase d.cycle, d.payload) ∈ (s'.recordOf d.peerId).packed) :
    ∀ d ∈ s'.air, d.cycle + 0x300 < 2 ^ 32 ∧
      (cycleBase d.cycle, d.payload) ∈ (s'.recordOf d.peerId).packed := by
  rw [hair]
  intro d hd
  obtain hd | hd := List.mem_append.mp hd
  · obtain ⟨hcycle, hmem⟩ := h.air d hd
    exact ⟨hcycle, (hrec _).subset hmem⟩
  · exact hsent d hd

/-- A step of the master, which may send messages to the peers. -/
theorem Network.Steady.setMaster (h : s.Steady) {w : MasterNode} (hw : w.Steady)
    (hnext : w.admin.nextPeerId < 2 ^ 15) (hconfigs : s.master.admin.sent <+: w.admin.sent)
    (hrec : s.master.record.packed <+: w.record.packed) {sent : List Datagram}
    (hsent : ∀ d ∈ sent, d.peerId = 0 ∧ d.cycle + 0x300 < 2 ^ 32 ∧
      (cycleBase d.cycle, d.payload) ∈ w.record.packed) :
    { s with master := w, air := s.air ++ sent }.Steady where
  master := hw
  next := hnext
  peers := by
    intro i b hb
    obtain ⟨hpos, hlt, hsteady⟩ := h.peers i b hb
    exact ⟨hpos, hlt, hsteady.moreConfigs (hconfigs.filter _)⟩
  air := by
    refine h.air_mono (fun j => ?_) rfl fun d hd => ?_
    · simp only [Network.recordOf]
      split
      · exact hrec
      · exact List.prefix_rfl
    · obtain ⟨hid, hcycle, hmem⟩ := hsent d hd
      rw [hid]
      exact ⟨hcycle, hmem⟩

/-- A step of the master in which it sends nothing. -/
theorem Network.Steady.setMasterOnly (h : s.Steady) {w : MasterNode} (hw : w.Steady)
    (hnext : w.admin.nextPeerId < 2 ^ 15) (hconfigs : s.master.admin.sent <+: w.admin.sent)
    (hrec : s.master.record.packed <+: w.record.packed) : { s with master := w }.Steady := by
  have hnone : ∀ d ∈ ([] : List Datagram), d.peerId = 0 ∧ d.cycle + 0x300 < 2 ^ 32 ∧
      (cycleBase d.cycle, d.payload) ∈ w.record.packed := nofun
  have hsteady := h.setMaster hw hnext hconfigs hrec hnone
  rwa [List.append_nil] at hsteady

/-- A step of a peer. -/
theorem Network.Steady.setPeer (h : s.Steady) {b' : PeerNode} (hi : 0 < i ∧ i < 2 ^ 15)
    (hb' : b'.Steady i (s.configsFor i))
    (hrec : (s.recordOf i).packed <+: b'.record.packed) {sent : List Datagram}
    (hsent : ∀ d ∈ sent, d.peerId = i ∧ d.cycle + 0x300 < 2 ^ 32 ∧
      (cycleBase d.cycle, d.payload) ∈ b'.record.packed) :
    { s with peers := Function.update s.peers i b', air := s.air ++ sent }.Steady := by
  have hrecord : ∀ j, Network.recordOf
      { s with peers := Function.update s.peers i b', air := s.air ++ sent } j =
        if j = i then b'.record else s.recordOf j := by
    intro j
    by_cases hj : j = i
    · subst hj
      simp [Network.recordOf, hi.1.ne']
    · simp [Network.recordOf, hj]
  refine ⟨h.master, h.next, fun j b hb => ?_, h.air_mono (fun j => ?_) rfl fun d hd => ?_⟩
  · by_cases hj : j = i
    · subst hj
      simp only [Function.update_self, Option.some.injEq] at hb
      exact ⟨hi.1, hi.2, hb ▸ hb'⟩
    · simp only [Function.update_of_ne hj] at hb
      exact h.peers j b hb
  · rw [hrecord]
    split
    · rename_i hj
      exact hj ▸ hrec
    · exact List.prefix_rfl
  · obtain ⟨hid, hcycle, hmem⟩ := hsent d hd
    rw [hrecord, if_pos hid]
    exact ⟨hcycle, hmem⟩

/-- A step of a peer in which it sends nothing. -/
theorem Network.Steady.setPeerOnly (h : s.Steady) {b' : PeerNode} (hi : 0 < i ∧ i < 2 ^ 15)
    (hb' : b'.Steady i (s.configsFor i))
    (hrec : (s.recordOf i).packed <+: b'.record.packed) :
    { s with peers := Function.update s.peers i b' }.Steady := by
  have hnone : ∀ d ∈ ([] : List Datagram), d.peerId = i ∧ d.cycle + 0x300 < 2 ^ 32 ∧
      (cycleBase d.cycle, d.payload) ∈ b'.record.packed := nofun
  have hsteady := h.setPeer hi hb' hrec hnone
  rwa [List.append_nil] at hsteady

/-! ### The administration during a cycle -/

theorem finish_admin {w w' : MasterNode} (h : w.finish = .ok w') :
    ∃ n, w'.admin = { w.admin with net := n } := by
  simp only [MasterNode.finish] at h
  split at h
  · split at h
    · cases h
    · obtain rfl := Except.ok.inj h
      exact ⟨_, rfl⟩
  · split at h <;>
      (obtain rfl := Except.ok.inj h
       exact ⟨_, rfl⟩)

theorem begin_admin {w w' : MasterNode} {payload : List UInt8} {sent : List Datagram}
    (h : w.begin payload = .ok (w', sent)) : ∃ n, w'.admin = { w.admin with net := n } := by
  simp only [MasterNode.begin] at h
  split at h
  · split at h
    · cases h
    · rename_i done hdone
      obtain ⟨n, hn⟩ := finish_admin hdone
      obtain ⟨rfl, -⟩ := Prod.mk.inj (Except.ok.inj h)
      exact ⟨n, hn⟩
  · split at h
    · cases h
    · obtain ⟨rfl, -⟩ := Prod.mk.inj (Except.ok.inj h)
      exact ⟨_, rfl⟩

theorem receive_admin {w w' : MasterNode} {d : Datagram} (h : w.receive d = .ok w') :
    ∃ n, w'.admin = { w.admin with net := n } := by
  obtain ⟨-, -, n, hn⟩ := MasterNode.sameSending_unpackPeerData w d
  simp only [MasterNode.receive] at h
  split at h
  · obtain ⟨n', hn'⟩ := finish_admin h
    exact ⟨n', by rw [hn', hn]⟩
  · obtain rfl := Except.ok.inj h
    exact ⟨n, hn⟩

theorem foldl_receiveOne_nextPeerId (m : NetCommunicatorMaster) (events : List ConfigEvent) :
    (events.foldl receiveOne m).nextPeerId ≤ m.nextPeerId + events.length := by
  induction events generalizing m with
  | nil => exact Nat.le_refl _
  | cons e rest ih =>
    have hone := receiveOne_nextPeerId m e
    have hrest := ih (m.receiveOne e)
    simp only [List.foldl_cons, List.length_cons]
    omega

theorem decodeConfigData_nextPeerId (m : NetCommunicatorMaster) (i : ℕ) :
    (m.decodeConfigData i).nextPeerId = m.nextPeerId := by
  have hone : ∀ (m : NetCommunicatorMaster) (c : PeerCommand),
      (m.decodeCommand i c).nextPeerId = m.nextPeerId := by
    intro m c
    simp only [decodeCommand]
    split
    · rfl
    · cases c with
      | deletePeer => exact correctFollowId_nextPeerId _ _
      | clientPayload | duecaVersion | unhandled => rfl
  have hall : ∀ (commands : List PeerCommand) (m : NetCommunicatorMaster),
      (commands.foldl (fun m c => m.decodeCommand i c) m).nextPeerId = m.nextPeerId := by
    intro commands
    induction commands with
    | nil => exact fun _ => rfl
    | cons c rest ih => exact fun m => (ih _).trans (hone m c)
  exact hall _ m

/-- A check gives out one id at most for each event. -/
theorem check_nextPeerId {m : NetCommunicatorMaster} {input : CheckInput} {c : Checked}
    (hc : m.checkAndUpdatePeerStates input = .ok c) :
    c.master.nextPeerId ≤ m.nextPeerId + input.events.length := by
  have hreceived : (m.receiveConfigs input).nextPeerId ≤ m.nextPeerId + input.events.length := by
    have hfold := foldl_receiveOne_nextPeerId (m.applyChanges m.peerChanges) input.events
    rwa [applyChanges_nextPeerId] at hfold
  refine repeatPasses_invariant
    (P := fun m' => m'.nextPeerId ≤ m.nextPeerId + input.events.length)
    (fun m' i p _ hm => ?_) (fun _ _ _ _ _ hm => hm) (fun m' i hm => ?_) hreceived hc
  · simpa only [removePeer, uncountPeer, correctFollowId_nextPeerId] using hm
  · rwa [decodeConfigData_nextPeerId]

/-! ### The steps -/

theorem Network.Steady.opened (h : s.Steady) (hnext : s.master.admin.nextPeerId + 1 < 2 ^ 15) :
    { s with master := { s.master with admin := s.master.admin.assignPeerId } }.Steady := by
  obtain ⟨hb, hl, hrest, hwork, hrec, hid, hcfg⟩ := h.master
  have hid' : s.master.admin.assignPeerId.nextPeerId < 2 ^ 15 :=
    Nat.lt_of_le_of_lt (Nat.mod_le _ _) hnext
  have hsteady : { s.master with admin := s.master.admin.assignPeerId }.Steady :=
    ⟨hb, hl, hrest, hwork, hrec, hid, hcfg.assignPeerId (by omega)⟩
  exact h.setMasterOnly hsteady hid' List.prefix_rfl List.prefix_rfl

theorem Network.Steady.begin (h : s.Steady)
    (hroom : s.master.admin.net.messageCycle + 0x400 < 2 ^ 32) (payload : List UInt8) :
    ∃ w sent, s.master.begin payload = .ok (w, sent) ∧
      { s with master := w, air := s.air ++ sent }.Steady := by
  obtain ⟨w, sent, hbegin, hw, hrec, -, hsent⟩ := h.master.begin hroom payload
  obtain ⟨n, hadmin⟩ := begin_admin hbegin
  refine ⟨w, sent, hbegin, h.setMaster hw ?_ ?_ hrec hsent⟩
  · rw [hadmin]
    exact h.next
  · exact (congrArg NetCommunicatorMaster.sent hadmin) ▸ List.prefix_rfl

theorem Network.Steady.masterReceive (h : s.Steady) {d : Datagram}
    (ha : KeepsTrack s (.masterReceive d)) :
    ∃ s', netStep s (.masterReceive d) = .ok s' ∧ s'.Steady := by
  simp only [netStep]
  split
  · rename_i hd
    obtain ⟨w, hreceive, hw, hrecord⟩ := h.master.receive hd.1 (ha hd.1 hd.2)
    obtain ⟨n, hadmin⟩ := receive_admin hreceive
    have hpacked : w.record.packed = s.master.record.packed := by
      rw [hrecord]
      exact (MasterNode.sameSending_unpackPeerData s.master d).1.packed
    simp only [hreceive]
    have hconfigs : w.admin.nextPeerId < 2 ^ 15 ∧ s.master.admin.sent <+: w.admin.sent := by
      rw [hadmin]
      exact ⟨h.next, List.prefix_rfl⟩
    exact ⟨_, rfl, h.setMasterOnly hw hconfigs.1 hconfigs.2 (hpacked ▸ List.prefix_rfl)⟩
  · exact ⟨s, rfl, h⟩

theorem Network.Steady.timeout (h : s.Steady) :
    ∃ s', netStep s .timeout = .ok s' ∧ s'.Steady := by
  simp only [netStep]
  split
  · rename_i hphase
    exact ⟨_, rfl, h.setMasterOnly (h.master.timeout hphase) h.next List.prefix_rfl
      List.prefix_rfl⟩
  · exact ⟨s, rfl, h⟩

/-- The check goes through, or the iterator is moved beyond the end of the list. -/
theorem Network.Steady.check (h : s.Steady) {c : CheckInput} (ha : KeepsTrack s (.check c)) :
    netStep s (.check c) = .error .beyondEnd ∨
      ∃ s', netStep s (.check c) = .ok s' ∧ s'.Steady := by
  simp only [netStep]
  split
  · cases hc : s.master.admin.checkAndUpdatePeerStates c with
    | error e => exact .inl (congrArg _ (checkAndUpdatePeerStates_error hc))
    | ok c' =>
      refine .inr ⟨_, rfl, ?_⟩
      have hnext := check_nextPeerId hc
      obtain ⟨hroom, hstart⟩ := ha
      exact h.setMasterOnly (h.master.check (by omega) hc (hstart c' hc))
        (show c'.master.nextPeerId < 2 ^ 15 by omega) (sent_check hc) List.prefix_rfl
  · exact .inr ⟨s, rfl, h⟩

/-- The configuration messages to one peer hold one configuration at most. -/
theorem countP_configsFor (h : s.Steady) (i : ℕ) :
    (s.configsFor i).countP SentConfig.isWelcome ≤ 1 := by
  have honce := h.master.configured.once i
  have heq : (s.configsFor i).countP SentConfig.isWelcome = welcomes s.master.admin.sent i := by
    rw [Network.configsFor, List.countP_filter, welcomes]
    simp only [Bool.and_comm]
  omega

theorem Network.Steady.config (h : s.Steady) (i : ℕ) :
    ∃ s', netStep s (.config i) = .ok s' ∧ s'.Steady := by
  simp only [netStep]
  split
  · exact ⟨s, rfl, h⟩
  · rename_i c hget
    have hmem := List.mem_filter.mp (List.mem_of_getElem? hget)
    have htarget : c.target = i := by simpa using hmem.2
    have hpos := h.master.configured.targets c hmem.1
    obtain ⟨hform, hcycle⟩ := h.master.configured.wellFormed c hmem.1
    have hnext := h.next
    have hb : ((s.peers i).getD {}).Steady i (s.configsFor i) ∧
        s.recordOf i = ((s.peers i).getD {}).record := by
      cases hi : s.peers i with
      | none => exact ⟨PeerNode.steady_init i _, by
          simp [Network.recordOf, hi, show i ≠ 0 by omega]⟩
      | some b => exact ⟨(h.peers i b hi).2.2, recordOf_peer (by omega) hi⟩
    obtain ⟨hsteady, hrecord⟩ := hb.1.decodeConfigData hget htarget (by omega) hform hcycle
      (countP_configsFor h i)
    have hrec : (s.recordOf i).packed <+: (((s.peers i).getD {}).decodeConfigData
        c.configs).record.packed := by
      exact (hrecord.trans hb.2.symm) ▸ List.prefix_rfl
    exact ⟨_, rfl, h.setPeerOnly (by omega) hsteady hrec⟩

/-- What a peer's turn says about its counters. -/
theorem followMaster_cycles {b : PeerNode} {d : Datagram} :
    (b.trackingudpcycle = true → (b.followMaster d).net.packedCycle = b.net.packedCycle) ∧
      (b.trackingudpcycle = false → (b.followMaster d).trackingudpcycle = true →
        cycleBase d.cycle = cycleBase b.net.messageCycle ∧
          (b.followMaster d).net.packedCycle = minus32 d.cycle 0x10) := by
  simp only [PeerNode.followMaster]
  split
  · rename_i htrack
    obtain ⟨f, q, heq⟩ := PeerNode.changeFollow_eq
      { b with net := PeerNode.countReplies b.net d } b.followChanges
    refine ⟨fun _ => ?_, fun hf => by cases htrack.symm.trans hf⟩
    rw [heq]
    simp only [PeerNode.countReplies, NetCommunicator.dropStale]
    split
    · split <;> rfl
    · rfl
  · rename_i htrack
    refine ⟨fun ht => absurd ht htrack, fun _ => ?_⟩
    split
    · rename_i hcur
      obtain ⟨f, q, heq⟩ := PeerNode.changeFollow_eq (b.enterCycle d) (b.enterCycle d).followChanges
      rw [heq]
      exact fun _ => ⟨(beq_iff_eq.mp hcur).symm, rfl⟩
    · obtain ⟨f, q, heq⟩ := PeerNode.changeFollow_eq b b.followChanges
      rw [heq]
      exact fun ht => absurd ht htrack

theorem followMaster_record (b : PeerNode) (d : Datagram) :
    (b.followMaster d).record = b.record := by
  have hfollow : ∀ b' : PeerNode, (b'.changeFollow b'.followChanges).record = b'.record := by
    intro b'
    obtain ⟨f, q, heq⟩ := PeerNode.changeFollow_eq b' b'.followChanges
    rw [heq]
  simp only [PeerNode.followMaster, hfollow]
  split
  · rfl
  · split <;> rfl

/-- A peer whose turn comes with a message in its reach can send. -/
theorem sendable_of_inReach {b : PeerNode} {d : Datagram} {configs : List SentConfig}
    (h : b.Steady i configs) (hturn : (b.unpackPeerData d).2 = true) (hreach : b.InReach d) :
    Sendable (b.unpackPeerData d).1.net (b.unpackPeerData d).1.record := by
  simp only [PeerNode.unpackPeerData] at hturn ⊢
  split at hturn
  · cases hturn
  · rename_i hnot
    simp only [Bool.or_eq_true, Bool.not_eq_true', not_or, Bool.not_eq_false] at hnot
    rw [if_neg (by simpa using hnot)]
    obtain ⟨b', hb', hcycles⟩ : ∃ b', (if d.peerId = 0 then b.followMaster d else b) = b' ∧
        (b.trackingudpcycle = true → b'.net.packedCycle = b.net.packedCycle) ∧
        (b.trackingudpcycle = false → b'.trackingudpcycle = true →
          cycleBase d.cycle = cycleBase b.net.messageCycle ∧
            b'.net.packedCycle = minus32 d.cycle 0x10) := by
      split
      · exact ⟨_, rfl, followMaster_cycles⟩
      · exact ⟨b, rfl, fun _ => rfl, fun hf ht => by cases hf.symm.trans ht⟩
    have hrecord : b'.record = b.record := by
      rw [← hb']
      split
      · exact followMaster_record b d
      · rfl
    rw [hb'] at hturn ⊢
    split at hturn
    · rename_i htrack
      rw [if_pos htrack]
      rw [hrecord]
      have hsame := sameSending_unpackPayload b'.net b.record d true
      obtain ⟨hm, hp, -⟩ := hsame.fields
      simp only [Bool.and_eq_true, beq_iff_eq] at hturn
      simp only [Sendable, hm, hp, hsame.hasPacked, hturn.2]
      by_cases htracked : b.trackingudpcycle = true
      · rw [hcycles.1 htracked]
        exact hreach.resolve_left (by simp [htracked])
      · -- its first message: the counters were set by it
        have hnew : b.trackingudpcycle = false := by simpa using htracked
        obtain ⟨hbase, hpacked⟩ := hcycles.2 hnew htrack
        have hwait := h.waits hnot.1 hnew
        have hle := cycleBase_le d.cycle
        have hminus := cycleBase_minus (c := d.cycle) (by omega)
        left
        rw [hpacked]
        omega
    · cases hturn

theorem Network.Steady.peerReceive (h : s.Steady) {i : ℕ} {d : Datagram} {payload : List UInt8}
    (ha : KeepsTrack s (.peerReceive i d payload)) :
    ∃ s', netStep s (.peerReceive i d payload) = .ok s' ∧ s'.Steady := by
  simp only [netStep]
  split
  · exact ⟨s, rfl, h⟩
  · rename_i b hb
    split
    · rename_i hair
      obtain ⟨hpos, hlt, hsteady⟩ := h.peers i b hb
      obtain ⟨b', sent, hreceive, hsteady', hrec, -, hsent⟩ := hsteady.receive hlt
        (h.air d hair).1 (fun hturn => sendable_of_inReach hsteady hturn (ha b hb hair hturn))
        payload
      simp only [hreceive]
      exact ⟨_, rfl, h.setPeer ⟨hpos, hlt⟩ hsteady' (recordOf_peer hpos hb ▸ hrec) hsent⟩
    · exact ⟨s, rfl, h⟩

theorem Network.Steady.leave (h : s.Steady) (i : ℕ) :
    ∃ s', netStep s (.leave i) = .ok s' ∧ s'.Steady := by
  simp only [netStep]
  split
  · exact ⟨s, rfl, h⟩
  · rename_i b hb
    obtain ⟨hpos, hlt, hsteady⟩ := h.peers i b hb
    exact ⟨_, rfl, h.setPeerOnly ⟨hpos, hlt⟩ hsteady.leave
      (recordOf_peer hpos hb ▸ List.prefix_rfl)⟩

/-- A step that keeps track leaves the network steady. -/
theorem Network.Steady.step (h : s.Steady) {a : NetInput} (ha : KeepsTrack s a) :
    netStep s a = .error .beyondEnd ∨ ∃ s', netStep s a = .ok s' ∧ s'.Steady := by
  cases a with
  | opened => exact .inr ⟨_, rfl, h.opened ha⟩
  | begin payload =>
    simp only [netStep]
    split
    · obtain ⟨w, sent, hbegin, hsteady⟩ := h.begin ha payload
      simp only [hbegin]
      exact .inr ⟨_, rfl, hsteady⟩
    · exact .inr ⟨s, rfl, h⟩
  | masterReceive d => exact .inr (h.masterReceive ha)
  | timeout => exact .inr h.timeout
  | check c => exact h.check ha
  | config i => exact .inr (h.config i)
  | peerReceive i d payload => exact .inr (h.peerReceive ha)
  | leave i => exact .inr (h.leave i)

theorem steady_start : Network.Steady {} where
  master := by
    refine ⟨⟨.nil, nofun, fun l a hl => ?_, fun l a b hl => ?_⟩, .inl fun l a hl => ?_,
      ⟨fun _ => ⟨rfl, nofun⟩, nofun, nofun⟩, fun hne => absurd rfl hne, nofun, rfl, ?_⟩
    · simp at hl
    · simp at hl
    · simp at hl
    · exact ⟨by decide, nofun, nofun, nofun, fun _ => Nat.zero_le 1⟩
  next := by decide
  peers := nofun
  air := nofun

/-! ### The claim -/

/-- The run ends in no error but that of the iterator, and two datagrams that one node
sent for one cycle carry the same payload: the one it packed for it. -/
def PayloadsHold (ins : List NetInput) : Prop :=
  (∀ e, exec netStep {} ins = .error e → e = .beyondEnd) ∧
    ∀ s, exec netStep {} ins = .ok s →
      (∀ d ∈ s.air, (cycleBase d.cycle, d.payload) ∈ (s.recordOf d.peerId).packed) ∧
      ∀ d ∈ s.air, ∀ d' ∈ s.air, d.peerId = d'.peerId → cycleBase d.cycle = cycleBase d'.cycle →
        d.payload = d'.payload

/-- A node packs one payload for a cycle. -/
theorem Network.Steady.sorted (h : s.Steady) (i : ℕ) :
    (s.recordOf i).packed.Pairwise fun a b => a.1 < b.1 := by
  by_cases hi : i = 0
  · subst hi
    exact h.master.buffered.sorted
  · cases hb : s.peers i with
    | none => simp [Network.recordOf, hi, hb]
    | some b =>
      obtain ⟨hpos, -, hsteady⟩ := h.peers i b hb
      rw [recordOf_peer hpos hb]
      cases htrack : b.trackingudpcycle with
      | false => simp [hsteady.fresh htrack]
      | true => exact (hsteady.tracks htrack).buffered.sorted

/-- In every run that keeps track the tests on the counters pass, and all datagrams of
a node for one cycle carry the payload it packed. -/
theorem payloads_of_run (ins : List NetInput) (hok : Allowed netStep KeepsTrack {} ins) :
    PayloadsHold ins := by
  have hstep : ∀ s a s', Network.Steady s → KeepsTrack s a → netStep s a = .ok s' →
      Network.Steady s' := by
    intro s a s' hs ha hstep
    obtain herror | ⟨t, ht, hsteady⟩ := hs.step ha
    · cases hstep.symm.trans herror
    · exact Except.ok.inj (ht.symm.trans hstep) ▸ hsteady
  refine ⟨fun e he => ?_, fun s hs => ?_⟩
  · refine exec_fault (E := fun e => e = .beyondEnd) hstep (fun s a e hs ha herr => ?_)
      steady_start hok he
    obtain herror | ⟨t, ht, -⟩ := hs.step ha
    · exact Except.error.inj (herr.symm.trans herror)
    · cases herr.symm.trans ht
  · have hsteady := exec_invariant hstep steady_start hok hs
    have hpacked : ∀ d ∈ s.air, (cycleBase d.cycle, d.payload) ∈ (s.recordOf d.peerId).packed :=
      fun d hd => (hsteady.air d hd).2
    refine ⟨hpacked, fun d hd d' hd' hid hcycle => ?_⟩
    have hmem := hpacked d hd
    rw [hid] at hmem
    exact congrArg Prod.snd
      (eq_of_fst_eq (hsteady.sorted d'.peerId) hmem (hpacked d' hd') hcycle)

/-- A peer connects, is accepted and configured, and joins. -/
def joinRun : List NetInput :=
  let answer : ℕ → VettingResult := fun _ => .accept
  [.begin [], .check ⟨[.opened], answer⟩, .begin [], .check ⟨[], answer⟩,
    .begin [], .check ⟨[], answer⟩, .config 1]

/-- A cycle of the master and one peer. -/
def cycleRun (cycle : ℕ) : List NetInput :=
  [.begin [1], .peerReceive 1 { cycle := cycle, peerField := 0, npeers := 1, payload := [1] } [2],
    .masterReceive { cycle := cycle, peerField := 1, npeers := 1, payload := [2] },
    .check ⟨[], fun _ => .accept⟩]

/-- A test that is enough for a step to keep track: every message is new. -/
def newMessages (s : Network) : NetInput → Bool
  | .opened => s.master.admin.nextPeerId + 1 < 2 ^ 15
  | .begin _ => s.master.admin.net.messageCycle + 0x400 < 2 ^ 32
  | .masterReceive d => !d.errorflag
  | .check c =>
    decide (s.master.admin.nextPeerId + c.events.length < 2 ^ 15) &&
      s.master.admin.net.sendstate == .normal
  | .peerReceive i d _ =>
    match s.peers i with
    | none => true
    | some b =>
      !b.trackingudpcycle || cycleBase d.cycle == cycleBase b.net.packedCycle + 16
  | .timeout | .config _ | .leave _ => true

theorem keepsTrack_of_newMessages (s : Network) (a : NetInput) (h : newMessages s a = true) :
    KeepsTrack s a := by
  cases a with
  | opened | begin payload =>
    simp only [newMessages, decide_eq_true_eq] at h
    exact h
  | masterReceive d =>
    rintro - - ⟨-, -, herror, -⟩
    simp [newMessages, herror] at h
  | check c =>
    simp only [newMessages, Bool.and_eq_true, decide_eq_true_eq, beq_iff_eq] at h
    exact ⟨h.1, fun _ _ => .inl h.2⟩
  | peerReceive i d payload =>
    intro b hb _ _
    simp only [newMessages, hb, Bool.or_eq_true, Bool.not_eq_true', beq_iff_eq] at h
    exact h.imp_right .inl
  | timeout | config i | leave i => exact trivial

/-- A peer joins, and answers the master in its first two cycles. -/
theorem payloads_first_cycles : PayloadsHold (joinRun ++ cycleRun 0x40 ++ cycleRun 0x50) :=
  payloads_of_run _ (allowed_of_checks keepsTrack_of_newMessages (by decide +kernel))

/-- The peer answers in three cycles, and then hears the master's message of the first
one again: the cycle is before that of its backup buffer, and it stops. -/
theorem not_payloads_late_message :
    ¬ PayloadsHold (joinRun ++ cycleRun 0x40 ++ cycleRun 0x50 ++ cycleRun 0x60 ++
      [.peerReceive 1 { cycle := 0x40, peerField := 0, npeers := 1, payload := [1] } [2]]) := by
  rintro ⟨herror, -⟩
  have hrun : (match exec netStep {} (joinRun ++ cycleRun 0x40 ++ cycleRun 0x50 ++ cycleRun 0x60 ++
      [.peerReceive 1 { cycle := 0x40, peerField := 0, npeers := 1, payload := [1] } [2]]) with
    | .error e => e == .criticalError
    | .ok _ => false) = true := by decide +kernel
  split at hrun
  · rename_i e he
    obtain rfl := herror e he
    cases hrun
  · cases hrun

end Dueca.Net
