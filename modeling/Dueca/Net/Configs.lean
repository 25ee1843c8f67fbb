import Dueca.Net.Passes

/-!
# What the check does to the communicator and to the peers' configuration

Of the communicator, the check changes the number of peers and the cycle of the
current buffer only. Each peer gets at most one message with its configuration, and
all others tell it whom to follow or when to leave.
-/

namespace Dueca.Net

open NetCommunicatorMaster

/-- The communicator is as before, except for the number of peers and the cycle of
the current buffer. -/
structure NetKept (n n' : NetCommunicator) : Prop where
  rest : n' = { n with npeers := n'.npeers, currentSendBuffer := n'.currentSendBuffer }
  payload : n'.currentSendBuffer =
    { n.currentSendBuffer with messageCycle := n'.currentSendBuffer.messageCycle }
  label : n'.currentSendBuffer.messageCycle = n.currentSendBuffer.messageCycle ∨
    n'.currentSendBuffer.messageCycle = minus32 n.messageCycle 0x10

namespace NetKept

variable {n n' n'' : NetCommunicator}

theorem refl (n : NetCommunicator) : NetKept n n := ⟨rfl, rfl, .inl rfl⟩

theorem messageCycle (h : NetKept n n') : n'.messageCycle = n.messageCycle := by
  rw [h.rest]

theorem trans (h : NetKept n n') (h' : NetKept n' n'') : NetKept n n'' := by
  refine ⟨?_, ?_, ?_⟩
  · rw [h'.rest, h.rest]
  · rw [h'.payload, h.payload]
  · obtain hl | hl := h'.label
    · rw [hl]
      exact h.label
    · rw [hl, h.messageCycle]
      exact .inr rfl

theorem of_npeers (n : NetCommunicator) (k : ℕ) : NetKept n { n with npeers := k } :=
  ⟨rfl, rfl, .inl rfl⟩

theorem of_relabel (n : NetCommunicator) (k : ℕ) {l : ℕ}
    (hl : l = minus32 n.messageCycle 0x10) :
    NetKept n { n with
      npeers := k, currentSendBuffer := { n.currentSendBuffer with messageCycle := l } } :=
  ⟨rfl, rfl, .inr hl⟩

end NetKept

namespace NetCommunicatorMaster

variable {m m' : NetCommunicatorMaster} {c c' : Checked} {peer : CommPeer} {i : ℕ}

theorem netKept_applyChange (m : NetCommunicatorMaster) (change : ChangeCycle) :
    NetKept m.net (m.applyChange change).net := by
  simp only [applyChange]
  split
  · split
    · simp only [countPeer]
      split
      · exact .of_relabel _ _ rfl
      · exact .of_npeers _ _
    · exact .of_npeers _ _
  · exact .refl _

theorem netKept_removePeer (m : NetCommunicatorMaster) (i : ℕ) (peer : CommPeer) :
    NetKept m.net (m.removePeer i peer).net := by
  simp only [removePeer, uncountPeer, correctFollowId_net]
  exact .of_npeers _ _

theorem receiveOne_net (m : NetCommunicatorMaster) (e : ConfigEvent) :
    (m.receiveOne e).net = m.net := by
  cases e <;> rfl

theorem foldl_receiveOne_net (m : NetCommunicatorMaster) (events : List ConfigEvent) :
    (events.foldl receiveOne m).net = m.net := by
  induction events generalizing m with
  | nil => rfl
  | cons e rest ih => exact (ih _).trans (receiveOne_net m e)

/-- The check changes the number of peers, and the cycle of the current buffer. -/
theorem netKept_check {input : CheckInput} (h : m.checkAndUpdatePeerStates input = .ok c) :
    NetKept m.net c.master.net := by
  have hchanges : NetKept m.net (m.applyChanges m.peerChanges).net :=
    applyChanges_invariant (P := fun m' => NetKept m.net m'.net)
      (fun m' change hk => hk.trans (netKept_applyChange m' change)) (fun _ _ hk => hk) (.refl _)
  have hreceived : NetKept m.net (m.receiveConfigs input).net := by
    rw [receiveConfigs, foldl_receiveOne_net]
    exact hchanges
  refine repeatPasses_invariant (P := fun m' => NetKept m.net m'.net)
    (fun m' i p _ hk => hk.trans (netKept_removePeer m' i p)) (fun _ _ _ _ _ hk => hk)
    (fun m' i hk => ?_) hreceived h
  rw [decodeConfigData_net]
  exact hk

end NetCommunicatorMaster

/-! ### The messages to the peers -/

/-- Whether a message holds a peer's configuration. -/
def SentConfig.isWelcome (c : SentConfig) : Bool :=
  c.configs.any fun u => match u with
    | .peerInfo _ => true
    | _ => false

/-- The messages to a peer: its configuration, whom to follow from now on, or when
to leave. -/
def SentConfig.WellFormed (c : SentConfig) : Prop :=
  (∃ f k, (k = 2 ∨ k = 10) ∧ c.configs =
    [.hookUp f (cycleIncrement c.cycle k), .configurePeer (c.target % 2 ^ 16),
      .peerInfo (cycleIncrement c.cycle k), .initialConfComplete]) ∨
  (∃ f, c.configs = [.hookUp f 0]) ∨ ∃ id t, c.configs = [.deletePeer id t]

namespace NetCommunicatorMaster

variable {m m' : NetCommunicatorMaster} {c c' : Checked} {peer : CommPeer} {i : ℕ}

/-- The configurations sent to an id. -/
def welcomes (l : List SentConfig) (id : ℕ) : ℕ :=
  l.countP fun c => c.target == id && c.isWelcome

/-- The peers with this id that wait to be vetted. -/
def vettingAs (m : NetCommunicatorMaster) (id : ℕ) : ℕ :=
  m.states.countP fun p => p.1 == id && p.2 == .vetting

/-- Ids are given out once, and each gets at most one configuration. The cycle
counter is far from wrapping. -/
structure Configured (m : NetCommunicatorMaster) : Prop where
  room : m.net.messageCycle + 0x300 < 2 ^ 32
  ids : ∀ p ∈ m.states, 0 < p.1 ∧ p.1 ≤ m.nextPeerId
  targets : ∀ c ∈ m.sent, 0 < c.target ∧ c.target ≤ m.nextPeerId
  wellFormed : ∀ c ∈ m.sent, c.WellFormed ∧ c.cycle + 0x300 < 2 ^ 32
  once : ∀ id, welcomes m.sent id + m.vettingAs id ≤ 1

/-- A step that sends more messages, of which each configuration is paid for with
the vetting of its peer. -/
theorem Configured.step (h : m.Configured) (extra : List SentConfig)
    (hcycle : m'.net.messageCycle = m.net.messageCycle) (hnext : m'.nextPeerId = m.nextPeerId)
    (hids : ∀ p ∈ m'.states, 0 < p.1 ∧ p.1 ≤ m.nextPeerId) (hsent : m'.sent = m.sent ++ extra)
    (hextra : ∀ c ∈ extra, (0 < c.target ∧ c.target ≤ m.nextPeerId) ∧ c.WellFormed ∧
      c.cycle = m.net.messageCycle)
    (hcount : ∀ id, welcomes extra id + m'.vettingAs id ≤ m.vettingAs id) : m'.Configured where
  room := hcycle ▸ h.room
  ids := by rwa [hnext]
  targets := by
    rw [hsent, hnext]
    intro c hc
    exact (List.mem_append.mp hc).elim (h.targets c) fun hc => (hextra c hc).1
  wellFormed := by
    rw [hsent]
    intro c hc
    refine (List.mem_append.mp hc).elim (h.wellFormed c) fun hc => ?_
    obtain ⟨-, hform, hcycle⟩ := hextra c hc
    exact ⟨hform, hcycle ▸ h.room⟩
  once := by
    intro id
    have hle := hcount id
    have honce := h.once id
    simp only [hsent, welcomes, List.countP_append] at *
    omega

/-- A step that leaves the list alone and sends no configuration. -/
theorem Configured.of_states (h : m.Configured) (extra : List SentConfig)
    (hcycle : m'.net.messageCycle = m.net.messageCycle) (hnext : m'.nextPeerId = m.nextPeerId)
    (hstates : m'.states = m.states) (hsent : m'.sent = m.sent ++ extra)
    (hextra : ∀ c ∈ extra, (0 < c.target ∧ c.target ≤ m.nextPeerId) ∧ c.WellFormed ∧
      c.cycle = m.net.messageCycle ∧ c.isWelcome = false) : m'.Configured := by
  refine h.step extra hcycle hnext (hstates ▸ h.ids) hsent
    (fun c hc => ⟨(hextra c hc).1, (hextra c hc).2.1, (hextra c hc).2.2.1⟩) fun id => ?_
  have hnone : welcomes extra id = 0 := by
    rw [welcomes, List.countP_eq_zero]
    intro c hc
    simp [(hextra c hc).2.2.2]
  rw [hnone, Nat.zero_add, vettingAs, hstates, vettingAs]

theorem Configured.id_le (h : m.Configured) {p : CommPeer} (hp : p ∈ m.peers) :
    0 < p.sendId ∧ p.sendId ≤ m.nextPeerId :=
  h.ids _ (List.mem_map_of_mem (f := fun p : CommPeer => (p.sendId, p.state)) hp)

theorem correctFollowId_nextPeerId (s f : ℕ) :
    (m.correctFollowId s f).nextPeerId = m.nextPeerId := by
  simp only [correctFollowId]
  split
  · rfl
  · split <;> rfl

/-- A correction is told to the peer that follows someone else from now on. -/
theorem correctFollowId_sent (s f : ℕ) :
    ∃ extra, (m.correctFollowId s f).sent = m.sent ++ extra ∧ ∀ c ∈ extra, ∃ p ∈ m.peers,
      c = { target := p.sendId, cycle := m.net.messageCycle,
            configs := [.hookUp (f % 2 ^ 16) 0] } := by
  simp only [correctFollowId]
  split
  · exact ⟨[], by simp, List.forall_mem_nil _⟩
  · rename_i p2 hp2
    split
    · exact ⟨[], by simp, List.forall_mem_nil _⟩
    · refine ⟨_, rfl, fun c hc => ⟨p2, List.mem_of_find?_eq_some hp2, ?_⟩⟩
      exact List.mem_singleton.mp hc

theorem Configured.correctFollowId (h : m.Configured) (s f : ℕ) :
    (m.correctFollowId s f).Configured := by
  obtain ⟨extra, hsent, hextra⟩ := correctFollowId_sent (m := m) s f
  refine h.of_states extra (by rw [correctFollowId_net]) (correctFollowId_nextPeerId s f)
    (correctFollowId_states s f) hsent fun c hc => ?_
  obtain ⟨p, hp, rfl⟩ := hextra c hc
  exact ⟨h.id_le hp, .inr (.inl ⟨_, rfl⟩), rfl, rfl⟩

theorem Configured.decodeCommand (h : m.Configured) (command : PeerCommand) :
    (m.decodeCommand i command).Configured := by
  simp only [NetCommunicatorMaster.decodeCommand]
  split
  · exact h
  · rename_i p hp
    cases command with
    | deletePeer =>
      refine Configured.correctFollowId ?_ _ _
      refine h.of_states [_] rfl rfl rfl rfl fun c hc => ?_
      rw [List.mem_singleton.mp hc]
      exact ⟨h.id_le (List.mem_of_getElem? hp), .inr (.inr ⟨_, _, rfl⟩), rfl, rfl⟩
    | clientPayload | duecaVersion | unhandled => exact h

theorem Configured.decodeConfigData (h : m.Configured) (i : ℕ) :
    (m.decodeConfigData i).Configured := by
  have hfold : ∀ (commands : List PeerCommand) (m : NetCommunicatorMaster), m.Configured →
      (commands.foldl (fun m c => m.decodeCommand i c) m).Configured := by
    intro commands
    induction commands with
    | nil => exact fun _ h => h
    | cons c rest ih => exact fun m h => ih _ (h.decodeCommand c)
  have hdecoded := hfold ((m.peers[i]?.map CommPeer.commbuf).getD []) m h
  refine hdecoded.of_states [] rfl rfl ?_ (List.append_nil _).symm nofun
  exact decodeConfigData_states.trans (foldl_decodeCommand _).1.symm

theorem vettingAs_le {id : ℕ} (hs : m'.states.Sublist m.states) :
    m'.vettingAs id ≤ m.vettingAs id :=
  hs.countP_le

theorem Configured.removePeer (h : m.Configured) (i : ℕ) (peer : CommPeer) :
    (m.removePeer i peer).Configured := by
  have hcorrected := h.correctFollowId peer.sendId peer.followId
  have hsub : (m.removePeer i peer).states.Sublist
      (m.correctFollowId peer.sendId peer.followId).states := by
    rw [removePeer_states, correctFollowId_states]
    exact List.eraseIdx_sublist ..
  have hcycle : (m.removePeer i peer).net.messageCycle =
      (m.correctFollowId peer.sendId peer.followId).net.messageCycle := by
    rw [(netKept_removePeer m i peer).messageCycle, correctFollowId_net]
  have hnext : (m.removePeer i peer).nextPeerId =
      (m.correctFollowId peer.sendId peer.followId).nextPeerId := by
    simp only [NetCommunicatorMaster.removePeer, uncountPeer]
  have hsent : (m.removePeer i peer).sent =
      (m.correctFollowId peer.sendId peer.followId).sent ++ [] := by
    simp only [NetCommunicatorMaster.removePeer, uncountPeer, List.append_nil]
  refine hcorrected.step [] hcycle hnext (fun p hp => hcorrected.ids p (hsub.subset hp))
    hsent (List.forall_mem_nil _) fun id => ?_
  have hle := (@vettingAs_le _ _ id) hsub
  rwa [welcomes, List.countP_nil, Nat.zero_add]

theorem Configured.acceptPeer (h : m.Configured) (hget : m.peers[i]? = some peer)
    (hstate : peer.state = .vetting) : (m.acceptPeer i peer).Configured := by
  have hmem := h.id_le (List.mem_of_getElem? hget)
  refine h.step [_] rfl rfl ?_ rfl ?_ fun id => ?_
  · rw [acceptPeer_states]
    intro p hp
    obtain ⟨j, hj⟩ := List.mem_iff_getElem?.mp hp
    rw [List.getElem?_modify] at hj
    obtain ⟨q, hq, heq⟩ := Option.map_eq_some_iff.mp hj
    have hq := h.ids q (List.mem_of_getElem? hq)
    split at heq <;> (subst heq; exact hq)
  · intro c hc
    rw [List.mem_singleton.mp hc]
    refine ⟨hmem, .inl ⟨_, if m.net.npeers = 0 then 2 else 10, ?_, rfl⟩, rfl⟩
    split <;> simp
  · have hcount := countP_modify (f := fun p : ℕ × PeerState => (p.1, PeerState.wait))
      (p := fun p => p.1 == id && p.2 == .vetting) (states_getElem? hget)
    rw [vettingAs, vettingAs, acceptPeer_states]
    simp [hstate] at hcount
    simp [welcomes, SentConfig.isWelcome, List.countP_cons]
    omega

theorem Configured.setChanges (h : m.Configured) (l : List ChangeCycle) :
    { m with peerChanges := l }.Configured :=
  ⟨h.room, h.ids, h.targets, h.wellFormed, h.once⟩

theorem Configured.applyChange (h : m.Configured) (change : ChangeCycle) :
    (m.applyChange change).Configured := by
  have hcycle := (netKept_applyChange m change).messageCycle
  have hrest : (m.applyChange change).nextPeerId = m.nextPeerId ∧
      (m.applyChange change).sent = m.sent := by
    simp only [NetCommunicatorMaster.applyChange]
    split
    · split <;> exact ⟨rfl, rfl⟩
    · exact ⟨rfl, rfl⟩
  obtain heq | ⟨l₁, p, l₂, hl, -, -, -, hcases⟩ := applyChange_cases m change
  · rwa [heq]
  have hids := h.ids
  simp only [states, hl, List.map_append, List.map_cons, List.forall_mem_append,
    List.forall_mem_cons] at hids
  refine h.step [] hcycle hrest.1 ?_ (hrest.2.trans (List.append_nil _).symm)
    (List.forall_mem_nil _) fun id => ?_
  · obtain ⟨-, hpeers, -⟩ | ⟨-, hpeers, -⟩ := hcases
    · simp only [states, hpeers, List.map_append, List.map_cons, List.forall_mem_append,
        List.forall_mem_cons]
      exact ⟨hids.1, hids.2.1, hids.2.2⟩
    · simp only [states, hpeers, List.map_append, List.forall_mem_append]
      exact ⟨hids.1, hids.2.2⟩
  · rw [welcomes, List.countP_nil, Nat.zero_add]
    obtain ⟨-, hpeers, -⟩ | ⟨-, hpeers, -⟩ := hcases
    · simp [vettingAs, states, hpeers, hl, List.countP_cons]
    · simp only [vettingAs, states, hpeers, hl, List.map_append, List.map_cons,
        List.countP_append, List.countP_cons]
      omega

theorem Configured.assignPeerId (h : m.Configured) (hnext : m.nextPeerId + 1 < 2 ^ 32) :
    m.assignPeerId.Configured := by
  have hid : m.assignPeerId.nextPeerId = m.nextPeerId + 1 := Nat.mod_eq_of_lt hnext
  have hstates : m.assignPeerId.states = m.states ++ [(m.nextPeerId + 1, .vetting)] := by
    have hpeers : m.assignPeerId.states = m.states ++ [(m.assignPeerId.nextPeerId, .vetting)] :=
      List.map_append
    rw [hpeers, hid]
  refine ⟨h.room, ?_, fun c hc => ?_, h.wellFormed, fun id => ?_⟩
  · rw [hstates, hid]
    intro p hp
    obtain hp | hp := List.mem_append.mp hp
    · have := h.ids p hp
      omega
    · rw [List.mem_singleton.mp hp]
      exact ⟨Nat.succ_pos _, le_rfl⟩
  · have := h.targets c hc
    rw [hid]
    exact ⟨this.1, by omega⟩
  · have honce := h.once id
    rw [vettingAs, hstates, List.countP_append]
    by_cases heq : m.nextPeerId + 1 = id
    · -- a fresh id: no message went to it, and no peer has it
      have hsent : welcomes m.sent id = 0 := by
        rw [welcomes, List.countP_eq_zero]
        intro c hc
        have := h.targets c hc
        simp only [Bool.and_eq_true, beq_iff_eq, not_and]
        omega
      have hnone : m.vettingAs id = 0 := by
        rw [vettingAs, List.countP_eq_zero]
        intro p hp
        have := h.ids p hp
        simp only [Bool.and_eq_true, beq_iff_eq, not_and]
        omega
      rw [vettingAs] at hnone
      simp only [NetCommunicatorMaster.assignPeerId, hsent, hnone]
      simp [heq]
    · simp only [vettingAs, NetCommunicatorMaster.assignPeerId] at honce ⊢
      simpa [heq] using honce

theorem Configured.receiveOne (h : m.Configured) (e : ConfigEvent)
    (hnext : m.nextPeerId + 1 < 2 ^ 32) : (m.receiveOne e).Configured := by
  cases e with
  | opened => exact h.assignPeerId hnext
  | message origin commands =>
    refine h.of_states [] rfl rfl (map_replaceF ?_) (List.append_nil _).symm nofun
    intro a b hab
    split at hab
    · cases hab
      rfl
    · cases hab
  | closed origin =>
    have hstep : (m.receiveOne (.closed origin)).peers = m.peers ∨
        ∃ p l₁ l₂, m.peers = l₁ ++ p :: l₂ ∧
          (m.receiveOne (.closed origin)).peers = l₁ ++ { p with state := .broken } :: l₂ := by
      obtain heq | ⟨p, p', l₁, l₂, -, hp, hl, hr⟩ := List.exists_or_eq_self_of_replaceF
        (fun p => if p.sendId == origin then some { p with state := .broken } else none) m.peers
      · exact .inl heq
      · refine .inr ⟨p, l₁, l₂, hl, ?_⟩
        split at hp
        · cases hp
          exact hr
        · cases hp
    obtain heq | ⟨p, l₁, l₂, hl, hpeers⟩ := hstep
    · exact h.of_states [] rfl rfl (congrArg (List.map _) heq) (List.append_nil _).symm nofun
    · have hids := h.ids
      simp only [states, hl, List.map_append, List.map_cons, List.forall_mem_append,
        List.forall_mem_cons] at hids
      refine h.step [] rfl rfl ?_ (List.append_nil _).symm nofun fun id => ?_
      · simp only [states, hpeers, List.map_append, List.map_cons, List.forall_mem_append,
          List.forall_mem_cons]
        exact ⟨hids.1, hids.2.1, hids.2.2⟩
      · simp [welcomes, vettingAs, states, hpeers, hl, List.countP_cons]

theorem receiveOne_nextPeerId (m : NetCommunicatorMaster) (e : ConfigEvent) :
    (m.receiveOne e).nextPeerId ≤ m.nextPeerId + 1 := by
  cases e with
  | opened => exact Nat.mod_le _ _
  | message origin commands => exact Nat.le_succ _
  | closed origin => exact Nat.le_succ _

theorem Configured.receiveAll {events : List ConfigEvent} (h : m.Configured)
    (hnext : m.nextPeerId + events.length < 2 ^ 32) :
    (events.foldl NetCommunicatorMaster.receiveOne m).Configured := by
  induction events generalizing m with
  | nil => exact h
  | cons e rest ih =>
    simp only [List.length_cons] at hnext
    have hle := receiveOne_nextPeerId m e
    exact ih (h.receiveOne e (by omega)) (by omega)

theorem applyChanges_nextPeerId (l : List ChangeCycle) :
    (m.applyChanges l).nextPeerId = m.nextPeerId := by
  refine applyChanges_invariant (P := fun m' => m'.nextPeerId = m.nextPeerId)
    (fun m' change hm => ?_) (fun _ _ hm => hm) rfl
  rw [← hm]
  simp only [applyChange]
  split
  · split <;> rfl
  · rfl

/-- The check sends at most one configuration to each id. -/
theorem configured_check {input : CheckInput} (h : m.Configured)
    (hnext : m.nextPeerId + input.events.length < 2 ^ 32)
    (hc : m.checkAndUpdatePeerStates input = .ok c) : c.master.Configured := by
  have hchanges : (m.applyChanges m.peerChanges).Configured :=
    applyChanges_invariant (fun _ change hm => hm.applyChange change)
      (fun _ l hm => hm.setChanges l) h
  have hreceived : (m.receiveConfigs input).Configured :=
    hchanges.receiveAll (by rwa [applyChanges_nextPeerId])
  exact repeatPasses_invariant (fun _ i p _ hm => hm.removePeer i p)
    (fun _ _ _ hget hstate hm => hm.acceptPeer hget hstate) (fun _ i hm => hm.decodeConfigData i)
    hreceived hc

theorem sent_decodeConfigData (m : NetCommunicatorMaster) (i : ℕ) :
    m.sent <+: (m.decodeConfigData i).sent := by
  have hone : ∀ (m : NetCommunicatorMaster) (c : PeerCommand),
      m.sent <+: (m.decodeCommand i c).sent := by
    intro m c
    simp only [decodeCommand]
    split
    · exact List.prefix_rfl
    · rename_i p _
      cases c with
      | deletePeer =>
        obtain ⟨extra, hsent, -⟩ := correctFollowId_sent (m := sendConfig _ p.sendId _)
          p.sendId p.followId
        rw [hsent]
        exact (List.prefix_append ..).trans (List.prefix_append ..)
      | clientPayload | duecaVersion | unhandled => exact List.prefix_rfl
  have hfold : ∀ (commands : List PeerCommand) (m : NetCommunicatorMaster),
      m.sent <+: (commands.foldl (fun m c => m.decodeCommand i c) m).sent := by
    intro commands
    induction commands with
    | nil => exact fun _ => List.prefix_rfl
    | cons c rest ih => exact fun m => (hone m c).trans (ih _)
  exact hfold _ m

/-- Messages that were sent stay sent. -/
theorem sent_check {input : CheckInput} (hc : m.checkAndUpdatePeerStates input = .ok c) :
    m.sent <+: c.master.sent := by
  have hchanges : (m.applyChanges m.peerChanges).sent = m.sent := by
    refine applyChanges_invariant (P := fun m' => m'.sent = m.sent)
      (fun m' change hm => ?_) (fun _ _ hm => hm) rfl
    rw [← hm]
    simp only [applyChange]
    split
    · split <;> rfl
    · rfl
  have hreceived : ∀ (events : List ConfigEvent) (m : NetCommunicatorMaster),
      (events.foldl receiveOne m).sent = m.sent := by
    intro events
    induction events with
    | nil => exact fun _ => rfl
    | cons e rest ih => exact fun m => (ih _).trans (by cases e <;> rfl)
  refine repeatPasses_invariant (P := fun m' => m.sent <+: m'.sent) (fun m' i p _ hm => ?_)
    (fun m' i p _ _ hm => hm.trans (List.prefix_append ..))
    (fun m' i hm => hm.trans (sent_decodeConfigData m' i)) ?_ hc
  · obtain ⟨extra, hsent, -⟩ := correctFollowId_sent (m := m') p.sendId p.followId
    refine hm.trans ?_
    simp only [removePeer, uncountPeer, hsent]
    exact List.prefix_append ..
  · simp only [receiveConfigs, hreceived, hchanges]
    exact List.prefix_rfl

end NetCommunicatorMaster

end Dueca.Net
