import Dueca.Net.Sending
import Dueca.Net.Configs

/-!
# The send state over the steps of a node

Between its steps the master is either without peers, and then its counters wait for
the first one, or it is ready to send. A peer that takes part in the cycle chooses
its state by the master's message, and is ready whenever that message is for the
cycle after the last one it packed, or for a cycle it packed for not long ago.
-/

namespace Dueca.Net

open NetCommunicatorMaster

variable {n n' : NetCommunicator} {r r' : NodeRecord} {d : Datagram}

/-- What is left of `Ready` while there are no peers: nothing was packed for a cycle
after the one that comes next. -/
structure Resting (n : NetCommunicator) (r : NodeRecord) : Prop where
  normal : n.sendstate = .normal →
    cycleBase n.messageCycle = cycleBase n.packedCycle + 16 ∧ Bounded n r
  again : n.sendstate = .stasis ∨ n.sendstate = .afterNormal →
    ∀ a ∈ r.packed, a.1 ≤ cycleBase n.messageCycle
  back : n.sendstate = .recover → ∀ a ∈ r.packed, a.1 ≤ cycleBase n.messageCycle + 16

theorem Ready.resting (h : Ready n r) (hbound : Bounded n r) : Resting n r := by
  refine ⟨fun hs => ?_, fun hs a ha => ?_, fun hs a ha => ?_⟩
  · simp only [Ready, hs] at h
    exact ⟨h, hbound⟩
  · have hle := hbound a ha
    obtain hs | hs := hs <;> (simp only [Ready, hs] at h; omega)
  · have hle := hbound a ha
    simp only [Ready, hs] at h
    omega

/-- What holds of the master between its steps. -/
structure MasterNode.Steady (w : MasterNode) : Prop where
  buffered : Buffered w.admin.net w.record
  labelled : Labelled w.admin.net w.record ∨ Fresh w.admin.net w.record
  resting : Resting w.admin.net w.record
  working : w.admin.net.npeers ≠ 0 → Bounded w.admin.net w.record ∧ Ready w.admin.net w.record
  receiving : w.phase = .receiving → w.admin.net.npeers ≠ 0 ∧
    w.admin.net.sendstate ≠ .normal ∧ w.triggerRecover = false ∧
    w.admin.net.messageCycle + 0x400 < 2 ^ 32
  peerId : w.admin.net.peerId = 0
  configured : w.admin.Configured

/-! ### What the send state depends on -/

/-- The part of the communicator that sending depends on. -/
def NetCommunicator.sending (n : NetCommunicator) :
    ℕ × ℕ × SendState × MessageBuffer × MessageBuffer :=
  (n.messageCycle, n.packedCycle, n.sendstate, n.currentSendBuffer, n.backupSendBuffer)

theorem Buffered.congr (h : Buffered n r) (hp : r'.packed = r.packed)
    (hpayload : n'.currentSendBuffer.payload = n.currentSendBuffer.payload)
    (hfill : n'.currentSendBuffer.fill = n.currentSendBuffer.fill)
    (hb : n'.backupSendBuffer = n.backupSendBuffer) : Buffered n' r' where
  sorted := hp ▸ h.sorted
  bases := hp ▸ h.bases
  current := by rw [hp, hpayload, hfill]; exact h.current
  backup := by rw [hp, hb]; exact h.backup

/-- A node whose counters, state and buffers are as they were sends as it would. -/
structure SameSending (n : NetCommunicator) (r : NodeRecord) (n' : NetCommunicator)
    (r' : NodeRecord) : Prop where
  sending : n'.sending = n.sending
  packed : r'.packed = r.packed
  npeers : n'.npeers = n.npeers
  peerId : n'.peerId = n.peerId

namespace SameSending

variable (h : SameSending n r n' r')
include h

theorem fields : n'.messageCycle = n.messageCycle ∧ n'.packedCycle = n.packedCycle ∧
    n'.sendstate = n.sendstate ∧ n'.currentSendBuffer = n.currentSendBuffer ∧
    n'.backupSendBuffer = n.backupSendBuffer := by
  simpa [NetCommunicator.sending] using h.sending

theorem hasPacked {c : ℕ} : r'.HasPacked c ↔ r.HasPacked c := by
  rw [NodeRecord.HasPacked, h.packed, NodeRecord.HasPacked]

theorem buffered (hb : Buffered n r) : Buffered n' r' := by
  obtain ⟨-, -, -, hc, hbackup⟩ := h.fields
  exact hb.congr h.packed (by rw [hc]) (by rw [hc]) hbackup

theorem labelled (hl : Labelled n r) : Labelled n' r' := by
  obtain ⟨-, -, -, hc, -⟩ := h.fields
  rwa [Labelled, h.packed, hc]

theorem bounded (hb : Bounded n r) : Bounded n' r' := by
  obtain ⟨-, hp, -⟩ := h.fields
  rwa [Bounded, h.packed, hp]

theorem ready (hr : Ready n r) : Ready n' r' := by
  obtain ⟨hm, hp, hs, -⟩ := h.fields
  simp only [Ready, NodeRecord.HasPacked, hs, hm, hp, h.packed] at hr ⊢
  exact hr

end SameSending

theorem sameSending_unpackPayload (n : NetCommunicator) (r : NodeRecord) (d : Datagram)
    (enter : Bool) :
    SameSending n r (unpackPayload n r d enter).1 (unpackPayload n r d enter).2 := by
  simp only [unpackPayload]
  split <;> split <;> exact ⟨rfl, rfl, rfl, rfl⟩

theorem sameSending_dropStale (n : NetCommunicator) (r : NodeRecord) (mcycle : ℕ) :
    SameSending n r (n.dropStale mcycle) r := by
  simp only [NetCommunicator.dropStale]
  split <;> exact ⟨rfl, rfl, rfl, rfl⟩

/-! ### The counters at the end of a cycle -/

theorem Ready.again (h : Ready n r) (hnormal : n.sendstate ≠ .normal)
    (hrecover : n.sendstate ≠ .recover) :
    cycleBase n.messageCycle = cycleBase n.packedCycle ∧
      r.HasPacked (cycleBase n.messageCycle) := by
  cases hs : n.sendstate with
  | normal => exact absurd hs hnormal
  | recover => exact absurd hs hrecover
  | stasis | afterNormal => simpa only [Ready, hs] using h

/-- Going back one cycle, to a message that was packed. -/
theorem ready_back {m' : ℕ} (hready : Ready n r) (hnormal : n.sendstate ≠ .normal)
    (hrecover : n.sendstate ≠ .recover) {c : ℕ} (hc : c + 16 = cycleBase n.messageCycle)
    (hp : r.HasPacked c) (hm' : cycleBase m' = c) :
    Ready { n with messageCycle := m', sendstate := .recover } r := by
  have hagain := hready.again hnormal hrecover
  simp only [Ready, hm']
  exact ⟨hc.trans hagain.1, hp, hagain.1 ▸ hagain.2⟩

/-- From recovery on to the message after it. -/
theorem ready_stasis {m' : ℕ} (hready : Ready n r) (hs : n.sendstate = .recover)
    (hm' : cycleBase m' = cycleBase n.messageCycle + 16) :
    Ready { n with messageCycle := m', sendstate := .stasis } r := by
  simp only [Ready, hs] at hready
  simp only [Ready, hm', hready.1]
  exact ⟨trivial, hready.2.2⟩

/-- On to a new message. -/
theorem ready_normal {m' : ℕ} (hready : Ready n r) (hnormal : n.sendstate ≠ .normal)
    (hrecover : n.sendstate ≠ .recover)
    (hm' : cycleBase m' = cycleBase n.messageCycle + 16) :
    Ready { n with messageCycle := m', sendstate := .normal, errorbit := false } r := by
  simp only [Ready, hm', (hready.again hnormal hrecover).1]

theorem cycleBase_next {c : ℕ} (hc : c + 16 < 2 ^ 32) :
    cycleBase (cycleIncrement c 1) = cycleBase c + 16 := by
  rw [cycleBase_increment, Nat.mod_eq_of_lt]
  have := cycleBase_le c
  omega

theorem cycleIncrement_le (c : ℕ) : cycleIncrement c 1 ≤ c + 16 := by
  have := cycleBase_le c
  have := Nat.mod_le (cycleBase c + 16 * 1) (2 ^ 32)
  simp only [cycleIncrement]
  omega

/-! ### The master -/

theorem NetCommunicatorMaster.Configured.setNet {m : NetCommunicatorMaster}
    (h : m.Configured) (hroom : n.messageCycle + 0x300 < 2 ^ 32) :
    { m with net := n }.Configured :=
  ⟨hroom, h.ids, h.targets, h.wellFormed, h.once⟩

namespace MasterNode

variable {w w' : MasterNode} {payload : List UInt8}

/-- What holds of a master that waits for replies. -/
structure Working (w : MasterNode) : Prop where
  npeers : w.admin.net.npeers ≠ 0
  sent : w.admin.net.sendstate ≠ .normal
  buffered : Buffered w.admin.net w.record
  labelled : Labelled w.admin.net w.record
  bounded : Bounded w.admin.net w.record
  ready : Ready w.admin.net w.record
  room : w.admin.net.messageCycle + 0x400 < 2 ^ 32
  peerId : w.admin.net.peerId = 0
  configured : w.admin.Configured

theorem Steady.isWorking (h : w.Steady) (hrec : w.phase = .receiving) : w.Working := by
  obtain ⟨hnpeers, hsent, -, hroom⟩ := h.receiving hrec
  obtain ⟨hbound, hready⟩ := h.working hnpeers
  exact ⟨hnpeers, hsent, h.buffered, h.labelled.resolve_right fun hf => hsent hf.1, hbound,
    hready, hroom, h.peerId, h.configured⟩

/-- A master that is ready for its next step. -/
theorem Working.steady (h : w.Working) (hphase : w.phase = .receiving → w.triggerRecover = false) :
    w.Steady :=
  ⟨h.buffered, .inl h.labelled, h.ready.resting h.bounded, fun _ => ⟨h.bounded, h.ready⟩,
    fun hrec => ⟨h.npeers, h.sent, hphase hrec, h.room⟩, h.peerId, h.configured⟩

/-- New counters at the end of a cycle. -/
theorem steady_of_counters (hb : Buffered n r) (hl : Labelled n r) (hbound : Bounded n r)
    (hid : n.peerId = 0) (hcfg : w.admin.Configured) {m' : ℕ} {s' : SendState} {e' : Bool}
    (hready : Ready { n with messageCycle := m', sendstate := s', errorbit := e' } r)
    (hm' : m' + 0x300 < 2 ^ 32) (hr : w.record = r) (hphase : w.phase = .checkup) :
    (w.setNet { n with messageCycle := m', sendstate := s', errorbit := e' }).Steady where
  buffered := hb.congr (congrArg _ hr) rfl rfl rfl
  labelled := .inl (by subst hr; exact hl)
  resting := by subst hr; exact hready.resting hbound
  working := by subst hr; exact fun _ => ⟨hbound, hready⟩
  receiving := fun hrec => by cases hphase.symm.trans hrec
  peerId := hid
  configured := hcfg.setNet hm'

/-- The end of a cycle of a master with peers leaves it ready for the next one. -/
theorem Working.finish (h : w.Working)
    (hprev : w.triggerRecover = true → w.admin.net.sendstate ≠ .recover ∧
      ∃ c, c + 16 = cycleBase w.admin.net.messageCycle ∧ w.record.HasPacked c) :
    ∃ w', w.finish = .ok w' ∧ w'.Steady ∧ w'.record = w.record := by
  have hsame := sameSending_dropStale w.admin.net w.record w.admin.net.messageCycle
  obtain ⟨hm, -, hs, -⟩ := hsame.fields
  have hb := hsame.buffered h.buffered
  have hl := hsame.labelled h.labelled
  have hbound := hsame.bounded h.bounded
  have hready := hsame.ready h.ready
  have hid := hsame.peerId.trans h.peerId
  have hnormal := h.sent
  have hroom := h.room
  rw [← hs] at hnormal
  let moved := { w with
    phase := .checkup, moves := w.moves ++ [(w.answered, w.admin.activeIds)] }
  simp only [MasterNode.finish]
  generalize w.admin.net.dropStale w.admin.net.messageCycle = n at *
  have hnext := cycleIncrement_le n.messageCycle
  split
  · rename_i htrigger
    obtain ⟨hrecover, c, hc, hp⟩ := hprev htrigger
    rw [← hs] at hrecover
    rw [← hm] at hc
    have hback := cycleBase_back (c := n.messageCycle) (by omega)
    have hle : cycleBack n.messageCycle + 0x300 < 2 ^ 32 := by
      have := cycleBase_le n.messageCycle
      rw [cycleBack, minus32_of_le (by omega)]
      omega
    refine ⟨_, if_neg hrecover, ?_, rfl⟩
    exact steady_of_counters (w := { w with phase := .checkup }) hb hl hbound hid h.configured
      (ready_back hready hnormal hrecover hc hp (by omega)) hle rfl rfl
  · split
    · rename_i hrecover
      refine ⟨_, rfl, ?_, rfl⟩
      exact steady_of_counters (w := moved) hb hl hbound hid h.configured
        (ready_stasis hready hrecover (cycleBase_next (by omega))) (by omega) rfl rfl
    · rename_i hrecover
      refine ⟨_, rfl, ?_, rfl⟩
      exact steady_of_counters (w := moved) hb hl hbound hid h.configured
        (ready_normal hready hnormal hrecover (cycleBase_next (by omega))) (by omega) rfl rfl

/-- A cycle without peers only moves the counters on. -/
theorem Steady.idle (h : w.Steady) (hnpeers : w.admin.net.npeers = 0)
    (htrigger : w.triggerRecover = false) (hroom : w.admin.net.messageCycle + 0x400 < 2 ^ 32) :
    ∃ w', (w.setNet { w.admin.net with packedCycle := w.admin.net.messageCycle }).finish =
      .ok w' ∧ w'.Steady ∧ w'.record = w.record := by
  have hsame := sameSending_dropStale
    { w.admin.net with packedCycle := w.admin.net.messageCycle } w.record
    w.admin.net.messageCycle
  obtain ⟨hm, hp, hs, hc, hbackup⟩ := hsame.fields
  have hn := hsame.npeers
  have hid := hsame.peerId
  have hnext := cycleIncrement_le w.admin.net.messageCycle
  have hbase := cycleBase_next (c := w.admin.net.messageCycle) (by omega)
  simp only [MasterNode.finish, setNet, htrigger]
  simp only at hm hp hs hc hbackup hn hid
  generalize NetCommunicator.dropStale _ _ = n at *
  rw [hs, hm]
  have hbuffered : ∀ n', n'.currentSendBuffer = n.currentSendBuffer →
      n'.backupSendBuffer = n.backupSendBuffer → Buffered n' w.record := fun n' hc' hb' =>
    h.buffered.congr rfl (by rw [hc', hc]) (by rw [hc', hc]) (hb'.trans hbackup)
  by_cases hrecover : w.admin.net.sendstate = .recover
  · simp only [hrecover, if_true, Bool.false_eq_true, if_false]
    refine ⟨_, rfl, ⟨hbuffered _ rfl rfl, .inl ?_, ⟨nofun, fun _ => ?_, nofun⟩,
      fun hne => absurd (hn.trans hnpeers) hne, nofun, hid.trans h.peerId,
      h.configured.setNet (by simp only; omega)⟩, rfl⟩
    · have hl := h.labelled.resolve_right fun hf => by simp [hf.1] at hrecover
      simpa only [Labelled, hc] using hl
    · simpa only [hbase] using h.resting.back hrecover
  · simp only [hrecover, Bool.false_eq_true, if_false]
    have hle : ∀ a ∈ w.record.packed, a.1 ≤ cycleBase w.admin.net.messageCycle := by
      intro a ha
      cases hs' : w.admin.net.sendstate with
      | normal =>
        obtain ⟨hmp, hbound⟩ := h.resting.normal hs'
        have := hbound a ha
        omega
      | recover => exact absurd hs' hrecover
      | stasis => exact h.resting.again (.inl hs') a ha
      | afterNormal => exact h.resting.again (.inr hs') a ha
    refine ⟨_, rfl, ⟨hbuffered _ rfl rfl, ?_, ⟨fun _ => ⟨?_, ?_⟩, nofun, nofun⟩,
      fun hne => absurd (hn.trans hnpeers) hne, nofun, hid.trans h.peerId,
      h.configured.setNet (by simp only; omega)⟩, rfl⟩
    · refine h.labelled.imp (fun hl => ?_) fun hf => ⟨rfl, fun a ha => ?_⟩
      · simpa only [Labelled, hc] using hl
      · have := hf.2 a ha
        simp only [hbase]
        omega
    · simp only [hbase, hp]
    · simpa only [Bounded, hp] using hle

/-- The master starts a cycle: it goes through, and its message is for the cycle. -/
theorem Steady.begin (h : w.Steady) (hroom : w.admin.net.messageCycle + 0x400 < 2 ^ 32)
    (payload : List UInt8) :
    ∃ w' sent, w.begin payload = .ok (w', sent) ∧ w'.Steady ∧
      w.record.packed <+: w'.record.packed ∧ w'.record.passed = w.record.passed ∧
      ∀ d ∈ sent, d.peerId = 0 ∧ d.cycle + 0x300 < 2 ^ 32 ∧
        (cycleBase d.cycle, d.payload) ∈ w'.record.packed := by
  simp only [MasterNode.begin]
  split
  · rename_i hnpeers
    have hsteady : { w with
        nreceived := 0, triggerRecover := false, answered := [] }.Steady :=
      ⟨h.buffered, h.labelled, h.resting, h.working,
        fun hrec => absurd hnpeers (h.receiving hrec).1, h.peerId, h.configured⟩
    obtain ⟨w', hfinish, hsteady', hrecord⟩ := hsteady.idle hnpeers rfl hroom
    simp only [hfinish]
    exact ⟨w', [], rfl, hsteady', hrecord ▸ List.prefix_rfl, hrecord ▸ rfl, nofun⟩
  · rename_i hnpeers
    obtain ⟨hbound, hready⟩ := h.working hnpeers
    obtain ⟨n', r', d, hsend, hsends⟩ :=
      sendMessage_ready h.buffered h.labelled hbound hready (by omega) payload
    simp only [hsend]
    refine ⟨_, _, rfl, ?_, hsends.packed, hsends.passed, fun d' hd' => ?_⟩
    · refine Working.steady ⟨?_, hsends.sent, hsends.buffered, hsends.labelled, hsends.bounded,
        hsends.ready, ?_, hsends.peerId.trans h.peerId, ?_⟩ fun _ => rfl
      · exact hsends.npeers ▸ hnpeers
      · simp only [setNet, hsends.messageCycle]
        exact hroom
      · refine h.configured.setNet ?_
        rw [hsends.messageCycle]
        omega
    · obtain rfl := List.mem_singleton.mp hd'
      obtain ⟨error, hsender⟩ := hsends.sender
      refine ⟨?_, ?_, ?_⟩
      · simp only [Datagram.peerId, hsender, peerField, h.peerId]
        split <;> rfl
      · rw [hsends.cycle]
        omega
      · rw [hsends.cycle]
        exact hsends.payload

/-- The datagram asks for recovery, and the master will go back one cycle. -/
def GoesBack (w : MasterNode) (d : Datagram) : Prop :=
  d.peerId ≠ 0 ∧ d.cycle = w.admin.net.messageCycle ∧ d.errorflag = true ∧
    w.admin.net.sendstate ≠ .recover ∧ 0 < w.admin.net.backupSendBuffer.fill

/-- The master packed a message for the cycle before the current one. -/
def PackedBefore (w : MasterNode) : Prop :=
  ∃ c, c + 16 = cycleBase w.admin.net.messageCycle ∧ w.record.HasPacked c

theorem sameSending_unpackPeerData (w : MasterNode) (d : Datagram) :
    SameSending w.admin.net w.record (w.unpackPeerData d).admin.net (w.unpackPeerData d).record ∧
      (w.unpackPeerData d).phase = w.phase ∧
      ∃ n, (w.unpackPeerData d).admin = { w.admin with net := n } := by
  simp only [unpackPeerData]
  split
  · exact ⟨⟨rfl, rfl, rfl, rfl⟩, rfl, _, rfl⟩
  · have hsame := sameSending_unpackPayload w.admin.net w.record d
      (d.cycle == w.admin.net.messageCycle)
    split <;> exact ⟨hsame, rfl, _, rfl⟩

theorem goesBack_of_trigger (htrigger : w.triggerRecover = false) {d : Datagram}
    (h : (w.unpackPeerData d).triggerRecover = true) : w.GoesBack d := by
  simp only [unpackPeerData] at h
  split at h
  · simp [htrigger] at h
  · rename_i hid
    split at h
    · rename_i hcycle
      split at h
      · rename_i herror
        simp only [Bool.and_eq_true, bne_iff_ne, ne_eq] at herror
        exact ⟨hid, hcycle, herror.1, herror.2, by simpa using h⟩
      · simp [htrigger] at h
    · simp [setNet, htrigger] at h

/-- A datagram arrives at the master. -/
theorem Steady.receive (h : w.Steady) (hphase : w.phase = .receiving) {d : Datagram}
    (hback : w.GoesBack d → w.PackedBefore) :
    ∃ w', w.receive d = .ok w' ∧ w'.Steady ∧ w'.record = (w.unpackPeerData d).record := by
  have hwork := h.isWorking hphase
  obtain ⟨-, -, htrigger, -⟩ := h.receiving hphase
  obtain ⟨hsame, hphase', n', hadmin⟩ := sameSending_unpackPeerData w d
  obtain ⟨hm, -, hs, -⟩ := hsame.fields
  have hwork' : (w.unpackPeerData d).Working := by
    refine ⟨?_, ?_, hsame.buffered hwork.buffered, hsame.labelled hwork.labelled,
      hsame.bounded hwork.bounded, hsame.ready hwork.ready, ?_, hsame.peerId.trans h.peerId, ?_⟩
    · rw [hsame.npeers]
      exact hwork.npeers
    · rw [hs]
      exact hwork.sent
    · rw [hm]
      exact hwork.room
    · have hroom := hwork.room
      rw [hadmin] at hm ⊢
      exact h.configured.setNet (by simp only at hm; omega)
  simp only [MasterNode.receive]
  split
  · obtain ⟨w', hfinish, hsteady, hrecord⟩ := hwork'.finish fun ht => by
      have hgoes := goesBack_of_trigger htrigger ht
      obtain ⟨c, hc, hp⟩ := hback hgoes
      rw [hs, hm]
      exact ⟨hgoes.2.2.2.1, c, hc, hsame.hasPacked.mpr hp⟩
    exact ⟨w', hfinish, hsteady, hrecord⟩
  · rename_i hwait
    refine ⟨_, rfl, hwork'.steady fun _ => ?_, rfl⟩
    simp only [Bool.or_eq_true, not_or, Bool.not_eq_true] at hwait
    exact hwait.1

theorem Steady.timeout (h : w.Steady) (hphase : w.phase = .receiving) : w.timeout.Steady := by
  have hwork := h.isWorking hphase
  have hbase := cycleBase_repeatIncrement w.admin.net.messageCycle
  have hle : cycleRepeatIncrement w.admin.net.messageCycle ≤ w.admin.net.messageCycle + 16 := by
    simp only [cycleRepeatIncrement, cycleBase]
    omega
  have hroom := hwork.room
  have hready : Ready w.timeout.admin.net w.record := by
    have hready := hwork.ready
    simp only [MasterNode.timeout, setNet]
    split
    · rename_i hrecover
      simpa only [Ready, hrecover, hbase] using hready
    · rename_i hrecover
      simpa only [Ready, hbase] using hready.again hwork.sent hrecover
  exact ⟨hwork.buffered.congr rfl rfl rfl rfl, .inl hwork.labelled, hready.resting hwork.bounded,
    fun _ => ⟨hwork.bounded, hready⟩, (fun hidle => by cases hidle), h.peerId,
    h.configured.setNet (by simp only; omega)⟩

/-- The number of peers leaves zero, or the current buffer is marked anew, only while
the next message is a new one. -/
def StartsNormal (m m' : NetCommunicatorMaster) : Prop :=
  m.net.sendstate = .normal ∨
    m'.net.currentSendBuffer = m.net.currentSendBuffer ∧
      (m.net.npeers = 0 → m'.net.npeers = 0)

/-- Before a new message the current buffer may be marked with the cycle before it:
that is the cycle of the last message packed, or one for which none was. -/
theorem labelled_of_relabel (hb : Buffered n r) (hbound : Bounded n r)
    (hs : n.sendstate = .normal) (hm : cycleBase n.messageCycle = cycleBase n.packedCycle + 16)
    (hlabel : cycleBase n.currentSendBuffer.messageCycle = cycleBase n.packedCycle) :
    Labelled n r ∨ Fresh n r := by
  by_cases hp : r.HasPacked (cycleBase n.packedCycle)
  · left
    intro l a hl
    obtain ⟨l', x, hl'⟩ := hb.last hbound hp
    have hlast := (List.append_inj' (hl.symm.trans hl') rfl).2
    rw [List.singleton_inj.mp hlast, hlabel]
  · refine .inr ⟨hs, fun a ha => ?_⟩
    have hle := hbound a ha
    have hne : a.1 ≠ cycleBase n.packedCycle := fun heq => hp ⟨a.2, heq ▸ ha⟩
    have hbase := hb.bases a ha
    simp only [cycleBase] at *
    omega

/-- The check in each cycle. -/
theorem Steady.check (h : w.Steady) {input : CheckInput} {c : Checked}
    (hnext : w.admin.nextPeerId + input.events.length < 2 ^ 32)
    (hc : w.admin.checkAndUpdatePeerStates input = .ok c)
    (hstart : StartsNormal w.admin c.master) :
    { w with admin := c.master, phase := .idle }.Steady := by
  have hkept := netKept_check hc
  have hcfg := configured_check h.configured hnext hc
  obtain ⟨hrest, hpayload, hlabel⟩ := hkept
  have hbuffered : Buffered c.master.net w.record := by
    refine h.buffered.congr rfl ?_ ?_ ?_
    · rw [hpayload]
    · rw [hpayload]
    · rw [hrest]
  have hid : c.master.net.peerId = 0 := by
    rw [hrest]
    exact h.peerId
  have hfields : c.master.net.messageCycle = w.admin.net.messageCycle ∧
      c.master.net.packedCycle = w.admin.net.packedCycle ∧
      c.master.net.sendstate = w.admin.net.sendstate := by
    rw [hrest]
    exact ⟨rfl, rfl, rfl⟩
  obtain ⟨hm, hp, hs⟩ := hfields
  have hresting : Resting c.master.net w.record := by
    obtain ⟨hnormal, hagain, hback⟩ := h.resting
    refine ⟨?_, ?_, ?_⟩ <;> simpa only [hs, hm, hp, Bounded]
  obtain hnormal | ⟨hsame, hzero⟩ := hstart
  · have hready : Ready c.master.net w.record := by
      simp only [Ready, hs, hnormal]
      exact (hresting.normal (hs.trans hnormal)).1
    have hbound := (hresting.normal (hs.trans hnormal)).2
    refine ⟨hbuffered, ?_, hresting, fun _ => ⟨hbound, hready⟩,
      (fun hreceiving => by cases hreceiving), hid, hcfg⟩
    obtain hlabel | hlabel := hlabel
    · refine h.labelled.imp (fun hl => ?_) fun hf => ?_
      · rwa [Labelled, hlabel]
      · rwa [Fresh, hm, hs]
    · have hmp := (h.resting.normal hnormal).1
      have hle := cycleBase_le w.admin.net.messageCycle
      have hbase := cycleBase_minus (c := w.admin.net.messageCycle) (by omega)
      refine labelled_of_relabel hbuffered hbound (hs.trans hnormal) (by rw [hm, hp, hmp]) ?_
      rw [hlabel, hp, hbase]
      omega
  · refine ⟨hbuffered, ?_, hresting, fun hne => ?_,
      (fun hreceiving => by cases hreceiving), hid, hcfg⟩
    · refine h.labelled.imp (fun hl => ?_) fun hf => ?_
      · rwa [Labelled, hsame]
      · rwa [Fresh, hm, hs]
    · obtain ⟨hbound, hready⟩ := h.working fun hz => hne (hzero hz)
      refine ⟨by simpa only [Bounded, hp] using hbound, ?_⟩
      simpa only [Ready, hs, hm, hp] using hready

end MasterNode

/-! ### A peer -/

/-- The state in which a peer answers fits the cycle, where the cycle is near the last
one it packed for. -/
structure Chooses (n : NetCommunicator) : Prop where
  normal : cycleBase n.messageCycle = cycleBase n.packedCycle + 16 → n.sendstate = .normal
  again : cycleBase n.messageCycle = cycleBase n.packedCycle →
    n.sendstate = .stasis ∨ n.sendstate = .afterNormal
  back : cycleBase n.messageCycle + 16 = cycleBase n.packedCycle → n.sendstate = .recover

/-- The cycle in which a peer's turn comes is the one after the last it packed for, or
that one or the one before, when it did pack for them. -/
def Sendable (n : NetCommunicator) (r : NodeRecord) : Prop :=
  cycleBase n.messageCycle = cycleBase n.packedCycle + 16 ∨
    r.HasPacked (cycleBase n.messageCycle) ∧
      (cycleBase n.messageCycle = cycleBase n.packedCycle ∨
        cycleBase n.messageCycle + 16 = cycleBase n.packedCycle)

theorem Ready.chooses (h : Ready n r) : Chooses n := by
  cases hs : n.sendstate with
  | normal =>
    simp only [Ready, hs] at h
    exact ⟨fun _ => hs, fun heq => by omega, fun heq => by omega⟩
  | stasis =>
    simp only [Ready, hs] at h
    exact ⟨fun heq => by omega, fun _ => .inl hs, fun heq => by omega⟩
  | afterNormal =>
    simp only [Ready, hs] at h
    exact ⟨fun heq => by omega, fun _ => .inr hs, fun heq => by omega⟩
  | recover =>
    simp only [Ready, hs] at h
    exact ⟨fun heq => by omega, fun heq => by omega, fun _ => hs⟩

/-- What holds of a peer that takes part in the cycle. -/
structure PeerNode.Tracks (n : NetCommunicator) (r : NodeRecord) : Prop where
  buffered : Buffered n r
  labelled : Labelled n r
  bounded : Bounded n r
  chooses : Chooses n
  last : r.packed ≠ [] → r.HasPacked (cycleBase n.packedCycle)
  room : n.messageCycle + 0x300 < 2 ^ 32 ∧ n.packedCycle + 0x300 < 2 ^ 32

/-- What holds of the peer with id `i`, for which these configuration messages were
sent. -/
structure PeerNode.Steady (i : ℕ) (configs : List SentConfig) (b : PeerNode) : Prop where
  fresh : b.trackingudpcycle = false → b.record = {}
  tracks : b.trackingudpcycle = true → Tracks b.net b.record
  peerId : b.connection = true → b.net.peerId = i
  waits : b.connection = true → b.trackingudpcycle = false →
    16 ≤ cycleBase b.net.messageCycle
  welcomed : b.connection = true ∨ b.trackingudpcycle = true →
    ∃ c ∈ configs.take b.configRead, c.isWelcome = true
  read : b.configRead ≤ configs.length

namespace PeerNode

variable {b b' : PeerNode} {i : ℕ} {configs : List SentConfig}

theorem Tracks.congr (h : Tracks n r) (hsame : SameSending n r n' r') : Tracks n' r' := by
  obtain ⟨hm, hp, hs, -⟩ := hsame.fields
  refine ⟨hsame.buffered h.buffered, hsame.labelled h.labelled, hsame.bounded h.bounded,
    ?_, fun hne => ?_, by rw [hm, hp]; exact h.room⟩
  · obtain ⟨hnormal, hagain, hback⟩ := h.chooses
    constructor <;> rw [hm, hp, hs] <;> assumption
  · rw [hsame.hasPacked, hp]
    exact h.last (hsame.packed ▸ hne)

/-- A peer whose turn comes in a cycle it can send for is ready. -/
theorem Tracks.ready (h : Tracks n r) (hsend : Sendable n r) : Ready n r := by
  obtain hnext | ⟨hp, hm | hm⟩ := hsend
  · simpa only [Ready, h.chooses.normal hnext] using hnext
  · obtain hs | hs := h.chooses.again hm <;> simpa only [Ready, hs] using ⟨hm, hp⟩
  · obtain ⟨x, hx⟩ := id hp
    have hlast := h.last (List.ne_nil_of_mem hx)
    simpa only [Ready, h.chooses.back hm] using ⟨hm, hp, hlast⟩

theorem Tracks.sends (h : Tracks n r) (hs : Sends n r n' r' d) : Tracks n' r' := by
  refine ⟨hs.buffered, hs.labelled, hs.bounded, hs.ready.chooses, fun _ => ?_, ?_⟩
  · by_cases hrecover : n'.sendstate = .recover
    · have hready := hs.ready
      simp only [Ready, hrecover] at hready
      exact hready.2.2
    · obtain ⟨hm, hp⟩ := hs.ready.again hs.sent hrecover
      exact hm ▸ hp
  · rw [hs.messageCycle]
    obtain hp | hp := hs.packedCycle
    · rw [hp]
      exact h.room
    · rw [hp]
      exact ⟨h.room.1, h.room.1⟩

/-- The state chosen for a message of the master. -/
theorem chooses_chooseState (hp : n.packedCycle + 0x300 < 2 ^ 32) :
    Chooses { n with sendstate := chooseState n } := by
  have hlt := cycleBase_le n.packedCycle
  simp only [chooseState, cycleIsNext, cycleIsCurrent, cycleIsPrevious, beq_iff_eq]
  refine ⟨fun heq => ?_, fun heq => ?_, fun heq => ?_⟩ <;> simp only at heq
  · rw [if_pos (by omega)]
  · rw [if_neg (by omega), if_pos (by omega)]
    exact .inl rfl
  · rw [if_neg (by omega), if_neg (by omega), if_pos (by omega)]

theorem Tracks.countReplies (h : Tracks n r) (hd : d.cycle + 0x300 < 2 ^ 32) :
    Tracks (countReplies n d) r := by
  have hsame : SameSending n r
      (if n.upToDate d.cycle = n.npeers then n.dropStale d.cycle else n) r := by
    split
    · exact sameSending_dropStale n r d.cycle
    · exact ⟨rfl, rfl, rfl, rfl⟩
  have htracks := h.congr hsame
  simp only [PeerNode.countReplies]
  generalize (if n.upToDate d.cycle = n.npeers then n.dropStale d.cycle else n) = n₁ at htracks
  have hchooses := chooses_chooseState
    (n := { n₁ with errorbit := n.upToDate d.cycle < n.npeers, messageCycle := d.cycle })
    htracks.room.2
  exact ⟨htracks.buffered.congr rfl rfl rfl rfl, htracks.labelled, htracks.bounded,
    ⟨hchooses.normal, hchooses.again, hchooses.back⟩, htracks.last, hd, htracks.room.2⟩

theorem changeFollow_eq (b : PeerNode) (l : List (ℕ × ℕ)) :
    ∃ f q, b.changeFollow l = { b with followId := f, followChanges := q } := by
  induction l generalizing b with
  | nil => exact ⟨b.followId, [], rfl⟩
  | cons change rest ih =>
    simp only [changeFollow]
    split
    · obtain ⟨f, q, heq⟩ := ih { b with followId := change.1 }
      exact ⟨f, q, by rw [heq]⟩
    · exact ⟨b.followId, _, rfl⟩

/-- Only the node to follow changes. -/
theorem Steady.setFollow (h : b.Steady i configs) (f : ℕ) (q : List (ℕ × ℕ)) :
    { b with followId := f, followChanges := q }.Steady i configs :=
  ⟨h.fresh, h.tracks, h.peerId, h.waits, h.welcomed, h.read⟩

theorem Steady.enterCycle (h : b.Steady i configs) (hconn : b.connection = true)
    (htrack : b.trackingudpcycle = false) (hd : d.cycle + 0x300 < 2 ^ 32)
    (hcur : cycleIsCurrent b.net.messageCycle d.cycle = true) :
    (b.enterCycle d).Steady i configs := by
  have hwait := h.waits hconn htrack
  have hrecord := h.fresh htrack
  have hbase : cycleBase d.cycle = cycleBase b.net.messageCycle := (beq_iff_eq.mp hcur).symm
  have hle := cycleBase_le d.cycle
  have hminus := cycleBase_minus (c := d.cycle) (by omega)
  have hsub : minus32 d.cycle 0x10 = d.cycle - 0x10 := minus32_of_le (by omega)
  refine ⟨nofun, fun _ => ?_, h.peerId, nofun, fun _ => h.welcomed (.inl hconn), h.read⟩
  simp only [PeerNode.enterCycle, hrecord]
  refine ⟨⟨.nil, nofun, fun l a hl => ?_, fun l a b hl => ?_⟩, fun l a hl => ?_, nofun, ?_,
    fun hne => absurd rfl hne, hd, ?_⟩
  · simp at hl
  · simp at hl
  · simp at hl
  · refine ⟨fun _ => rfl, fun heq => ?_, fun heq => ?_⟩ <;> simp only [hminus] at heq <;> omega
  · simp only [hsub]
    omega

/-- A message of the master. -/
theorem Steady.followMaster (h : b.Steady i configs) (hconn : b.connection = true)
    (hd : d.cycle + 0x300 < 2 ^ 32) :
    (b.followMaster d).Steady i configs ∧ (b.followMaster d).record = b.record ∧
      (b.followMaster d).connection = true := by
  have hsteady : ∀ b' : PeerNode, b'.Steady i configs → b'.record = b.record →
      b'.connection = true → (b'.changeFollow b'.followChanges).Steady i configs ∧
        (b'.changeFollow b'.followChanges).record = b.record ∧
        (b'.changeFollow b'.followChanges).connection = true := by
    intro b' h' hrecord hconn'
    obtain ⟨f, q, heq⟩ := changeFollow_eq b' b'.followChanges
    rw [heq]
    exact ⟨h'.setFollow f q, hrecord, hconn'⟩
  simp only [PeerNode.followMaster]
  split
  · rename_i htrack
    refine hsteady _ ⟨fun hf => ?_, fun _ => (h.tracks htrack).countReplies hd, fun hc => ?_,
      fun _ hf => ?_, h.welcomed, h.read⟩ rfl hconn
    · cases htrack.symm.trans hf
    · have hid := h.peerId hc
      simp only [PeerNode.countReplies, NetCommunicator.dropStale]
      split
      · split <;> exact hid
      · exact hid
    · cases htrack.symm.trans hf
  · rename_i htrack
    split
    · rename_i hcur
      exact hsteady _ (h.enterCycle hconn (by simpa using htrack) hd hcur) rfl hconn
    · exact hsteady b h rfl hconn

/-- Taking in a datagram: the peer stays steady, and its turn comes only while it takes
part in the cycle. -/
theorem Steady.unpackPeerData (h : b.Steady i configs) (hd : d.cycle + 0x300 < 2 ^ 32) :
    (b.unpackPeerData d).1.Steady i configs ∧
      (b.unpackPeerData d).1.record.packed = b.record.packed ∧
      ((b.unpackPeerData d).2 = true → (b.unpackPeerData d).1.trackingudpcycle = true ∧
        (b.unpackPeerData d).1.connection = true) := by
  simp only [PeerNode.unpackPeerData]
  split
  · exact ⟨h, rfl, nofun⟩
  · rename_i hnot
    simp only [Bool.or_eq_true, Bool.not_eq_true', not_or, Bool.not_eq_false] at hnot
    have hfollow : ∃ b', (if d.peerId = 0 then b.followMaster d else b) = b' ∧
        b'.Steady i configs ∧ b'.record = b.record ∧ b'.connection = true := by
      split
      · exact ⟨_, rfl, h.followMaster hnot.1 hd⟩
      · exact ⟨b, rfl, h, rfl, hnot.1⟩
    obtain ⟨b', heq, h', hrecord, hconn⟩ := hfollow
    rw [heq]
    split
    · rename_i htrack
      have hsame := sameSending_unpackPayload b'.net b'.record d true
      refine ⟨⟨fun hf => ?_, fun _ => (h'.tracks htrack).congr hsame, fun hc => ?_,
        fun _ hf => ?_, h'.welcomed, h'.read⟩, hsame.packed.trans (by rw [hrecord]),
        fun _ => ⟨htrack, hconn⟩⟩
      · cases htrack.symm.trans hf
      · exact hsame.peerId.trans (h'.peerId hc)
      · cases htrack.symm.trans hf
    · exact ⟨h', by rw [hrecord], nofun⟩

theorem sender_peerField {i : ℕ} (hi : i < 2 ^ 15) (error : Bool) :
    peerField i error % 2 ^ 15 = i := by
  simp only [peerField]
  split <;> omega

/-- A datagram arrives at a peer that can send for the cycle if its turn comes: what it
sends was packed for the cycle. -/
theorem Steady.receive (h : b.Steady i configs) (hi : i < 2 ^ 15)
    (hd : d.cycle + 0x300 < 2 ^ 32)
    (hturn : (b.unpackPeerData d).2 = true →
      Sendable (b.unpackPeerData d).1.net (b.unpackPeerData d).1.record)
    (payload : List UInt8) :
    ∃ b' sent, b.receive d payload = .ok (b', sent) ∧ b'.Steady i configs ∧
      b.record.packed <+: b'.record.packed ∧
      b'.record.passed = (b.unpackPeerData d).1.record.passed ∧
      ∀ d' ∈ sent, d'.peerId = i ∧ d'.cycle + 0x300 < 2 ^ 32 ∧
        (cycleBase d'.cycle, d'.payload) ∈ b'.record.packed := by
  obtain ⟨h', hpacked, hwhen⟩ := h.unpackPeerData hd
  simp only [PeerNode.receive]
  generalize b.unpackPeerData d = u at *
  obtain ⟨b₁, myturntosend⟩ := u
  simp only at h' hpacked hwhen hturn ⊢
  split
  · rename_i hmine
    obtain ⟨htrack, hconn⟩ := hwhen hmine
    have htracks := h'.tracks htrack
    obtain ⟨n', r', sent, hsend, hsends⟩ := sendMessage_ready htracks.buffered
      (.inl htracks.labelled) htracks.bounded (htracks.ready (hturn hmine))
      (by have := htracks.room.1; omega) payload
    have hid := hsends.peerId.trans (h'.peerId hconn)
    simp only [hsend]
    refine ⟨_, _, rfl, ⟨fun hf => ?_, fun _ => htracks.sends hsends, fun _ => hid,
      fun _ hf => ?_, h'.welcomed, h'.read⟩, hpacked ▸ hsends.packed, hsends.passed,
      fun d' hd' => ?_⟩
    · cases htrack.symm.trans hf
    · cases htrack.symm.trans hf
    · obtain rfl := List.mem_singleton.mp hd'
      obtain ⟨error, hsender⟩ := hsends.sender
      refine ⟨?_, ?_, ?_⟩
      · rw [Datagram.peerId, hsender, h'.peerId hconn]
        exact sender_peerField hi error
      · rw [hsends.cycle]
        exact htracks.room.1
      · rw [hsends.cycle]
        exact hsends.payload
  · exact ⟨_, _, rfl, h', hpacked ▸ List.prefix_rfl, rfl, nofun⟩

/-- A configuration message other than the configuration itself. -/
theorem Steady.decodeOther (h : b.Steady i configs) (hread : b.configRead < configs.length)
    (f : ℕ) (q : List (ℕ × ℕ)) :
    { b with followId := f, followChanges := q, configRead := b.configRead + 1 }.Steady i
      configs := by
  refine ⟨h.fresh, h.tracks, h.peerId, h.waits, fun hw => ?_, hread⟩
  obtain ⟨c, hc, hwelcome⟩ := h.welcomed hw
  exact ⟨c, (List.take_prefix_take_left (Nat.le_succ _)).subset hc, hwelcome⟩

/-- A peer takes in its next configuration message. -/
theorem Steady.decodeConfigData (h : b.Steady i configs) {c : SentConfig}
    (hget : configs[b.configRead]? = some c) (htarget : c.target = i) (hi : i < 2 ^ 16)
    (hform : c.WellFormed) (hcycle : c.cycle + 0x300 < 2 ^ 32)
    (honce : configs.countP SentConfig.isWelcome ≤ 1) :
    (b.decodeConfigData c.configs).Steady i configs ∧
      (b.decodeConfigData c.configs).record = b.record := by
  have hread : b.configRead < configs.length := (List.getElem?_eq_some_iff.mp hget).1
  obtain ⟨f, k, hk, hconfigs⟩ | ⟨f, hconfigs⟩ | ⟨id, t, hconfigs⟩ := hform
  · have hwelcome : c.isWelcome = true := by
      simp [SentConfig.isWelcome, hconfigs]
    have hmem : c ∈ configs.take (b.configRead + 1) := by
      rw [List.take_add_one, hget]
      exact List.mem_append_right _ List.mem_cons_self
    have htrack : b.trackingudpcycle = false := by
      -- its configuration came already, and there is only one
      by_contra hne
      obtain ⟨c', hc', hwelcome'⟩ := h.welcomed (.inr (by simpa using hne))
      have hbefore := List.countP_pos_iff.mpr ⟨c', hc', hwelcome'⟩
      have hsplit := congrArg (List.countP SentConfig.isWelcome)
        (List.take_append_drop b.configRead configs)
      rw [List.drop_eq_getElem_cons hread, List.countP_append, List.countP_cons,
        (List.getElem?_eq_some_iff.mp hget).2, if_pos hwelcome] at hsplit
      omega
    have hjoin : 16 ≤ cycleBase (cycleIncrement c.cycle k) := by
      have := cycleBase_le c.cycle
      rw [cycleBase_increment, Nat.mod_eq_of_lt] <;> omega
    have hdecoded : ∃ f' q', b.decodeConfigData c.configs =
        { b with
          followId := f', followChanges := q', connection := true
          configRead := b.configRead + 1
          net := { b.net with
            peerId := c.target % 2 ^ 16
            messageCycle := cycleIncrement c.cycle k
            currentSendBuffer :=
              { messageCycle := minus32 (cycleIncrement c.cycle k) 0x10 }
            backupSendBuffer := {} } } := by
      simp only [PeerNode.decodeConfigData, hconfigs, List.foldl_cons, List.foldl_nil,
        decodeConfig]
      split <;> exact ⟨_, _, rfl⟩
    obtain ⟨f', q', heq⟩ := hdecoded
    rw [heq]
    refine ⟨⟨h.fresh, fun hf => ?_, fun _ => ?_, fun _ _ => hjoin, fun _ => ⟨c, hmem, hwelcome⟩,
      hread⟩, rfl⟩
    · cases htrack.symm.trans hf
    · rw [htarget]
      exact Nat.mod_eq_of_lt hi
  · have hdecoded : ∃ f' q', b.decodeConfigData c.configs =
        { b with followId := f', followChanges := q', configRead := b.configRead + 1 } := by
      simp only [PeerNode.decodeConfigData, hconfigs, List.foldl_cons, List.foldl_nil,
        decodeConfig]
      split <;> exact ⟨_, _, rfl⟩
    obtain ⟨f', q', heq⟩ := hdecoded
    rw [heq]
    exact ⟨h.decodeOther hread f' q', rfl⟩
  · simp only [PeerNode.decodeConfigData, hconfigs, List.foldl_cons, List.foldl_nil, decodeConfig]
    exact ⟨h.decodeOther hread b.followId b.followChanges, trivial⟩

/-- A peer that leaves, and more configuration messages. -/
theorem Steady.leave (h : b.Steady i configs) : { b with connection := false }.Steady i configs :=
  ⟨h.fresh, h.tracks, nofun, nofun, fun hw => h.welcomed (.inr (hw.resolve_left nofun)), h.read⟩

theorem Steady.moreConfigs (h : b.Steady i configs) {configs' : List SentConfig}
    (hp : configs <+: configs') : b.Steady i configs' := by
  refine ⟨h.fresh, h.tracks, h.peerId, h.waits, fun hw => ?_, h.read.trans hp.length_le⟩
  obtain ⟨c, hc, hwelcome⟩ := h.welcomed hw
  obtain ⟨extra, rfl⟩ := hp
  exact ⟨c, by rwa [List.take_append_of_le_length h.read], hwelcome⟩

theorem steady_init (i : ℕ) (configs : List SentConfig) : PeerNode.Steady i configs {} :=
  ⟨fun _ => rfl, nofun, nofun, nofun, fun hw => hw.elim nofun nofun, Nat.zero_le _⟩

end PeerNode

end Dueca.Net
