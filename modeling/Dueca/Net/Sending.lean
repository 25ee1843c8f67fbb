import Dueca.Net.Traffic

/-!
# The two send buffers

A node sends its last message again, or the one before it, from the buffer that
holds it. Here is when the tests in `codeAndSendUDPMessage` pass, and that the
buffer then holds what was packed for the message's cycle. The argument is the same
for the master and for a peer: each brings its own reasons why it is `Ready`.

Messages are counted without the repeat nibble, and `base` in the comments stands
for `cycleBase`. The counter does not wrap here.
-/

namespace Dueca.Net

section Sorted

variable {α : Type*} {l : List (ℕ × α)} {a b : ℕ × α}

/-- The greatest element of an increasing list is its last. -/
theorem exists_concat_of_max (hl : l.Pairwise fun a b => a.1 < b.1) (ha : a ∈ l)
    (hmax : ∀ b ∈ l, b.1 ≤ a.1) : ∃ l', l = l' ++ [a] := by
  obtain ⟨l₁, l₂, rfl⟩ := List.append_of_mem ha
  cases l₂ with
  | nil => exact ⟨l₁, rfl⟩
  | cons b l₂ =>
    have hlt : a.1 < b.1 := by
      have hpair := (List.pairwise_append.mp hl).2.1
      exact List.rel_of_pairwise_cons hpair List.mem_cons_self
    have hle := hmax b (by simp)
    omega

theorem eq_of_fst_eq (hl : l.Pairwise fun a b => a.1 < b.1) (ha : a ∈ l) (hb : b ∈ l)
    (h : a.1 = b.1) : a = b := by
  induction l with
  | nil => cases ha
  | cons c l ih =>
    obtain ⟨hc, hl⟩ := List.pairwise_cons.mp hl
    obtain rfl | ha' := List.mem_cons.mp ha
    · obtain rfl | hb' := List.mem_cons.mp hb
      · rfl
      · have := hc b hb'
        omega
    · obtain rfl | hb' := List.mem_cons.mp hb
      · have := hc a ha'
        omega
      · exact ih hl ha' hb'

end Sorted

variable {n : NetCommunicator} {r : NodeRecord} {payload : List UInt8}

/-- The node packed a message for this cycle. -/
def NodeRecord.HasPacked (r : NodeRecord) (c : ℕ) : Prop := ∃ x, (c, x) ∈ r.packed

/-- The buffers hold the last two messages packed, the second one if the two were
packed for successive cycles. -/
structure Buffered (n : NetCommunicator) (r : NodeRecord) : Prop where
  sorted : r.packed.Pairwise fun a b => a.1 < b.1
  bases : ∀ a ∈ r.packed, cycleBase a.1 = a.1
  current : ∀ l a, r.packed = l ++ [a] →
    n.currentSendBuffer.payload = a.2 ∧ 0 < n.currentSendBuffer.fill
  backup : ∀ l a b, r.packed = l ++ [a, b] → a.1 + 16 = b.1 →
    n.backupSendBuffer.payload = a.2 ∧ 0 < n.backupSendBuffer.fill ∧
      cycleBase n.backupSendBuffer.messageCycle = a.1

/-- The current buffer carries the cycle of the last message packed. -/
def Labelled (n : NetCommunicator) (r : NodeRecord) : Prop :=
  ∀ l a, r.packed = l ++ [a] → cycleBase n.currentSendBuffer.messageCycle = a.1

/-- Nothing was packed for a cycle after `packedCycle`. -/
def Bounded (n : NetCommunicator) (r : NodeRecord) : Prop :=
  ∀ a ∈ r.packed, a.1 ≤ cycleBase n.packedCycle

/-- The next message is new, and nothing was packed for the cycle before it. -/
def Fresh (n : NetCommunicator) (r : NodeRecord) : Prop :=
  n.sendstate = .normal ∧ ∀ a ∈ r.packed, a.1 + 16 < cycleBase n.messageCycle

/-- The send state fits the cycle: a new message is for the cycle after the last one
packed, and messages to be sent again were packed. -/
def Ready (n : NetCommunicator) (r : NodeRecord) : Prop :=
  match n.sendstate with
  | .normal => cycleBase n.messageCycle = cycleBase n.packedCycle + 16
  | .afterNormal | .stasis =>
    cycleBase n.messageCycle = cycleBase n.packedCycle ∧ r.HasPacked (cycleBase n.messageCycle)
  | .recover =>
    cycleBase n.messageCycle + 16 = cycleBase n.packedCycle ∧
      r.HasPacked (cycleBase n.messageCycle) ∧ r.HasPacked (cycleBase n.packedCycle)

/-- What sending does: the counters of the cycle stay, the record grows, and the
message carries what was packed for its cycle. -/
structure Sends (n : NetCommunicator) (r : NodeRecord) (n' : NetCommunicator)
    (r' : NodeRecord) (d : Datagram) : Prop where
  buffered : Buffered n' r'
  labelled : Labelled n' r'
  bounded : Bounded n' r'
  ready : Ready n' r'
  sent : n'.sendstate ≠ .normal
  messageCycle : n'.messageCycle = n.messageCycle
  packedCycle : n'.packedCycle = n.packedCycle ∨ n'.packedCycle = n.messageCycle
  npeers : n'.npeers = n.npeers
  peerCycles : n'.peerCycles = n.peerCycles
  peerId : n'.peerId = n.peerId
  passed : r'.passed = r.passed
  packed : r.packed <+: r'.packed
  cycle : d.cycle = n.messageCycle
  sender : ∃ error, d.peerField = peerField n.peerId error
  payload : (cycleBase n.messageCycle, d.payload) ∈ r'.packed

/-! ### Sending -/

theorem Buffered.last (hb : Buffered n r) (hbound : Bounded n r)
    (hp : r.HasPacked (cycleBase n.packedCycle)) :
    ∃ l x, r.packed = l ++ [(cycleBase n.packedCycle, x)] := by
  obtain ⟨x, hx⟩ := hp
  obtain ⟨l, hl⟩ := exists_concat_of_max hb.sorted hx hbound
  exact ⟨l, x, hl⟩

/-- What was packed for the cycle before the last one stands next to it. -/
theorem Buffered.lastTwo (hb : Buffered n r) (hbound : Bounded n r) {c : ℕ}
    (hc : c + 16 = cycleBase n.packedCycle) (hprev : r.HasPacked c)
    (hp : r.HasPacked (cycleBase n.packedCycle)) :
    ∃ l x y, r.packed = l ++ [(c, x), (cycleBase n.packedCycle, y)] := by
  obtain ⟨l, y, hl⟩ := hb.last hbound hp
  obtain ⟨x, hx⟩ := hprev
  have hsorted := hb.sorted
  have hbases := hb.bases
  rw [hl] at hx hsorted hbases
  have hmem : (c, x) ∈ l := by
    obtain hmem | heq := List.mem_append.mp hx
    · exact hmem
    · have : c = cycleBase n.packedCycle := congrArg Prod.fst (List.mem_singleton.mp heq)
      omega
  obtain ⟨hsorted, -, hlt⟩ := List.pairwise_append.mp hsorted
  have hmax : ∀ b ∈ l, b.1 ≤ c := by
    intro b hbl
    have hless := hlt b hbl _ List.mem_cons_self
    have hbase := hbases b (List.mem_append_left _ hbl)
    simp only [cycleBase] at hless hbase hc
    omega
  obtain ⟨l', rfl⟩ := exists_concat_of_max hsorted hmem hmax
  exact ⟨l', x, y, by simpa using hl⟩

theorem sendMessage_normal (hb : Buffered n r) (hlabel : Labelled n r ∨ Fresh n r)
    (hbound : Bounded n r) (hstate : n.sendstate = .normal)
    (hnext : cycleBase n.messageCycle = cycleBase n.packedCycle + 16)
    (hm : n.messageCycle < 2 ^ 32) :
    ∃ n' r' d, sendMessage n r payload = .ok (n', r', d) ∧ Sends n r n' r' d := by
  have htest : cycleIsNext n.packedCycle n.messageCycle = true := by
    have hlt := Nat.lt_of_le_of_lt (cycleBase_le n.messageCycle) hm
    simp only [cycleIsNext, beq_iff_eq]
    omega
  have hfresh : ∀ a ∈ r.packed, a.1 < cycleBase n.messageCycle := by
    intro a ha
    have := hbound a ha
    omega
  refine ⟨_, _, _, by simp only [sendMessage, codeAndSendUDPMessage, hstate, htest, if_true]; rfl,
    ?_⟩
  constructor
  case buffered =>
    constructor
    case sorted =>
      rw [List.pairwise_append]
      refine ⟨hb.sorted, List.pairwise_singleton .., fun a ha b hmem => ?_⟩
      rw [List.mem_singleton.mp hmem]
      exact hfresh a ha
    case bases =>
      intro a ha
      obtain ha | ha := List.mem_append.mp ha
      · exact hb.bases a ha
      · rw [List.mem_singleton.mp ha, cycleBase_cycleBase]
    case current =>
      intro l a hl
      obtain ⟨-, heq⟩ := List.append_inj' hl rfl
      cases heq
      exact ⟨rfl, by simp only [controlSize]; omega⟩
    case backup =>
      intro l a b hl hab
      have hcat : r.packed ++ [(cycleBase n.messageCycle, payload)] = (l ++ [a]) ++ [b] := by
        simpa using hl
      obtain ⟨hinit, hb'⟩ := List.append_inj' hcat rfl
      obtain rfl := List.singleton_inj.mp hb'
      obtain ⟨hpayload, hfill⟩ := hb.current l a hinit
      refine ⟨hpayload, hfill, ?_⟩
      obtain hlabel | ⟨-, hfar⟩ := hlabel
      · exact hlabel l a hinit
      · have := hfar a (by simp [hinit])
        omega
  case labelled =>
    intro l a hl
    obtain ⟨-, heq⟩ := List.append_inj' hl rfl
    cases heq
    rfl
  case bounded =>
    intro a ha
    obtain ha | ha := List.mem_append.mp ha
    · exact (hfresh a ha).le
    · rw [List.mem_singleton.mp ha]
  case ready => exact ⟨rfl, payload, by simp⟩
  case sent => exact nofun
  case packed => exact List.prefix_append ..
  case packedCycle => exact .inr rfl
  case sender => exact ⟨_, rfl⟩
  case payload => exact List.mem_append_right _ List.mem_cons_self
  all_goals rfl

/-- A message sent again leaves the node as it is. -/
theorem sends_resend {buffer : MessageBuffer} {error : Bool} (hb : Buffered n r)
    (hlabel : Labelled n r) (hbound : Bounded n r) (hready : Ready n r)
    (hstate : n.sendstate ≠ .normal)
    (hpayload : (cycleBase n.messageCycle, buffer.payload) ∈ r.packed) :
    Sends n r n r (writeControlBlock n buffer error) where
  buffered := hb
  labelled := hlabel
  bounded := hbound
  ready := hready
  sent := hstate
  messageCycle := rfl
  packedCycle := .inl rfl
  npeers := rfl
  peerCycles := rfl
  peerId := rfl
  passed := rfl
  packed := List.prefix_rfl
  cycle := rfl
  sender := ⟨error, rfl⟩
  payload := hpayload

theorem sendMessage_again (hb : Buffered n r) (hlabel : Labelled n r) (hbound : Bounded n r)
    (hstate : n.sendstate = .stasis ∨ n.sendstate = .afterNormal)
    (hm : cycleBase n.messageCycle = cycleBase n.packedCycle)
    (hp : r.HasPacked (cycleBase n.messageCycle)) :
    ∃ n' r' d, sendMessage n r payload = .ok (n', r', d) ∧ Sends n r n' r' d := by
  obtain ⟨l, x, hl⟩ := hb.last hbound (hm ▸ hp)
  obtain ⟨hx, hfill⟩ := hb.current l _ hl
  have htest : (cycleIsCurrent n.messageCycle n.currentSendBuffer.messageCycle &&
      cycleIsCurrent n.messageCycle n.packedCycle) = true := by
    have := hlabel l _ hl
    simp [cycleIsCurrent, hm, this]
  have hready : Ready n r := by
    obtain hs | hs := hstate <;> simp only [Ready, hs] <;> exact ⟨hm, hp⟩
  have hnot : n.sendstate ≠ .normal := by
    obtain hs | hs := hstate <;> simp [hs]
  refine ⟨n, r, writeControlBlock n n.currentSendBuffer n.errorbit, ?_,
    sends_resend hb hlabel hbound hready hnot (by rw [hm, hx, hl]; simp)⟩
  have hresend : resend n n.currentSendBuffer n.errorbit =
      .ok (n, writeControlBlock n n.currentSendBuffer n.errorbit) :=
    if_neg hfill.ne'
  obtain hs | hs := hstate <;>
    simp only [sendMessage, codeAndSendUDPMessage, hs, htest, if_true, hresend] <;> rfl

theorem sendMessage_back (hb : Buffered n r) (hlabel : Labelled n r) (hbound : Bounded n r)
    (hstate : n.sendstate = .recover)
    (hm : cycleBase n.messageCycle + 16 = cycleBase n.packedCycle)
    (hprev : r.HasPacked (cycleBase n.messageCycle))
    (hp : r.HasPacked (cycleBase n.packedCycle)) :
    ∃ n' r' d, sendMessage n r payload = .ok (n', r', d) ∧ Sends n r n' r' d := by
  obtain ⟨l, x, y, hl⟩ := hb.lastTwo hbound hm hprev hp
  obtain ⟨hx, hfill, hcycle⟩ := hb.backup l _ _ hl hm
  have htest : cycleIsCurrent n.messageCycle n.backupSendBuffer.messageCycle = true := by
    simp [cycleIsCurrent, hcycle]
  have hready : Ready n r := by
    simp only [Ready, hstate]
    exact ⟨hm, hprev, hp⟩
  refine ⟨n, r, writeControlBlock n n.backupSendBuffer false, ?_,
    sends_resend hb hlabel hbound hready (by simp [hstate]) (by rw [hx, hl]; simp)⟩
  have hresend : resend n n.backupSendBuffer false =
      .ok (n, writeControlBlock n n.backupSendBuffer false) := if_neg hfill.ne'
  simp only [sendMessage, codeAndSendUDPMessage, hstate, htest, if_true, hresend]
  rfl

/-- A node that is ready passes the tests on the counters, and sends what it packed
for the cycle. -/
theorem sendMessage_ready (hb : Buffered n r) (hlabel : Labelled n r ∨ Fresh n r)
    (hbound : Bounded n r) (hready : Ready n r) (hm : n.messageCycle < 2 ^ 32)
    (payload : List UInt8) :
    ∃ n' r' d, sendMessage n r payload = .ok (n', r', d) ∧ Sends n r n' r' d := by
  have hlabelled : n.sendstate ≠ .normal → Labelled n r := fun hnot =>
    hlabel.resolve_right fun hfresh => hnot hfresh.1
  simp only [Ready] at hready
  split at hready
  · exact sendMessage_normal hb hlabel hbound ‹_› hready hm
  · exact sendMessage_again hb (hlabelled (by simp [*])) hbound (.inr ‹_›) hready.1 hready.2
  · exact sendMessage_again hb (hlabelled (by simp [*])) hbound (.inl ‹_›) hready.1 hready.2
  · exact sendMessage_back hb (hlabelled (by simp [*])) hbound ‹_› hready.1 hready.2.1
      hready.2.2

end Dueca.Net
