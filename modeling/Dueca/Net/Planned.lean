import Dueca.Net.Passes
import Dueca.Lib.Agenda

/-!
# Planned changes of the peers

The network master plans the joining and leaving of its peers some cycles ahead. The planned
changes are in a queue, of which only the head is looked at, with a comparison that knows a cycle as
past for two cycles. Here the runs of the administration have a clock that does not wrap around, and
an agenda: the changes for which no check at their planned cycle or after it has come yet. A check
is to carry out what is due on the agenda, and to leave the rest.
-/

namespace Dueca.Net

open Dueca.Lib

namespace NetCommunicatorMaster

variable {m m' m₀ : NetCommunicatorMaster} {peer p : CommPeer} {i : ℕ} {change : ChangeCycle}
variable {l plans : List ChangeCycle} {answer : ℕ → VettingResult} {c : CheckInput} {c' : Checked}

/-! ### The queue -/

/-- A planned change is due for the comparison that is made. -/
def isDue (m : NetCommunicatorMaster) (change : ChangeCycle) : Bool :=
  cycleIsCurrentOrPast m.net.messageCycle change.changeCycle

/-- The planned changes at the head of the queue that a check takes from it. -/
def taken (m : NetCommunicatorMaster) : List ChangeCycle := m.peerChanges.takeWhile m.isDue

/-- Those that it leaves. -/
def waiting (m : NetCommunicatorMaster) : List ChangeCycle := m.peerChanges.dropWhile m.isDue

theorem applyChange_messageCycle :
    (m.applyChange change).net.messageCycle = m.net.messageCycle := by
  unfold applyChange
  split
  · split
    · simp only [countPeer]
      split <;> rfl
    · rfl
  · rfl

theorem applyChange_isDue : (m.applyChange change).isDue = m.isDue := by
  funext change'
  rw [isDue, applyChange_messageCycle, isDue]

/-- The changes taken from the queue are carried out in their order. -/
theorem applyChanges_eq (l : List ChangeCycle) :
    m.applyChanges l =
      { (l.takeWhile m.isDue).foldl applyChange m with peerChanges := l.dropWhile m.isDue } := by
  induction l generalizing m with
  | nil => rfl
  | cons change rest ih =>
    by_cases hdue : m.isDue change = true
    · rw [List.takeWhile_cons_of_pos hdue, List.dropWhile_cons_of_pos hdue, List.foldl_cons,
        ← @applyChange_isDue m change, ← ih]
      exact if_pos hdue
    · rw [List.takeWhile_cons_of_neg hdue, List.dropWhile_cons_of_neg hdue]
      exact if_neg hdue

/-! ### New plans -/

/-- The number of cycles a change is planned ahead: two for the first peers, ten for later ones, four
for leaving. -/
def IsLead (lead : ℕ) : Prop := lead = 2 ∨ lead = 4 ∨ lead = 10

/-- In one cycle, plans are added behind the others. -/
structure AddsPlans (m₀ m : NetCommunicatorMaster) : Prop where
  messageCycle : m.net.messageCycle = m₀.net.messageCycle
  plans : ∃ plans, m.peerChanges = m₀.peerChanges ++ plans ∧ ∀ change ∈ plans,
    ∃ lead, IsLead lead ∧ change.changeCycle = cycleIncrement m₀.net.messageCycle lead

namespace AddsPlans

theorem refl (m : NetCommunicatorMaster) : AddsPlans m m :=
  ⟨rfl, [], (List.append_nil _).symm, nofun⟩

theorem of_eq (h : AddsPlans m₀ m) (hcycle : m'.net.messageCycle = m.net.messageCycle)
    (hchanges : m'.peerChanges = m.peerChanges) : AddsPlans m₀ m' := by
  obtain ⟨plans, hplans, hlead⟩ := h.plans
  exact ⟨hcycle.trans h.messageCycle, plans, hchanges.trans hplans, hlead⟩

theorem add (h : AddsPlans m₀ m) {lead : ℕ} (hlead : IsLead lead)
    (hcycle : m'.net.messageCycle = m.net.messageCycle)
    (hchange : change.changeCycle = cycleIncrement m.net.messageCycle lead)
    (hchanges : m'.peerChanges = m.peerChanges ++ [change]) : AddsPlans m₀ m' := by
  obtain ⟨plans, hplans, hleads⟩ := h.plans
  refine ⟨hcycle.trans h.messageCycle, plans ++ [change], ?_, fun change' hmem => ?_⟩
  · rw [hchanges, hplans, List.append_assoc]
  · rcases List.mem_append.mp hmem with hold | hnew
    · exact hleads change' hold
    · rw [List.mem_singleton.mp hnew]
      exact ⟨lead, hlead, h.messageCycle ▸ hchange⟩

end AddsPlans

theorem correctFollowId_peerChanges (s f : ℕ) :
    (m.correctFollowId s f).peerChanges = m.peerChanges := by
  simp only [correctFollowId]
  split
  · rfl
  · split <;> rfl

theorem AddsPlans.decodeCommand (h : AddsPlans m₀ m) (command : PeerCommand) :
    AddsPlans m₀ (m.decodeCommand i command) := by
  unfold NetCommunicatorMaster.decodeCommand
  split
  · exact h
  · cases command with
    | deletePeer =>
      refine h.add (show IsLead 4 from .inr (.inl rfl)) ?_ ?_ (correctFollowId_peerChanges ..)
      · exact congrArg NetCommunicator.messageCycle (correctFollowId_net ..)
      · rfl
    | clientPayload | duecaVersion | unhandled => exact h

theorem AddsPlans.foldl_decodeCommand (h : AddsPlans m₀ m) (commands : List PeerCommand) :
    AddsPlans m₀ (commands.foldl (fun m c => m.decodeCommand i c) m) := by
  induction commands generalizing m with
  | nil => exact h
  | cons command commands ih => exact ih (h.decodeCommand command)

theorem AddsPlans.decodeConfigData (h : AddsPlans m₀ m) : AddsPlans m₀ (m.decodeConfigData i) :=
  (h.foldl_decodeCommand _).of_eq rfl rfl

theorem AddsPlans.removePeer (h : AddsPlans m₀ m) : AddsPlans m₀ (m.removePeer i p) := by
  refine h.of_eq ?_ (correctFollowId_peerChanges ..)
  show (m.correctFollowId p.sendId p.followId).net.messageCycle = m.net.messageCycle
  rw [correctFollowId_net]

theorem AddsPlans.acceptPeer (h : AddsPlans m₀ m) : AddsPlans m₀ (m.acceptPeer i p) := by
  by_cases hnone : m.net.npeers = 0
  · exact h.add (show IsLead 2 from .inl rfl) rfl (by rw [if_pos hnone]; rfl) rfl
  · exact h.add (show IsLead 10 from .inr (.inr rfl)) rfl (by rw [if_neg hnone]; rfl) rfl

theorem receiveOne_same (e : ConfigEvent) : (m.receiveOne e).net = m.net ∧
    (m.receiveOne e).peerChanges = m.peerChanges := by
  cases e <;> exact ⟨rfl, rfl⟩

theorem receiveConfigs_same (c : CheckInput) :
    (m.receiveConfigs c).net.messageCycle = m.net.messageCycle ∧
      (m.receiveConfigs c).peerChanges = m.waiting := by
  have hevents : ∀ (events : List ConfigEvent) (m : NetCommunicatorMaster),
      (events.foldl receiveOne m).net = m.net ∧
        (events.foldl receiveOne m).peerChanges = m.peerChanges := by
    intro events
    induction events with
    | nil => exact fun m => ⟨rfl, rfl⟩
    | cons e events ih =>
      intro m
      obtain ⟨hnet, hchanges⟩ := ih (m.receiveOne e)
      obtain ⟨hnet', hchanges'⟩ := m.receiveOne_same e
      exact ⟨hnet.trans hnet', hchanges.trans hchanges'⟩
  obtain ⟨hnet, hchanges⟩ := hevents c.events (m.applyChanges m.peerChanges)
  refine ⟨?_, hchanges.trans (by rw [applyChanges_eq]; rfl)⟩
  refine (congrArg NetCommunicator.messageCycle hnet).trans ?_
  exact applyChanges_invariant (P := fun m' => m'.net.messageCycle = m.net.messageCycle)
    (fun _ _ h => applyChange_messageCycle.trans h) (fun _ _ h => h) rfl

/-- A check leaves the changes that it has not taken, and adds the new plans. -/
theorem check_plans (h : m.checkAndUpdatePeerStates c = .ok c') :
    c'.master.net.messageCycle = m.net.messageCycle ∧
      ∃ plans, c'.master.peerChanges = m.waiting ++ plans ∧ ∀ change ∈ plans,
        ∃ lead, IsLead lead ∧ change.changeCycle = cycleIncrement m.net.messageCycle lead := by
  obtain ⟨hcycle, hwaiting⟩ := m.receiveConfigs_same c
  have hadds : AddsPlans (m.receiveConfigs c) c'.master :=
    repeatPasses_invariant (fun _ _ _ _ h => h.removePeer) (fun _ _ _ _ _ h => h.acceptPeer)
      (fun _ _ h => h.decodeConfigData) (.refl _) h
  obtain ⟨plans, hplans, hlead⟩ := hadds.plans
  exact ⟨hadds.messageCycle.trans hcycle, plans, hplans.trans (by rw [hwaiting]),
    fun change hmem => hcycle ▸ hlead change hmem⟩

end NetCommunicatorMaster

open NetCommunicatorMaster

/-! ### Clock and agenda -/

/-- The administration in a run. The clock counts the cycles without wrapping around; the agenda has
the planned changes, with their cycle on the clock, for which no check at that cycle or after it has
come yet. -/
structure Timeline where
  master : NetCommunicatorMaster := {}
  clock : ℕ := 1
  highest : ℕ := 1
  agenda : List (ℕ × ChangeCycle) := []
  deriving DecidableEq

/-- The inputs of the administration; a cycle comes with its number on the clock, and with the
number of repeats. -/
inductive TimedInput
  | opened
  | cycle (clock repeats : ℕ)
  | check (input : CheckInput)

/-- The counter of 32 bits in some cycle. -/
def counterOf (clock repeats : ℕ) : ℕ := (16 * clock + repeats % 16) % 2 ^ 32

def TimedInput.input : TimedInput → MasterInput
  | .opened => .opened
  | .cycle clock repeats => .cycle (counterOf clock repeats)
  | .check input => .check input

/-- How many cycles after `counter` a change is planned. -/
def cyclesAhead (counter : ℕ) (change : ChangeCycle) : ℕ :=
  (change.changeCycle / 16 + 2 ^ 28 - counter / 16 % 2 ^ 28) % 2 ^ 28

namespace Timeline

/-- The new plans in a check that leaves these changes, on the clock. -/
def plans (τ : Timeline) (changes : List ChangeCycle) : List (ℕ × ChangeCycle) :=
  (changes.drop τ.master.waiting.length).map fun change =>
    (τ.clock + cyclesAhead τ.master.net.messageCycle change, change)

/-- What goes with a step that leaves the administration as `m`. -/
def next (τ : Timeline) (m : NetCommunicatorMaster) : TimedInput → Timeline
  | .opened => { τ with master := m }
  | .cycle clock _ => { τ with master := m, clock := clock, highest := max τ.highest clock }
  | .check _ => { τ with master := m, agenda := later τ.clock τ.agenda ++ τ.plans m.peerChanges }

/-- A step of the administration. -/
def step (τ : Timeline) (a : TimedInput) : Except Fault Timeline := do
  let m ← masterStep τ.master a.input
  return τ.next m a

/-- What is due on the agenda is carried out, each change once and in the order of the plans, and
nothing else is. -/
def CarriesOutDue (τ : Timeline) : Prop :=
  τ.master.applyChanges τ.master.peerChanges =
    { ((due τ.clock τ.agenda).map Prod.snd).foldl applyChange τ.master with
      peerChanges := (later τ.clock τ.agenda).map Prod.snd }

/-- The cycle goes back by one at most, and no check comes more than two cycles after the cycle of
a planned change for which it is the first. -/
def Timely (τ : Timeline) : TimedInput → Prop
  | .opened => True
  | .cycle clock _ => τ.highest ≤ clock + 1
  | .check _ => ∀ x ∈ τ.agenda, x.1 ≤ τ.clock → τ.clock ≤ x.1 + 2

/-- No change is planned for a cycle before that of a change that is still waiting. -/
def InPlannedOrder (τ : Timeline) (a : TimedInput) : Prop :=
  ∀ τ', τ.step a = .ok τ' → τ'.agenda.Pairwise fun x y => x.1 ≤ y.1

/-- The agenda is what is in the queue, with the cycles on the clock. -/
structure Inv (τ : Timeline) : Prop where
  clock : cycleBase τ.master.net.messageCycle = 16 * τ.clock % 2 ^ 32
  highest : τ.clock ≤ τ.highest ∧ τ.highest ≤ τ.clock + 1
  queue : τ.master.peerChanges = τ.agenda.map Prod.snd
  cycles : ∀ x ∈ τ.agenda, cycleBase x.2.changeCycle = 16 * x.1 % 2 ^ 32
  ahead : ∀ x ∈ τ.agenda, x.1 ≤ τ.highest + 10
  ordered : τ.agenda.Pairwise fun x y => x.1 ≤ y.1

variable {τ τ' : Timeline} {a : TimedInput} {c : CheckInput}

/-- The comparison knows the changes that are due. -/
theorem Inv.isDue_iff (h : τ.Inv) (htimely : τ.Timely (.check c)) {x : ℕ × ChangeCycle}
    (hx : x ∈ τ.agenda) : τ.master.isDue x.2 = true ↔ x.1 ≤ τ.clock := by
  have hcycle := h.cycles x hx
  have hahead := h.ahead x hx
  have hlate := htimely x hx
  obtain ⟨-, hhighest⟩ := h.highest
  simp only [isDue, cycleIsCurrentOrPast, h.clock, hcycle, Bool.or_eq_true, beq_iff_eq]
  omega

/-- The front of the queue that is taken is what is due. -/
theorem Inv.taken_eq (h : τ.Inv) (htimely : τ.Timely (.check c)) :
    τ.master.taken = (due τ.clock τ.agenda).map Prod.snd ∧
      τ.master.waiting = (later τ.clock τ.agenda).map Prod.snd := by
  have htest : ∀ x ∈ τ.agenda, (τ.master.isDue ∘ Prod.snd) x = true ↔ x.1 ≤ τ.clock :=
    fun x hx => h.isDue_iff htimely hx
  obtain ⟨htake, hdrop⟩ := takeWhile_eq_due h.ordered htest
  constructor
  · rw [taken, h.queue, List.takeWhile_map, htake]
  · rw [waiting, h.queue, List.dropWhile_map, hdrop]

theorem Inv.carriesOutDue (h : τ.Inv) (htimely : τ.Timely (.check c)) : τ.CarriesOutDue := by
  obtain ⟨htaken, hwaiting⟩ := h.taken_eq htimely
  rw [CarriesOutDue, applyChanges_eq, ← htaken, ← hwaiting]
  rfl

theorem inv_start : Inv {} where
  clock := rfl
  highest := ⟨Nat.le_refl _, Nat.le_succ _⟩
  queue := rfl
  cycles := nofun
  ahead := nofun
  ordered := .nil

theorem cyclesAhead_increment {counter lead : ℕ} {change : ChangeCycle} (hlead : IsLead lead)
    (h : change.changeCycle = cycleIncrement counter lead) : cyclesAhead counter change = lead := by
  rw [cyclesAhead, h, cycleIncrement, cycleBase]
  unfold IsLead at hlead
  omega

/-- The step of a check. -/
theorem Inv.check (h : τ.Inv) (htimely : τ.Timely (.check c)) {c' : Checked}
    (hc : τ.master.checkAndUpdatePeerStates c = .ok c')
    (hordered : (τ.next c'.master (.check c)).agenda.Pairwise fun x y => x.1 ≤ y.1) :
    (τ.next c'.master (.check c)).Inv := by
  obtain ⟨hcycle, plans, hplans, hlead⟩ := check_plans hc
  obtain ⟨-, hwaiting⟩ := h.taken_eq htimely
  have hnew : τ.plans c'.master.peerChanges = plans.map fun change =>
      (τ.clock + cyclesAhead τ.master.net.messageCycle change, change) := by
    rw [Timeline.plans, hplans, List.drop_left]
  have hmem : ∀ x ∈ (τ.next c'.master (.check c)).agenda,
      x ∈ τ.agenda ∨ ∃ lead, IsLead lead ∧ x.1 = τ.clock + lead ∧
        x.2.changeCycle = cycleIncrement τ.master.net.messageCycle lead := by
    intro x hx
    rcases List.mem_append.mp hx with hold | hx
    · exact .inl (mem_later.mp hold).1
    · rw [hnew] at hx
      obtain ⟨change, hchange, rfl⟩ := List.mem_map.mp hx
      obtain ⟨lead, his, heq⟩ := hlead change hchange
      exact .inr ⟨lead, his, by rw [cyclesAhead_increment his heq], heq⟩
  have hhighest := h.highest
  refine ⟨(congrArg cycleBase hcycle).trans h.clock, hhighest, ?_, fun x hx => ?_, fun x hx => ?_,
    hordered⟩
  · show c'.master.peerChanges = (later τ.clock τ.agenda ++ τ.plans _).map Prod.snd
    rw [hnew, hplans, hwaiting, List.map_append, List.map_map]
    simp only [Function.comp_def, List.map_id']
  · rcases hmem x hx with hold | ⟨lead, his, hclock, heq⟩
    · exact h.cycles x hold
    · rw [heq, cycleBase_increment, h.clock, hclock]
      omega
  · show x.1 ≤ τ.highest + 10
    rcases hmem x hx with hold | ⟨lead, his, hclock, -⟩
    · exact h.ahead x hold
    · unfold IsLead at his
      omega

theorem Inv.step (h : τ.Inv) (htimely : τ.Timely a) (hordered : τ.InPlannedOrder a)
    (hstep : τ.step a = .ok τ') : τ'.Inv := by
  have hagenda := hordered τ' hstep
  obtain ⟨m, hm, hnext⟩ := bind_eq_ok.mp hstep
  cases hnext
  cases a with
  | opened =>
    cases hm
    exact ⟨h.clock, h.highest, h.queue, h.cycles, h.ahead, h.ordered⟩
  | cycle clock repeats =>
    cases hm
    obtain ⟨hle, hge⟩ := h.highest
    refine ⟨?_, ⟨Nat.le_max_right _ _, Nat.max_le.mpr ⟨htimely, Nat.le_succ _⟩⟩, h.queue, h.cycles,
      fun x hx => (h.ahead x hx).trans (Nat.add_le_add_right (Nat.le_max_left _ _) 10), h.ordered⟩
    show cycleBase (counterOf clock repeats) = 16 * clock % 2 ^ 32
    rw [counterOf, cycleBase]
    omega
  | check c =>
    obtain ⟨c', hc, hm⟩ : ∃ c', τ.master.checkAndUpdatePeerStates c = .ok c' ∧ c'.master = m := by
      simp only [TimedInput.input, masterStep] at hm
      split at hm
      · cases hm
      · rename_i c' hc
        exact ⟨c', hc, Except.ok.inj hm⟩
    subst hm
    exact h.check htimely hc hagenda

instance (τ : Timeline) : Decidable τ.CarriesOutDue :=
  inferInstanceAs (Decidable (_ = _))

def timelyTest (τ : Timeline) : TimedInput → Bool
  | .opened => true
  | .cycle clock _ => τ.highest ≤ clock + 1
  | .check _ => τ.agenda.all fun x => decide (x.1 ≤ τ.clock → τ.clock ≤ x.1 + 2)

theorem timely_of_test (h : τ.timelyTest a = true) : τ.Timely a := by
  cases a with
  | opened => trivial
  | cycle clock repeats => exact (of_decide_eq_true h : τ.highest ≤ clock + 1)
  | check c => exact fun x hx => of_decide_eq_true (List.all_eq_true.mp h x hx)

def inOrderTest (τ : Timeline) (a : TimedInput) : Bool :=
  match τ.step a with
  | .ok τ' => decide (τ'.agenda.Pairwise fun x y => x.1 ≤ y.1)
  | .error _ => true

theorem inPlannedOrder_of_test (h : τ.inOrderTest a = true) : τ.InPlannedOrder a := by
  intro τ' hstep
  rw [inOrderTest, hstep] at h
  exact of_decide_eq_true h

/-- One peer is active, a second one is accepted in cycle 4 and is to join in cycle 14; in cycle 5
the first one asks to leave, in cycle 9. There is a check in each cycle; that in cycle 9 finds the
joining at the head of the queue. -/
def leaveRun : List TimedInput :=
  [.opened, .check ⟨[], fun _ => .accept⟩, .cycle 2 0, .check ⟨[], fun _ => .accept⟩, .cycle 3 0,
    .check ⟨[], fun _ => .accept⟩, .opened, .cycle 4 0, .check ⟨[], fun _ => .accept⟩, .cycle 5 0,
    .check ⟨[.message 1 [.deletePeer]], fun _ => .accept⟩, .cycle 6 0,
    .check ⟨[], fun _ => .accept⟩, .cycle 7 0, .check ⟨[], fun _ => .accept⟩, .cycle 8 0,
    .check ⟨[], fun _ => .accept⟩, .cycle 9 0]

end Timeline

end Dueca.Net
