import Dueca.Lib.History
import Dueca.IpRing.Moves

/-!
# Exchange of data in the ring

A node hands over what another one packed, each payload once and in order, and node 0 goes to its
next cycle when all have the data of all. The upper bits of the packet number go round after
`0x100000` cycles, so the number of a datagram tells its payload within a turn only.
-/

namespace Dueca.IpRing

open Function Dueca.Lib

variable {α : Type} {w w' : Ring α}

/-- The run goes on with what a node handed over from another being what that one packed, but for
the last payload; with datagrams of one number carrying one payload within a turn of the number;
and with node 0 at its number, or at the next one when all nodes have the data of all. -/
structure Exchanges (w : Ring α) (_ : Step α) (w' : Ring α) : Prop where
  noOfSenders : w'.noOfSenders = w.noOfSenders
  handed : ∀ a < w'.noOfSenders, ∀ b < w'.noOfSenders, a ≠ b →
    (w'.nodes a).handed b <+: (w'.nodes b).packed ∧
      (w'.nodes b).packed.length ≤ ((w'.nodes a).handed b).length + 1
  payload : ∀ b < w'.noOfSenders, ∀ x ∈ (w'.nodes b).sent, ∀ y ∈ (w'.nodes b).sent,
    x.1 < y.1 + 0x100000 → y.1 < x.1 + 0x100000 →
    upper x.2.packetNo = upper y.2.packetNo → x.2.payload = y.2.payload
  turns : upper ((w'.nodes 0).currentPacketNo 0) = upper ((w.nodes 0).currentPacketNo 0) ∨
    ∃ k, w'.Accepted k ∧ upper ((w.nodes 0).currentPacketNo 0) = k * 0x1000 % 0x100000000 ∧
      (w'.nodes 0).currentPacketNo 0 = nextCycle ((w.nodes 0).currentPacketNo 0)

theorem despatch0_noOfSenders (w : Ring α) (o : Outcome α) :
    (w.despatch0 o).noOfSenders = w.noOfSenders := by
  unfold Ring.despatch0
  dsimp only
  split
  · rfl
  · split
    · rfl
    · split <;> rfl
  · split
    · rfl
    · split <;> rfl

theorem sendMyConfirm_noOfSenders {i : ℕ} {a : Accessor α} (h : w.sendMyConfirm i a = .ok w') :
    w'.noOfSenders = w.noOfSenders := by
  unfold Ring.sendMyConfirm at h
  split at h
  · cases h
  · cases h
    rfl

theorem despatch1toN_noOfSenders {i : ℕ} {o : Outcome α} (h : w.despatch1toN i o = .ok w') :
    w'.noOfSenders = w.noOfSenders := by
  unfold Ring.despatch1toN at h
  dsimp only at h
  split at h
  · split at h <;> cases h
    rfl
  · split at h
    · cases h
    · split at h
      · cases h
        rfl
      · split at h <;> cases h <;> rfl
  · split at h
    · cases h
    · split at h
      · cases h
        rfl
      · split at h
        · cases h
          rfl
        · have hsame := sendMyConfirm_noOfSenders h
          exact hsame
  · exact sendMyConfirm_noOfSenders h
  · split at h
    · cases h
    · split at h <;> cases h <;> rfl

theorem step_noOfSenders {a : Step α} (h : step w a = .ok w') :
    w'.noOfSenders = w.noOfSenders := by
  cases a with
  | run i o =>
    rw [step] at h
    split at h
    · cases h
      exact despatch0_noOfSenders w o
    · split at h
      · exact despatch1toN_noOfSenders h
      · cases h
        rfl
  | loseData => cases h; rfl
  | loseConfirm => cases h; rfl

namespace Inv

/-- The number of node 0 belongs to its cycle. -/
theorem number_zero (h : Inv w) : IsNo w.cycle ((w.nodes 0).currentPacketNo 0) := by
  have hnumber := (h.node 0 h.pos).number 0 h.pos
  rw [if_pos rfl] at hnumber
  exact hnumber

/-- Datagrams of one node with the same upper bits are of the same cycle, and so is what they
carry. -/
theorem payload_eq (h : Inv w) {b : ℕ} (hb : b < w.noOfSenders) {x y : ℕ × Datagram α}
    (hx : x ∈ (w.nodes b).sent) (hy : y ∈ (w.nodes b).sent) (h₁ : x.1 < y.1 + 0x100000)
    (h₂ : y.1 < x.1 + 0x100000) (heq : upper x.2.packetNo = upper y.2.packetNo) :
    x.2.payload = y.2.payload := by
  obtain ⟨hnx, -, hpx⟩ := (h.node b hb).sent x hx
  obtain ⟨hny, -, hpy⟩ := (h.node b hb).sent y hy
  have hcycle := eq_of_upper hnx hny heq h₁ h₂
  rw [hcycle] at hpx
  exact Option.some.inj (hpx.symm.trans hpy)

theorem step (h : Inv w) (a : Step α) : ∃ w', step w a = .ok w' ∧ Inv w' ∧ w.Turns w' := by
  cases a with
  | run i o =>
    by_cases hzero : i = 0
    · exact ⟨_, if_pos hzero, h.despatch0 o⟩
    · by_cases hi : i < w.noOfSenders
      · obtain ⟨w', hstep, hinv, hkept⟩ := h.despatch1toN hi hzero o
        refine ⟨w', ?_, hinv, .inl (congrArg (Accessor.cycle 0) hkept)⟩
        rw [IpRing.step, if_neg hzero, if_pos hi]
        exact hstep
      · refine ⟨w, ?_, h, .inl rfl⟩
        rw [IpRing.step, if_neg hzero, if_neg hi]
        rfl
  | loseData s t k =>
    refine ⟨_, rfl, h.leaveData fun hs ht hne => (h.data s hs t ht hne).eraseIdx k, .inl rfl⟩
  | loseConfirm s t k =>
    refine ⟨_, rfl, h.leaveConfirms fun ht hpos hs => ?_, .inl rfl⟩
    rw [ht]
    exact (h.confirms s hpos hs).eraseIdx k

theorem delivers (h : Inv w) (a : Step α) :
    ∃ w', IpRing.step w a = .ok w' ∧ Exchanges w a w' ∧ Inv w' := by
  obtain ⟨w', hstep, hinv, hturns⟩ := h.step a
  refine ⟨w', hstep, ⟨step_noOfSenders hstep, fun a ha b hb hne => ?_, fun b hb x hx y hy =>
    hinv.payload_eq hb hx hy, ?_⟩, hinv⟩
  · exact ⟨hinv.handed a ha b hb hne, (hinv.packed_le hb).trans
      ((hinv.node a ha).current b hb (Ne.symm hne))⟩
  · rcases hturns with hsame | ⟨hall, hnext⟩
    · left
      rw [hinv.number_zero.upper_eq, h.number_zero.upper_eq, hsame]
    · exact .inr ⟨w.cycle, hall, h.number_zero.upper_eq, hnext⟩

end Inv

theorem inv_start (α : Type) (others : ℕ) : Inv (Ring.start α others) where
  pos := Nat.succ_pos others
  node i _ := by
    refine ⟨fun b _ => ?_, fun b _ _ => Nat.le_refl 1, nofun, nofun⟩
    change IsNo (if b = i then (Accessor.start α i).cycle i else 0)
      ((Accessor.start α i).currentPacketNo b)
    by_cases hzero : i = 0
    · subst hzero
      change IsNo _ (update (fun _ => 0) 0 0x1000 b)
      split
      · rename_i hb
        rw [hb, update_self]
        exact isNo_one
      · rename_i hb
        rw [update_of_ne hb]
        exact isNo_zero
    · rw [Accessor.cycle_of_ne hzero, Accessor.start, if_neg hzero]
      split <;> exact isNo_zero
  other i _ hzero := ⟨rfl, rfl⟩
  active hne := absurd rfl hne
  handed _ _ _ _ _ := List.prefix_rfl
  data _ _ _ _ _ := Nat.zero_le _
  confirms _ _ _ := Nat.zero_le _
  round := trivial

/-- Exactly-once delivery in the ring. -/
theorem exchanges_of_run (others : ℕ) (as : List (Step α)) :
    Throughout step Exchanges (Ring.start α others) as :=
  throughout_of_steps (fun _ a h => h.delivers a) (inv_start α others) as

/-! ### A full turn -/

/-- Between two cycles of a ring of two nodes, with number `x` for the next one. -/
structure Between (x : ℕ) (w : Ring α) : Prop where
  noOfSenders : w.noOfSenders = 2
  masterState : (w.nodes 0).masterState = .idle
  bytesToSend : (w.nodes 0).bytesToSend = none
  number : (w.nodes 0).currentPacketNo 0 = x
  commState : (w.nodes 1).commState = .syncOnZero
  ioCyclePhase : (w.nodes 1).ioCyclePhase = 0
  queue : w.data 0 1 = []
  answers : w.data 1 0 = []

/-- Nothing is lost in a cycle of a ring of two nodes. -/
def cleanCycle (payload : α) : List (Step α) :=
  [.run 0 ⟨true, 0, payload⟩, .run 1 ⟨true, 0, payload⟩, .run 1 ⟨true, 0, payload⟩,
    .run 0 ⟨true, 0, payload⟩]

theorem spinToLast_nil (purge : Bool) (d : Datagram α) :
    Ring.spinToLast purge 0 d [] = (d, []) := by
  unfold Ring.spinToLast
  split <;> rfl

/-- The fields of a node that reading data leaves as they are. -/
theorem getDuecaData_kept (p : ℕ) (d : Datagram α) (a : Accessor α) :
    (a.getDuecaData p d).iMissedData = a.iMissedData ∧ (a.getDuecaData p d).allOk = a.allOk ∧
      (a.getDuecaData p d).sent = a.sent ∧
      ∀ q ≠ p, (a.getDuecaData p d).currentPacketNo q = a.currentPacketNo q := by
  have heq : a.getDuecaData p d = { a with
      handed := update a.handed p (a.handed p ++ [d.payload])
      currentPacketNo := update a.currentPacketNo p d.packetNo } ∨ a.getDuecaData p d = a := by
    rw [Accessor.getDuecaData]
    exact ite_eq_or_eq _ _ _
  rcases heq with heq | heq
  · rw [heq]
    exact ⟨rfl, rfl, rfl, fun q hq => update_of_ne hq _ _⟩
  · rw [heq]
    exact ⟨rfl, rfl, rfl, fun _ _ => rfl⟩

theorem endCycle_ok (a : Accessor α) (hok : a.allOk = true) :
    a.endCycle.masterState = .idle ∧ a.endCycle.bytesToSend = none ∧
      a.endCycle.currentPacketNo 0 = nextCycle (a.currentPacketNo 0) ∧
      a.endCycle.sent = a.sent := by
  rw [Accessor.endCycle, if_pos hok]
  refine ⟨rfl, rfl, ?_, rfl⟩
  simp only [update_self]

theorem exec_cleanCycle {x : ℕ} (h : Between x w) (payload : α) :
    ∃ w', exec step w (cleanCycle payload) = .ok w' ∧ Between (nextCycle x) w' ∧
      ∃ m, (w'.nodes 0).sent = (w.nodes 0).sent ++ [(m, ⟨payload, (w.nodes 0).iMissedData, x⟩)] := by
  obtain ⟨hn, hidle, hstore, hno, hcomm, hphase, hqueue, hanswers⟩ := h
  -- node 0 sends
  obtain ⟨w₁, hstep₁, hn₁, hstate₁, hphase₁, hok₁, hno₁, hsent₁, hnode₁, d, hd, hqueue₁, hanswers₁⟩ :
      ∃ w₁, step w (.run 0 ⟨true, 0, payload⟩) = .ok w₁ ∧ w₁.noOfSenders = 2 ∧
        (w₁.nodes 0).masterState = .receiving ∧ (w₁.nodes 0).ioCyclePhase = 1 ∧
        (w₁.nodes 0).allOk = true ∧ (w₁.nodes 0).currentPacketNo 0 = x ∧
        (∃ m, (w₁.nodes 0).sent =
          (w.nodes 0).sent ++ [(m, ⟨payload, (w.nodes 0).iMissedData, x⟩)]) ∧
        w₁.nodes 1 = w.nodes 1 ∧ ∃ d : Datagram α, d.packetNo = x ∧ w₁.data 0 1 = [d] ∧
        w₁.data 1 0 = [] := by
    refine ⟨w.despatch0 ⟨true, 0, payload⟩, rfl, ?_⟩
    simp [Ring.despatch0, hidle, Accessor.sendMyData, hstore, Accessor.receiveFrom, hn,
      Ring.setNode, Ring.sendData, hno, hqueue, hanswers]
  -- node 1 reads that
  obtain ⟨w₂, hstep₂, hn₂, hnode₂, hcomm₂, hphase₂, hmissed₂, hno₂, hqueue₂, hanswers₂⟩ :
      ∃ w₂, step w₁ (.run 1 ⟨true, 0, payload⟩) = .ok w₂ ∧ w₂.noOfSenders = 2 ∧
        w₂.nodes 0 = w₁.nodes 0 ∧ (w₂.nodes 1).commState = .dataSend ∧
        (w₂.nodes 1).ioCyclePhase = 1 ∧ (w₂.nodes 1).iMissedData = false ∧
        (w₂.nodes 1).currentPacketNo 1 = x ∧ w₂.data 0 1 = [] ∧ w₂.data 1 0 = [] := by
    obtain ⟨f, hf, hkept⟩ : ∃ f : Accessor α → Accessor α, (∀ a, a.getDuecaData 0 d = f a) ∧
        ∀ a, (f a).iMissedData = a.iMissedData :=
      ⟨_, fun _ => rfl, fun a => (getDuecaData_kept 0 d a).1⟩
    simp [step, hn₁, Ring.despatch1toN, hnode₁, hcomm, hphase, hqueue₁, spinToLast_nil, hf, hkept,
      hd, Ring.setNode, Ring.leaveData, hanswers₁, pure, Except.pure]
  -- and sends its own data
  obtain ⟨w₃, hstep₃, hn₃, hnode₃, hcomm₃, hphase₃, hqueue₃, e, he, hmissed₃, hanswers₃⟩ :
      ∃ w₃, step w₂ (.run 1 ⟨true, 0, payload⟩) = .ok w₃ ∧ w₃.noOfSenders = 2 ∧
        w₃.nodes 0 = w₂.nodes 0 ∧ (w₃.nodes 1).commState = .syncOnZero ∧
        (w₃.nodes 1).ioCyclePhase = 0 ∧ w₃.data 0 1 = [] ∧
        ∃ e : Datagram α, e.packetNo = x ∧ e.missedData = false ∧ w₃.data 1 0 = [e] := by
    simp [step, hn₂, Ring.despatch1toN, hcomm₂, hphase₂, Ring.setNode, Ring.sendData,
      Accessor.sendMyData, hqueue₂, hanswers₂, hno₂, hmissed₂, pure, Except.pure]
  -- node 0 reads it, and ends the cycle
  obtain ⟨f, hf, hkept⟩ : ∃ f : Accessor α → Accessor α, (∀ a, a.getDuecaData 1 e = f a) ∧
      ∀ a, (f a).allOk = a.allOk ∧ (f a).sent = a.sent ∧ (f a).ioCyclePhase = a.ioCyclePhase ∧
        (f a).currentPacketNo 0 = a.currentPacketNo 0 :=
    ⟨_, fun _ => rfl, fun a => ⟨(getDuecaData_kept 1 e a).2.1, (getDuecaData_kept 1 e a).2.2.1,
      getDuecaData_ioCyclePhase 1 e a, (getDuecaData_kept 1 e a).2.2.2 0 (by decide)⟩⟩
  obtain ⟨m, hm⟩ := hsent₁
  have hnode : w₃.nodes 0 = w₁.nodes 0 := hnode₃.trans hnode₂
  have hkept₁ : (w₃.despatch0 ⟨true, 0, payload⟩).noOfSenders = 2 :=
    (despatch0_noOfSenders w₃ _).trans hn₃
  have hnodes : (w₃.despatch0 ⟨true, 0, payload⟩).nodes 1 = w₃.nodes 1 := by
    simp [Ring.despatch0, hnode, hstate₁, hphase₁, hno₁, hanswers₃, he, Ring.setNode,
      Ring.leaveData]
  have hdata : (w₃.despatch0 ⟨true, 0, payload⟩).data 0 1 = w₃.data 0 1 ∧
      (w₃.despatch0 ⟨true, 0, payload⟩).data 1 0 = [] := by
    simp [Ring.despatch0, hnode, hstate₁, hphase₁, hno₁, hanswers₃, he, Ring.setNode,
      Ring.leaveData]
  have hend : (w₃.despatch0 ⟨true, 0, payload⟩).nodes 0 =
      { f (w₁.nodes 0) with allOk := true }.endCycle := by
    simp [Ring.despatch0, hnode, hstate₁, hphase₁, hok₁, hno₁, hanswers₃, he, hmissed₃, hf, hkept,
      Accessor.receiveFrom, Ring.leaveData, hn₃, Accessor.confirmFrom, Ring.setNode]
  obtain ⟨hidle', hstore', hno', hsent'⟩ := endCycle_ok { f (w₁.nodes 0) with allOk := true } rfl
  rw [← hend] at hidle' hstore' hno' hsent'
  refine ⟨w₃.despatch0 ⟨true, 0, payload⟩, ?_, ?_, m, hsent'.trans ((hkept _).2.1.trans hm)⟩
  · rw [cleanCycle, exec_cons_ok hstep₁, exec_cons_ok hstep₂, exec_cons_ok hstep₃]
    rfl
  · refine ⟨hkept₁, hidle', hstore', ?_, hnodes ▸ hcomm₃, hnodes ▸ hphase₃,
      hdata.1.trans hqueue₃, hdata.2⟩
    rw [hno', (hkept _).2.2.2, hno₁]

theorem exec_cleanCycle_sent {x : ℕ} (h : Between x w) (payload : α) :
    ∃ w', exec step w (cleanCycle payload) = .ok w' ∧ Between (nextCycle x) w' ∧
      ∃ y, y.2.packetNo = x ∧ y.2.payload = payload ∧
        (w'.nodes 0).sent = (w.nodes 0).sent ++ [y] := by
  obtain ⟨w', hexec, hbetween, m, hsent⟩ := exec_cleanCycle h payload
  exact ⟨w', hexec, hbetween, _, rfl, rfl, hsent⟩

/-- After `k` such cycles the count is `k` further. -/
theorem exec_cleanCycles (payload : α) (k : ℕ) {c : ℕ}
    (h : Between (c * 0x1000 % 0x100000000) w) :
    ∃ w', exec step w (List.replicate k (cleanCycle payload)).flatten = .ok w' ∧
      Between ((c + k) * 0x1000 % 0x100000000) w' ∧ (w.nodes 0).sent <+: (w'.nodes 0).sent := by
  induction k generalizing c w with
  | zero => exact ⟨w, rfl, h, List.prefix_rfl⟩
  | succ k ih =>
    obtain ⟨w₁, hexec₁, hbetween₁, y, -, -, hsent₁⟩ := exec_cleanCycle_sent h payload
    have hnext : nextCycle (c * 0x1000 % 0x100000000) = (c + 1) * 0x1000 % 0x100000000 := by
      unfold nextCycle upper
      omega
    rw [hnext] at hbetween₁
    obtain ⟨w₂, hexec₂, hbetween₂, hsent₂⟩ := ih hbetween₁
    refine ⟨w₂, ?_, ?_, ?_⟩
    · rw [List.replicate_succ, List.flatten_cons]
      exact exec_append.mpr ⟨w₁, hexec₁, hexec₂⟩
    · rw [Nat.add_right_comm] at hbetween₂
      exact hbetween₂
    · rw [hsent₁] at hsent₂
      exact (List.prefix_append _ _).trans hsent₂

/-- A full turn of the count, and one cycle more. -/
def fullTurn : List (Step Bool) :=
  cleanCycle false ++ ((List.replicate 0xfffff (cleanCycle false)).flatten ++ cleanCycle true)

theorem between_start (α : Type) : Between 0x1000 (Ring.start α 1) :=
  ⟨rfl, rfl, rfl, rfl, rfl, rfl, rfl, rfl⟩

/-- After a turn the count is where it was, and the next payload has the number of the first. -/
theorem exec_fullTurn : ∃ w, exec step (Ring.start Bool 1) fullTurn = .ok w ∧
    ∃ x ∈ (w.nodes 0).sent, ∃ y ∈ (w.nodes 0).sent,
      upper x.2.packetNo = upper y.2.packetNo ∧ x.2.payload ≠ y.2.payload := by
  obtain ⟨w₁, hexec₁, hbetween₁, x, hno₁, hpay₁, hsent₁⟩ :=
    exec_cleanCycle_sent (between_start Bool) false
  obtain ⟨w₂, hexec₂, hbetween₂, hsent₂⟩ := exec_cleanCycles (c := 2) false 0xfffff hbetween₁
  obtain ⟨w₃, hexec₃, -, y, hno₃, hpay₃, hsent₃⟩ := exec_cleanCycle_sent hbetween₂ true
  refine ⟨w₃, exec_append.mpr ⟨w₁, hexec₁, exec_append.mpr ⟨w₂, hexec₂, hexec₃⟩⟩, x, ?_, y, ?_, ?_,
    ?_⟩
  · rw [hsent₃]
    refine List.mem_append_left _ (hsent₂.subset ?_)
    rw [hsent₁]
    exact List.mem_append_right _ (List.mem_singleton_self x)
  · rw [hsent₃]
    exact List.mem_append_right _ (List.mem_singleton_self y)
  · rw [hno₁, hno₃]
  · rw [hpay₁, hpay₃]
    decide

end Dueca.IpRing
