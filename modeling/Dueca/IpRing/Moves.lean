import Dueca.IpRing.Cycle

/-!
# Every move keeps the cycles

Each move of a node is taken apart: a datagram is read, its payload is handed over or skipped, and
the node goes on. Each part keeps what holds of all nodes.
-/

namespace Dueca.IpRing

open Function Dueca.Lib

variable {α : Type} {w : Ring α} {a a' : Accessor α} {d : Datagram α} {e : Confirm}
variable {n k i p c s t : ℕ}

theorem Ring.setNode_setNode (w : Ring α) (i : ℕ) (a a' : Accessor α) :
    (w.setNode i a).setNode i a' = w.setNode i a' := by
  simp only [Ring.setNode, update_idem]

theorem Ring.setNode_self (w : Ring α) (i : ℕ) (a : Accessor α) :
    (w.setNode i a).nodes i = a := by
  simp only [Ring.setNode, update_self]

theorem Ring.setNode_of_ne (hne : t ≠ i) : (w.setNode i a).nodes t = w.nodes t := by
  simp only [Ring.setNode, update_of_ne hne]

/-- One more element of a list that is known from its beginning. -/
theorem concat_prefix {l m : List α} {x : α} (h : l <+: m) (hx : m[l.length]? = some x) :
    l ++ [x] <+: m := by
  obtain ⟨more, rfl⟩ := h
  rw [List.getElem?_append_right (Nat.le_refl _), Nat.sub_self] at hx
  cases more with
  | nil => cases hx
  | cons y more =>
    cases hx
    exact ⟨more, List.append_assoc l [x] more⟩

/-- What is handed over of a datagram was packed. -/
theorem DataOf.handed_packed {b : Accessor α} {l : List α} (hd : DataOf s b c d)
    (hold : a.handed s <+: b.packed)
    (hl : l = a.handed s ∨ a.got s + 1 = c ∧ l = a.handed s ++ [d.payload]) : l <+: b.packed := by
  rcases hl with rfl | ⟨hnext, rfl⟩
  · exact hold
  · refine concat_prefix hold ?_
    have hpayload := hd.payload
    rw [← hnext, Nat.add_sub_cancel] at hpayload
    exact hpayload

theorem getDuecaData_ioCyclePhase (p : ℕ) (d : Datagram α) (a : Accessor α) :
    (a.getDuecaData p d).ioCyclePhase = a.ioCyclePhase := by
  unfold Accessor.getDuecaData
  split <;> rfl

theorem handed_grows {l : List α}
    (hl : l = a.handed s ∨ a.got s + 1 = c ∧ l = a.handed s ++ [d.payload]) (q : ℕ) :
    a.handed q <+: update a.handed s l q := by
  by_cases hq : q = s
  · subst hq
    rw [update_self]
    rcases hl with rfl | ⟨-, rfl⟩
    · exact List.prefix_rfl
    · exact List.prefix_append _ _
  · exact (update_of_ne hq l a.handed).symm ▸ List.prefix_rfl

/-- All nodes packed the data of this many cycles, and all have that of all others. -/
def Ring.Accepted (w : Ring α) (k : ℕ) : Prop :=
  ∀ b < w.noOfSenders, (w.nodes b).packed.length = k ∧
    ∀ a < w.noOfSenders, a ≠ b → (w.nodes a).handed b = (w.nodes b).packed

/-- Node 0 stays in its cycle, or goes to the next one when all have the data of all. -/
def Ring.Turns (w w' : Ring α) : Prop :=
  w'.cycle = w.cycle ∨ w'.Accepted w.cycle ∧
    (w'.nodes 0).currentPacketNo 0 = nextCycle ((w.nodes 0).currentPacketNo 0)

theorem Ring.Turns.of_same {w₁ w₂ : Ring α} (h : w₁.Turns w₂) (hcycle : w₁.cycle = w.cycle)
    (hno : (w₁.nodes 0).currentPacketNo 0 = (w.nodes 0).currentPacketNo 0) : w.Turns w₂ := by
  unfold Ring.Turns at h ⊢
  rwa [hcycle, hno] at h

theorem Ring.cycle_setNode (w : Ring α) (hcycle : a'.cycle 0 = w.cycle) :
    (w.setNode 0 a').cycle = w.cycle := by
  rw [Ring.cycle, Ring.setNode_self, hcycle]

/-- Node 0 does not go to another cycle by sending. -/
theorem sendMyData_cycle (order : ℕ) (fresh : α) (a : Accessor α) :
    (a.sendMyData order fresh).1.cycle 0 = a.cycle 0 := by
  cases hstore : a.bytesToSend with
  | none => simp [Accessor.cycle, Accessor.sendMyData, hstore]
  | some p => simp [Accessor.cycle, Accessor.sendMyData, hstore]

theorem Ring.confirmFloor_setNode (hcycle : a'.cycle 0 = w.cycle) (q : ℕ) :
    (w.setNode 0 a').confirmFloor q =
      if a'.masterState = .confirming ∧ a'.ioCyclePhase < q then w.cycle else w.cycle - 1 := by
  have hself : (w.setNode 0 a').nodes 0 = a' := w.setNode_self 0 a'
  have hcycle' : (w.setNode 0 a').cycle = w.cycle := by
    rw [Ring.cycle, hself, hcycle]
  rw [Ring.confirmFloor, hself, hcycle']

theorem Ring.roundOk_idle (h : (w.nodes 0).masterState = .idle) : w.RoundOk := by
  rw [Ring.RoundOk, h]
  trivial

namespace Inv

/-- A node reads the data of another node than node 0. -/
theorem accept (h : Inv w) (hi : i < w.noOfSenders) (hs : s < w.noOfSenders) (hne : s ≠ i)
    (hzero : s ≠ 0) {rest : List (Datagram α)} (hd : DataOf s (w.nodes s) c d)
    (hle : (w.nodes i).got s ≤ c)
    (hrest : Ascends (DataOf s (w.nodes s)) ((w.nodes s).cycle s) c rest) :
    Inv ((w.leaveData s i rest).setNode i ((w.nodes i).getDuecaData s d)) ∧
      ((w.nodes i).getDuecaData s d).got s = c ∧ Grows (w.nodes i) ((w.nodes i).getDuecaData s d) ∧
      ∃ l x, (w.nodes i).getDuecaData s d = { w.nodes i with
        handed := update (w.nodes i).handed s l
        currentPacketNo := update (w.nodes i).currentPacketNo s x } := by
  have hnode := h.node i hi
  have hnear : c ≤ (w.nodes i).got s + 1 :=
    hrest.le.trans ((h.cycle_le hs).trans (hnode.current s hs hne))
  have hnumber := hnode.number s hs
  rw [if_neg hne] at hnumber
  obtain ⟨l, x, heq, hlength, hx, hl⟩ := getDuecaData_spec hnumber hd.number hle hnear
  rw [heq]
  have hgrows := handed_grows hl
  generalize ha' : ({ w.nodes i with
    handed := update (w.nodes i).handed s l
    currentPacketNo := update (w.nodes i).currentPacketNo s x } : Accessor α) = a'
  have hgot : a'.got s = c := by
    subst ha'
    simp only [Accessor.got, update_self, hlength]
  have hother {q : ℕ} (hq : q ≠ s) : a'.got q = (w.nodes i).got q := by
    subst ha'
    simp only [Accessor.got, update_of_ne hq]
  have hg : Grows (w.nodes i) a' := by
    subst ha'
    exact ⟨List.prefix_rfl, hgrows⟩
  have hpacked : a'.packed = (w.nodes i).packed := ha' ▸ rfl
  have hstore : a'.bytesToSend = (w.nodes i).bytesToSend := ha' ▸ rfl
  have hcycle : a'.cycle i = (w.nodes i).cycle i := by
    simp only [Accessor.cycle, hother (Ne.symm hzero), hpacked, hstore]
  refine ⟨?_, hgot, hg, l, x, ha'.symm⟩
  refine h.update_calm hi ?_ ⟨?_, ?_, ?_, ?_⟩ ?_ hg ?_ ?_ ?_ ?_ ?_ fun _ _ => rfl
  · rintro rfl
    exact ⟨hcycle, ha' ▸ rfl, ha' ▸ rfl, fun hsome => hstore ▸ hsome⟩
  · intro b hb
    by_cases hbs : b = s
    · subst hbs
      rw [if_neg hne, hgot, ← ha']
      simpa only [update_self] using hx
    · rw [hcycle, hother hbs, ← ha']
      simpa only [update_of_ne hbs] using hnode.number b hb
  · exact fun b hb hbi => (hnode.current b hb hbi).trans (Nat.succ_le_succ (hg.got_le b))
  · rw [hstore, hpacked]
    exact hnode.last
  · rw [hpacked]
    exact ha' ▸ hnode.sent
  · intro hi0
    have hold := h.other i hi hi0
    refine ⟨?_, ?_⟩
    · rw [hother (Ne.symm hzero), hpacked, hstore]
      exact hold.packed
    · have hstate := hold.state
      have hle (q : ℕ) (hq : (w.nodes i).got 0 ≤ (w.nodes i).got q) :
          (w.nodes i).got 0 ≤ a'.got q := hq.trans (hg.got_le q)
      have hcomm : a'.commState = (w.nodes i).commState := ha' ▸ rfl
      have hphase : a'.ioCyclePhase = (w.nodes i).ioCyclePhase := ha' ▸ rfl
      unfold StateOk at hstate ⊢
      rw [hcomm, hphase, hother (Ne.symm hzero)]
      split at hstate
      · exact hstate
      · exact ⟨hstate.1, fun q hq hqi => hle q (hstate.2 q hq hqi)⟩
      · exact ⟨hstate.1, fun q hq => hle q (hstate.2 q hq)⟩
      · exact ⟨hstate.1, fun q hq hqi => hle q (hstate.2 q hq hqi)⟩
      · exact ⟨hstate.1, fun q hq hqi => hle q (hstate.2 q hq hqi)⟩
  · intro b hb hbi
    have hold := h.handed i hi b hb (Ne.symm hbi)
    by_cases hbs : b = s
    · subst hbs
      rw [← ha']
      simpa only [update_self] using hd.handed_packed hold hl
    · rw [← ha']
      simpa only [update_of_ne hbs] using hold
  · intro t ht hti
    rw [hcycle]
    change Ascends _ _ _ (update w.data s (update (w.data s) i rest) i t)
    rw [update_of_ne (Ne.symm hne)]
    exact (h.data i hi t ht (Ne.symm hti)).mono (fun _ _ hx => hx.mono hg) le_rfl
  · intro s' hs' hsi
    change Ascends _ _ _ (update w.data s (update (w.data s) i rest) s' i)
    by_cases hss : s' = s
    · subst hss
      rw [update_self, update_self, hgot]
      exact hrest
    · rw [update_of_ne hss, hother hss]
      exact h.data s' hs' i hi hsi
  · intro s' t _ hti
    change update w.data s (update (w.data s) i rest) s' t = w.data s' t
    by_cases hss : s' = s
    · subst hss
      rw [update_self, update_of_ne hti]
    · rw [update_of_ne hss]
  · intro hi0 hlt
    rw [hcycle]
    exact (h.confirms i (Nat.pos_of_ne_zero hi0) hlt).mono (fun _ _ hx => hx.mono hg) le_rfl

/-- A node sends the payload of its cycle. -/
theorem sendMyData (h : Inv w) (hi : i < w.noOfSenders) (fresh : α)
    (hsame : SameData ((w.nodes i).sendMyData i fresh).1 a')
    (hlength : (w.nodes i).packed.length + (if (w.nodes i).bytesToSend.isSome then 0 else 1) =
      (w.nodes i).cycle i)
    (hbefore : ∀ q < i, (w.nodes i).cycle i ≤ (w.nodes i).got q)
    (hmaster : i = 0 → a'.masterState = (w.nodes 0).masterState ∧
      a'.ioCyclePhase = (w.nodes 0).ioCyclePhase)
    (hstate : i ≠ 0 → StateOk w.noOfSenders i a') :
    Inv ((w.setNode i a').sendData i ((w.nodes i).sendMyData i fresh).2) := by
  have hnode := h.node i hi
  obtain ⟨packed, payload, heq, hgrow, hlast, hpacked⟩ := sendMyData_packed i fresh hnode.last
  rw [heq] at hsame ⊢
  rw [hlength] at hpacked
  obtain ⟨hpos, hpayload⟩ := getElem?_of_getLast? hlast
  have hg : Grows (w.nodes i) a' := ⟨hsame.packed ▸ hgrow, fun q => hsame.handed ▸ List.prefix_rfl⟩
  have hgot (q : ℕ) : a'.got q = (w.nodes i).got q := by
    rw [Accessor.got, hsame.handed, Accessor.got]
  have hcycle : a'.cycle i = (w.nodes i).cycle i := by
    by_cases hzero : i = 0
    · subst hzero
      rw [Accessor.cycle, if_pos rfl, hsame.packed, hsame.bytesToSend]
      exact hpacked
    · rw [Accessor.cycle_of_ne hzero, hgot, Accessor.cycle_of_ne hzero]
  have hnumber : IsNo packed.length ((w.nodes i).currentPacketNo i) := by
    have hself := hnode.number i hi
    rw [if_pos rfl] at hself
    exact hpacked ▸ hself
  have hd : DataOf i a' (a'.cycle i)
      ⟨payload, (w.nodes i).iMissedData, (w.nodes i).currentPacketNo i⟩ := by
    rw [hcycle, ← hpacked]
    refine ⟨hnumber, hpos, ?_, fun q hq => ?_⟩
    · rw [hsame.packed]
      exact hpayload
    · rw [hgot, hpacked]
      exact hbefore q hq
  refine h.update_calm hi ?_ ⟨?_, ?_, ?_, ?_⟩ (fun hzero => ⟨?_, hstate hzero⟩) hg ?_ ?_ ?_ ?_ ?_
    fun _ _ => rfl
  · rintro rfl
    exact ⟨hcycle, (hmaster rfl).1, (hmaster rfl).2, fun _ => by rw [hsame.bytesToSend]; rfl⟩
  · intro b hb
    rw [hcycle, hgot, hsame.currentPacketNo]
    exact hnode.number b hb
  · intro b hb hne
    rw [hgot]
    exact hnode.current b hb hne
  · intro p hp
    rw [hsame.bytesToSend] at hp
    cases hp
    rw [hsame.packed]
    exact hlast
  · intro x hx
    rw [hsame.sent, List.mem_append, List.mem_singleton] at hx
    rw [hsame.packed]
    rcases hx with hx | rfl
    · obtain ⟨hno, hone, hsent⟩ := hnode.sent x hx
      refine ⟨hno, hone, ?_⟩
      obtain ⟨more, hmore⟩ := hgrow
      rw [← hmore, List.getElem?_append_left (List.getElem?_eq_some_iff.mp hsent).1, hsent]
    · exact ⟨hnumber, hpos, hpayload⟩
  · rw [hsame.packed, hsame.bytesToSend, hgot, hpacked, Accessor.cycle_of_ne hzero]
    rfl
  · intro b hb hne
    rw [hsame.handed]
    exact h.handed i hi b hb (Ne.symm hne)
  · intro t ht hti
    change Ascends _ _ _ (update w.data i (fun t => w.data i t ++ [_]) i t)
    rw [update_self]
    exact ((h.data i hi t ht (Ne.symm hti)).mono (fun _ _ hx => hx.mono hg) le_rfl).concat
      hcycle.ge hd
  · intro s hs hsi
    change Ascends _ _ _ (update w.data i (fun t => w.data i t ++ [_]) s i)
    rw [update_of_ne hsi, hgot]
    exact h.data s hs i hi hsi
  · intro s t hsi _
    change update w.data i (fun t => w.data i t ++ [_]) s t = w.data s t
    rw [update_of_ne hsi]
  · intro hzero hlt
    rw [hcycle]
    exact (h.confirms i (Nat.pos_of_ne_zero hzero) hlt).mono (fun _ _ hx => hx.mono hg) le_rfl

/-! ### Node 0 goes on -/

/-- Confirmations on their way to node 0 are of its cycle or the one before. -/
theorem confirms_from (h : Inv w) (hpos : 0 < s) (hs : s + 1 < w.noOfSenders) :
    Ascends (ConfirmOf w.noOfSenders s (w.nodes s)) ((w.nodes s).cycle s) (w.cycle - 1)
      (w.confirms s 0) := by
  refine (h.confirms s hpos hs).from_le ?_
  unfold Ring.confirmFloor
  split <;> omega

/-- Node 0 repeats its cycle. -/
theorem setForCleaningRound (h : Inv w) (hsame : SameData (w.nodes 0) a) :
    Inv (w.setNode 0 a.setForCleaningRound) := by
  have hnode := h.node 0 h.pos
  have hstore : SameStore (w.nodes 0) a.setForCleaningRound :=
    ⟨hsame.bytesToSend, hsame.packed, hsame.handed, hsame.sent⟩
  refine h.control_master hstore (hstore.nodeInv hnode fun b hb => ?_) (absurd rfl ·) ?_ ?_
  · have hno := hnode.number b hb
    change IsNo _ (update a.currentPacketNo 0 (nextRepeat (a.currentPacketNo 0)) b)
    rw [hsame.currentPacketNo]
    by_cases hzero : b = 0
    · subst hzero
      rw [if_pos rfl] at hno ⊢
      rw [update_self]
      exact hno.nextRepeat
    · rw [update_of_ne hzero]
      exact hno
  · intro s hpos hs
    rw [Ring.confirmFloor_setNode (hstore.cycle 0), if_neg (fun hstate => nomatch hstate.1)]
    exact h.confirms_from hpos hs
  · exact Ring.roundOk_idle (congrArg Accessor.masterState (w.setNode_self 0 _))

/-- Node 0 ends its cycle, when all nodes have the data of all others. -/
theorem endCycle (h : Inv w) (hsame : SameData (w.nodes 0) a)
    (hstore : (w.nodes 0).bytesToSend.isSome)
    (hall : ∀ x < w.noOfSenders, ∀ b < w.noOfSenders, x ≠ b → w.cycle ≤ (w.nodes x).got b)
    (hconfirms : ∀ s, 0 < s → s + 1 < w.noOfSenders →
      Ascends (ConfirmOf w.noOfSenders s (w.nodes s)) ((w.nodes s).cycle s) w.cycle
        (w.confirms s 0)) :
    Inv (w.setNode 0 a.endCycle) ∧ w.Turns (w.setNode 0 a.endCycle) := by
  unfold Accessor.endCycle
  split
  case isFalse =>
    refine ⟨h.setForCleaningRound hsame, .inl ?_⟩
    simp only [Ring.cycle, Ring.setNode_self, Accessor.cycle, Accessor.setForCleaningRound,
      hsame.packed, hsame.bytesToSend, if_true]
  case isTrue =>
    have hnode := h.node 0 h.pos
    have hpacked : (w.nodes 0).packed.length = w.cycle := by
      rw [Ring.cycle, Accessor.cycle, if_pos rfl, if_pos hstore, Nat.add_zero]
    generalize ha' : ({ a with
      currentPacketNo := update a.currentPacketNo 0 (nextCycle (a.currentPacketNo 0))
      iMissedData := false
      bytesToSend := none
      masterState := .idle } : Accessor α) = a'
    have hg : Grows (w.nodes 0) a' := by
      subst ha'
      exact ⟨hsame.packed ▸ List.prefix_rfl, fun q => hsame.handed ▸ List.prefix_rfl⟩
    have hgot (q : ℕ) : a'.got q = (w.nodes 0).got q := by
      subst ha'
      simp only [Accessor.got, hsame.handed]
    have hkept : a'.packed = (w.nodes 0).packed := ha' ▸ hsame.packed
    have hidle : a'.masterState = .idle := ha' ▸ rfl
    have hcycle : a'.cycle 0 = w.cycle + 1 := by
      have hnone : a'.bytesToSend = none := ha' ▸ rfl
      rw [Accessor.cycle, if_pos rfl, hkept, hnone, hpacked]
      rfl
    have hself : (w.setNode 0 a').nodes 0 = a' := w.setNode_self 0 a'
    refine ⟨?_, .inr ⟨fun b hb => ?_, ?_⟩⟩
    · refine h.update_node h.pos (k := w.cycle + 1) ?_ ⟨fun b hb => ?_, fun b hb hne => ?_, ?_, ?_⟩
        (fun j hj hne => ?_) (absurd rfl ·) (fun hne => absurd ?_ hne) hg ?_ ?_ ?_
        (fun _ _ _ _ => rfl) ?_ (Ring.roundOk_idle (hself ▸ hidle))
      · rw [update_self]
        exact hcycle
      · have hno := hnode.number b hb
        rw [hcycle, hgot, ← ha']
        change IsNo _ (update a.currentPacketNo 0 (nextCycle (a.currentPacketNo 0)) b)
        rw [hsame.currentPacketNo]
        by_cases hzero : b = 0
        · subst hzero
          rw [if_pos rfl] at hno ⊢
          rw [update_self]
          exact hno.nextCycle
        · rw [if_neg hzero] at hno ⊢
          rw [update_of_ne hzero]
          exact hno
      · rw [hgot]
        exact Nat.succ_le_succ (hall 0 h.pos b hb (Ne.symm hne))
      · rw [← ha']
        exact fun _ hnone => by cases hnone
      · rw [hkept, ← ha']
        exact hsame.sent ▸ hnode.sent
      · have hj' := h.node j hj
        exact ⟨hj'.number, fun b hb hbj => Nat.succ_le_succ (hall j hj b hb (Ne.symm hbj)),
          hj'.last, hj'.sent⟩
      · rw [update_self]
        exact hidle
      · intro b hb hne
        rw [← ha']
        exact hsame.handed ▸ h.handed 0 h.pos b hb (Ne.symm hne)
      · intro t ht hne
        refine (h.data 0 h.pos t ht (Ne.symm hne)).mono (fun _ _ hd => hd.mono hg) ?_
        rw [hcycle]
        exact Nat.le_succ _
      · intro s hs hne
        rw [hgot]
        exact h.data s hs 0 h.pos hne
      · intro s hpos hs
        rw [update_of_ne (Nat.ne_of_gt hpos)]
        refine (hconfirms s hpos hs).from_le ?_
        change (w.setNode 0 a').confirmFloor s ≤ _
        rw [Ring.confirmFloor, Ring.cycle, hself, hcycle, hidle, if_neg fun hgo => by cases hgo.1]
        exact Nat.le_refl _
    · have hpackedEq (b : ℕ) : ((w.setNode 0 a').nodes b).packed = (w.nodes b).packed := by
        by_cases hzero : b = 0
        · rw [hzero, hself, hkept]
        · rw [Ring.setNode_of_ne hzero]
      have hhandedEq (x : ℕ) : ((w.setNode 0 a').nodes x).handed = (w.nodes x).handed := by
        by_cases hzero : x = 0
        · rw [hzero, hself, ← ha', ← hsame.handed]
        · rw [Ring.setNode_of_ne hzero]
      rw [hpackedEq]
      have hlength : (w.nodes b).packed.length = w.cycle := by
        by_cases hzero : b = 0
        · rw [hzero, hpacked]
        · exact (h.packed_le hb).antisymm ((hall 0 h.pos b hb (Ne.symm hzero)).trans
            (h.handed 0 h.pos b hb (Ne.symm hzero)).length_le)
      refine ⟨hlength, fun x hx hne => ?_⟩
      rw [hhandedEq]
      have hhanded := h.handed x hx b hb hne
      exact hhanded.eq_of_length (hhanded.length_le.antisymm (hlength ▸ hall x hx b hb hne))
    · rw [hself, ← ha']
      simp only [update_self, hsame.currentPacketNo]

/-- Node 0 goes on to the confirmations, when it has the data of all others. -/
theorem confirmFrom (h : Inv w) (hsame : SameData (w.nodes 0) a)
    (hstore : (w.nodes 0).bytesToSend.isSome) (hp : p = 0 ∨ p + 1 < w.noOfSenders)
    (hgot : ∀ q, 0 < q → q < w.noOfSenders → w.Got q)
    (hall : ∀ q, p < q → q + 1 < w.noOfSenders → w.All q)
    (hconfirms : ∀ q, p < q → q + 1 < w.noOfSenders →
      Ascends (ConfirmOf w.noOfSenders q (w.nodes q)) ((w.nodes q).cycle q) w.cycle
        (w.confirms q 0)) :
    Inv (w.setNode 0 (a.confirmFrom p)) ∧ w.Turns (w.setNode 0 (a.confirmFrom p)) := by
  unfold Accessor.confirmFrom
  split
  case isTrue hzero =>
    subst hzero
    refine h.endCycle hsame hstore (fun x hx b hb hne => ?_) hconfirms
    -- the others sent a confirmation, the last node has data of all that come before it
    rcases Nat.eq_zero_or_pos x with rfl | hpos
    · exact (hgot b (Nat.pos_of_ne_zero (Ne.symm hne)) hb).1
    · rcases Nat.lt_or_ge (x + 1) w.noOfSenders with hlt | hge
      · exact hall x hpos hlt b hb (Ne.symm hne)
      · exact (hgot x hpos hx).2 b (by omega)
  case isFalse hzero =>
    have hpos : 0 < p := Nat.pos_of_ne_zero hzero
    have hlt : p + 1 < w.noOfSenders := hp.resolve_left hzero
    generalize ha' : ({ a with ioCyclePhase := p, masterState := .confirming } : Accessor α) = a'
    have hsame' : SameData (w.nodes 0) a' := ha' ▸ ⟨⟨hsame.bytesToSend, hsame.packed,
      hsame.handed, hsame.sent⟩, hsame.currentPacketNo⟩
    have hstate : a'.masterState = .confirming := ha' ▸ rfl
    have hphase : a'.ioCyclePhase = p := ha' ▸ rfl
    have hself : (w.setNode 0 a').nodes 0 = a' := w.setNode_self 0 a'
    have hgot' (j q : ℕ) : ((w.setNode 0 a').nodes j).got q = (w.nodes j).got q := by
      by_cases hj : j = 0
      · rw [hj, hself, hsame'.got]
      · rw [Ring.setNode_of_ne hj]
    have hcycle : (w.setNode 0 a').cycle = w.cycle := by
      rw [Ring.cycle, hself, hsame'.cycle, Ring.cycle]
    refine ⟨h.control_master hsame'.toSameStore (hsame'.nodeInv (h.node 0 h.pos))
      (fun _ => hstore) (fun s hs hlast => ?_) ?_, .inl hcycle⟩
    · rw [Ring.confirmFloor_setNode (hsame'.cycle 0), hstate, hphase]
      split
      · rename_i hlater
        exact hconfirms s hlater.2 hlast
      · exact h.confirms_from hs hlast
    · simp only [Ring.RoundOk, hself, hstate, hphase, Ring.Got, Ring.All, hcycle, hgot',
        hsame'.got]
      exact ⟨⟨hpos, hlt⟩, hgot, hall⟩

/-- Node 0 goes on to the data of the next node. -/
theorem receiveFrom (h : Inv w) (hsame : SameData (w.nodes 0) a)
    (hstore : (w.nodes 0).bytesToSend.isSome) (hp : 0 < p) (hle : p ≤ w.noOfSenders)
    (hgot : ∀ q, 0 < q → q < p → w.Got q) :
    Inv (w.setNode 0 (a.receiveFrom w.noOfSenders p)) ∧
      w.Turns (w.setNode 0 (a.receiveFrom w.noOfSenders p)) := by
  unfold Accessor.receiveFrom
  split
  case isFalse hlast =>
    obtain rfl : p = w.noOfSenders := by omega
    exact h.confirmFrom hsame hstore (by omega) hgot (by omega) (by omega)
  case isTrue hlt =>
    generalize ha' : ({ a with ioCyclePhase := p, masterState := .receiving } : Accessor α) = a'
    have hsame' : SameData (w.nodes 0) a' := ha' ▸ ⟨⟨hsame.bytesToSend, hsame.packed,
      hsame.handed, hsame.sent⟩, hsame.currentPacketNo⟩
    have hstate : a'.masterState = .receiving := ha' ▸ rfl
    have hphase : a'.ioCyclePhase = p := ha' ▸ rfl
    have hself : (w.setNode 0 a').nodes 0 = a' := w.setNode_self 0 a'
    have hgot' (j q : ℕ) : ((w.setNode 0 a').nodes j).got q = (w.nodes j).got q := by
      by_cases hj : j = 0
      · rw [hj, hself, hsame'.got]
      · rw [Ring.setNode_of_ne hj]
    have hcycle : (w.setNode 0 a').cycle = w.cycle := by
      rw [Ring.cycle, hself, hsame'.cycle, Ring.cycle]
    refine ⟨h.control_master hsame'.toSameStore (hsame'.nodeInv (h.node 0 h.pos))
      (fun _ => hstore) (fun s hs hlast => ?_) ?_, .inl hcycle⟩
    · rw [Ring.confirmFloor_setNode (hsame'.cycle 0), hstate, if_neg fun hgo => by cases hgo.1]
      exact h.confirms_from hs hlast
    · simp only [Ring.RoundOk, hself, hstate, hphase, Ring.Got, hcycle, hgot', hsame'.got]
      exact ⟨⟨hp, hlt⟩, hgot⟩

/-- Node 0 reads the data of its cycle from the next node. -/
theorem receiveData (h : Inv w) (hp : 0 < p) (hlt : p < w.noOfSenders)
    (hstore : (w.nodes 0).bytesToSend.isSome) (hgot : ∀ q, 0 < q → q < p → w.Got q)
    {rest : List (Datagram α)} (hd : DataOf p (w.nodes p) c d) (hle : (w.nodes 0).got p ≤ c)
    (hrest : Ascends (DataOf p (w.nodes p)) ((w.nodes p).cycle p) c rest)
    (hno : (w.nodes 0).currentPacketNo 0 = d.packetNo) (ok : Bool) :
    Inv ((w.leaveData p 0 rest).setNode 0
      ({ (w.nodes 0).getDuecaData p d with allOk := ok }.receiveFrom w.noOfSenders (p + 1))) ∧
    w.Turns ((w.leaveData p 0 rest).setNode 0
      ({ (w.nodes 0).getDuecaData p d with allOk := ok }.receiveFrom w.noOfSenders (p + 1))) := by
  have hnumber := (h.node 0 h.pos).number 0 h.pos
  rw [if_pos rfl] at hnumber
  have hnear := (h.node 0 h.pos).current p hlt (Nat.ne_of_gt hp)
  have hbound := hrest.le.trans (h.cycle_le hlt)
  have hnumber' : IsNo w.cycle d.packetNo := by
    rw [← hno]
    exact hnumber
  -- a number of a neighbouring cycle is told apart
  have hc : c = w.cycle := hd.number.eq_of_near hnumber' (Nat.le_succ_of_le hbound)
    (hnear.trans (Nat.succ_le_succ hle))
  obtain ⟨hinv, hgotp, hgrows, l, x, heq⟩ := h.accept h.pos hlt (Nat.ne_of_gt hp)
    (Nat.ne_of_gt hp) hd hle hrest
  generalize (w.nodes 0).getDuecaData p d = a' at hinv hgotp hgrows heq ⊢
  generalize hw' : (w.leaveData p 0 rest).setNode 0 a' = w' at hinv
  have hself : w'.nodes 0 = a' := hw' ▸ Ring.setNode_self _ 0 a'
  have hother {q : ℕ} (hq : q ≠ 0) : w'.nodes q = w.nodes q := hw' ▸ Ring.setNode_of_ne hq
  have hcycle : w'.cycle = w.cycle := by
    simp only [Ring.cycle, hself, heq, Accessor.cycle, if_true]
  have hcur : (w'.nodes 0).currentPacketNo 0 = (w.nodes 0).currentPacketNo 0 := by
    rw [hself, heq]
    exact update_of_ne (Nat.ne_of_lt hp) _ _
  have hGot (q : ℕ) (hpos : 0 < q) (hq : q < p + 1) : w'.Got q := by
    rw [Ring.Got, hcycle, hself, hother (Nat.ne_of_gt hpos)]
    rcases Nat.lt_or_eq_of_le (Nat.le_of_lt_succ hq) with hq | rfl
    · exact ⟨(hgot q hpos hq).1.trans (hgrows.got_le q), (hgot q hpos hq).2⟩
    · exact ⟨hc ▸ hgotp.ge, fun q' hq' => hc ▸ hd.before q' hq'⟩
  have hn : w'.noOfSenders = w.noOfSenders := by rw [← hw']; rfl
  have hsame : SameData (w'.nodes 0) { a' with allOk := ok } := by
    rw [hself]
    exact .allOk a' ok
  have hstore' : (w'.nodes 0).bytesToSend.isSome := by
    rw [hself, heq]
    exact hstore
  have hgo := hinv.receiveFrom hsame hstore' (Nat.succ_pos p) (hn.symm ▸ hlt) hGot
  have hgoal (b : Accessor α) : (w.leaveData p 0 rest).setNode 0 b = w'.setNode 0 b := by
    rw [← hw', Ring.setNode_setNode]
  rw [hgoal, ← hn]
  exact ⟨hgo.1, hgo.2.of_same hcycle hcur⟩

/-- Node 0 reads a confirmation of its cycle. -/
theorem receiveConfirm (h : Inv w) (hp : 0 < p) (hlt : p + 1 < w.noOfSenders)
    (hstore : (w.nodes 0).bytesToSend.isSome)
    (hgot : ∀ q, 0 < q → q < w.noOfSenders → w.Got q)
    (hall : ∀ q, p < q → q + 1 < w.noOfSenders → w.All q)
    (hconfirms : ∀ q, p < q → q + 1 < w.noOfSenders →
      Ascends (ConfirmOf w.noOfSenders q (w.nodes q)) ((w.nodes q).cycle q) w.cycle
        (w.confirms q 0))
    {rest : List Confirm} (he : ConfirmOf w.noOfSenders p (w.nodes p) c e)
    (hle : w.confirmFloor p ≤ c)
    (hrest : Ascends (ConfirmOf w.noOfSenders p (w.nodes p)) ((w.nodes p).cycle p) c rest)
    (hno : (w.nodes 0).currentPacketNo 0 = e.packetNo) (ok : Bool) :
    Inv ((w.leaveConfirms p 0 rest).setNode 0
      ({ w.nodes 0 with allOk := ok }.confirmFrom (p - 1))) ∧
    w.Turns ((w.leaveConfirms p 0 rest).setNode 0
      ({ w.nodes 0 with allOk := ok }.confirmFrom (p - 1))) := by
  have hnumber := (h.node 0 h.pos).number 0 h.pos
  rw [if_pos rfl] at hnumber
  have hbound := hrest.le.trans (h.cycle_le (Nat.lt_of_succ_lt hlt))
  have hfloor : w.cycle - 1 ≤ w.confirmFloor p := by
    unfold Ring.confirmFloor
    split <;> omega
  have hnumber' : IsNo w.cycle e.packetNo := by
    rw [← hno]
    exact hnumber
  have hc : c = w.cycle := he.number.eq_of_near hnumber' (Nat.le_succ_of_le hbound) (by omega)
  have hinv : Inv (w.leaveConfirms p 0 rest) := h.leaveConfirms fun _ _ _ => hrest.from_le hle
  have hgo := hinv.confirmFrom (a := { w.nodes 0 with allOk := ok }) (p := p - 1)
    ⟨⟨rfl, rfl, rfl, rfl⟩, rfl⟩ hstore (by change _ ∨ p - 1 + 1 < w.noOfSenders; omega) hgot
    (fun q hq hlast => ?_) (fun q hq hlast => ?_)
  · exact ⟨hgo.1, hgo.2.of_same rfl rfl⟩
  · rcases Nat.lt_or_eq_of_le (show p ≤ q by omega) with hlater | rfl
    · exact hall q hlater hlast
    · exact fun q' hq' hne => hc.ge.trans (he.all q' hq' hne)
  · change Ascends _ _ w.cycle (update w.confirms p (update (w.confirms p) 0 rest) q 0)
    rcases Nat.lt_or_eq_of_le (show p ≤ q by omega) with hlater | rfl
    · rw [update_of_ne (Nat.ne_of_gt hlater)]
      exact hconfirms q hlater hlast
    · rw [update_self, update_self, ← hc]
      exact hrest

/-- A move of node 0. -/
theorem despatch0 (h : Inv w) (o : Outcome α) :
    Inv (w.despatch0 o) ∧ w.Turns (w.despatch0 o) := by
  have hround := h.round
  have hpos := h.pos
  have hclean := h.setForCleaningRound (SameData.allOk (w.nodes 0) (w.nodes 0).allOk)
  unfold Ring.RoundOk at hround
  unfold Ring.despatch0
  dsimp only
  split
  case h_1 hstate =>
    generalize ha' : ({ ((w.nodes 0).sendMyData 0 o.fresh).1 with allOk := true } : Accessor α) = a'
    have hkept : a'.masterState = (w.nodes 0).masterState ∧
        a'.ioCyclePhase = (w.nodes 0).ioCyclePhase ∧
        a'.currentPacketNo = (w.nodes 0).currentPacketNo := by
      subst ha'
      exact ⟨rfl, rfl, rfl⟩
    have hsame : SameData ((w.nodes 0).sendMyData 0 o.fresh).1 a' := ha' ▸ .allOk _ true
    have hsent := h.sendMyData hpos o.fresh hsame
      (if_pos rfl).symm (fun q hq => absurd hq (Nat.not_lt_zero q))
      (fun _ => ⟨hkept.1, hkept.2.1⟩) (absurd rfl ·)
    generalize hw' : (w.setNode 0 a').sendData 0 ((w.nodes 0).sendMyData 0 o.fresh).2 = w'
      at hsent
    have hself : w'.nodes 0 = a' := hw' ▸ w.setNode_self 0 a'
    have hstore : a'.bytesToSend.isSome := by
      subst ha'
      rfl
    have hcycle : w'.cycle = w.cycle := by
      rw [Ring.cycle, hself, ← ha']
      exact sendMyData_cycle 0 o.fresh (w.nodes 0)
    have hgo := hsent.receiveFrom (a := a') (p := 1) (hself.symm ▸ .allOk a' a'.allOk)
      (hself.symm ▸ hstore) Nat.one_pos (hw' ▸ hpos) (fun q hq hlt => absurd hq (by omega))
    have hgoal : w'.setNode 0 (a'.receiveFrom w'.noOfSenders 1) =
        (w.setNode 0 (a'.receiveFrom w.noOfSenders 1)).sendData 0
          ((w.nodes 0).sendMyData 0 o.fresh).2 := by
      subst hw'
      simp only [Ring.setNode, Ring.sendData, update_idem]
    rw [hgoal] at hgo
    refine ⟨hgo.1, hgo.2.of_same hcycle ?_⟩
    rw [hself, hkept.2.2]
  case h_2 hstate =>
    rw [hstate] at hround
    obtain ⟨⟨hphase, hlt⟩, hgot⟩ := hround
    have hstore := h.active (by rw [hstate]; exact fun hidle => by cases hidle)
    have hdata := h.data _ hlt 0 hpos (Nat.ne_of_gt hphase)
    split
    case h_1 => exact ⟨hclean, .inl (w.cycle_setNode rfl)⟩
    case h_2 d rest harrives =>
      have hqueue : w.data (w.nodes 0).ioCyclePhase 0 = d :: rest := by
        split at harrives
        · exact harrives
        · cases harrives
      rw [hqueue] at hdata
      obtain ⟨c, hle, hd, hrest⟩ := hdata
      split
      · exact ⟨h.leaveData fun _ _ _ => hrest.from_le hle, .inl rfl⟩
      · rename_i hsameNo
        have hgo := h.receiveData hphase hlt hstore hgot hd hle hrest (of_not_not hsameNo)
          (((w.nodes 0).getDuecaData (w.nodes 0).ioCyclePhase d).allOk && !d.missedData)
        dsimp only at hgo
        rw [getDuecaData_ioCyclePhase] at hgo ⊢
        exact hgo
  case h_3 hstate =>
    rw [hstate] at hround
    obtain ⟨⟨hphase, hlt⟩, hgot, hall⟩ := hround
    have hstore := h.active (by rw [hstate]; exact fun hidle => by cases hidle)
    have hconfirms := h.confirms _ hphase hlt
    split
    case h_1 => exact ⟨hclean, .inl (w.cycle_setNode rfl)⟩
    case h_2 e rest harrives =>
      have hqueue : w.confirms (w.nodes 0).ioCyclePhase 0 = e :: rest := by
        split at harrives
        · exact harrives
        · cases harrives
      rw [hqueue] at hconfirms
      obtain ⟨c, hle, he, hrest⟩ := hconfirms
      split
      · exact ⟨h.leaveConfirms fun _ _ _ => hrest.from_le hle, .inl rfl⟩
      · rename_i hsameNo
        refine h.receiveConfirm hphase hlt hstore hgot hall (fun q hq hlast => ?_) he hle hrest
          (of_not_not hsameNo) _
        have hq' := h.confirms q (hphase.trans hq) hlast
        rw [Ring.confirmFloor, hstate, if_pos ⟨rfl, hq⟩] at hq'
        exact hq'

/-! ### The other nodes -/

/-- Another node sends its confirmation, when it has the data of all others. -/
theorem sendMyConfirm (h : Inv w) (hi : i < w.noOfSenders) (hzero : i ≠ 0)
    (hlast : i + 1 < w.noOfSenders)
    (hall : ∀ q < w.noOfSenders, q ≠ i → (w.nodes i).got 0 ≤ (w.nodes i).got q) :
    ∃ w', w.sendMyConfirm i (w.nodes i) = .ok w' ∧ Inv w' ∧ w'.nodes 0 = w.nodes 0 := by
  have hnode := h.node i hi
  have hnumber := hnode.number i hi
  rw [if_pos rfl, Accessor.cycle_of_ne hzero] at hnumber
  refine ⟨_, if_neg (by omega), ?_, update_of_ne (Ne.symm hzero) _ _⟩
  generalize ha' : ({ w.nodes i with
    ioCyclePhase := 0, commState := .syncOnZero } : Accessor α) = a'
  have hsame : SameData (w.nodes i) a' := ha' ▸ ⟨⟨rfl, rfl, rfl, rfl⟩, rfl⟩
  refine h.update_calm hi (absurd · hzero) (hsame.nodeInv hnode) (fun _ => ⟨?_, ?_⟩) hsame.grows
    ?_ ?_ ?_ (fun _ _ _ _ => rfl) (fun _ _ => ?_) (fun s hs => ?_)
  · rw [hsame.packed, hsame.bytesToSend, hsame.got]
    exact (h.other i hi hzero).packed
  · subst ha'
    rfl
  · intro b hb hne
    rw [hsame.handed]
    exact h.handed i hi b hb (Ne.symm hne)
  · intro t ht hne
    rw [hsame.cycle]
    exact (h.data i hi t ht (Ne.symm hne)).mono (fun _ _ hd => hd.mono hsame.grows) le_rfl
  · intro s hs hne
    rw [hsame.got]
    exact h.data s hs i hi hne
  · change Ascends _ _ _ (update w.confirms i (fun t => w.confirms i t ++ [_]) i 0)
    rw [update_self, hsame.cycle]
    refine ((h.confirms i (Nat.pos_of_ne_zero hzero) hlast).mono
      (fun _ _ hd => hd.mono hsame.grows) le_rfl).concat le_rfl ?_
    rw [Accessor.cycle_of_ne hzero]
    exact ⟨hnumber, fun q hq hne => (hall q hq hne).trans (hsame.grows.got_le q)⟩
  · change update w.confirms i (fun t => w.confirms i t ++ [_]) s 0 = w.confirms s 0
    rw [update_of_ne hs]

/-- Another node reads the data of node 0, of its cycle or the next one. With a new cycle it has
packed the data of the one before: node 0 has that. -/
theorem newCycle (h : Inv w) (hi : i < w.noOfSenders) (hzero : i ≠ 0) {rest : List (Datagram α)}
    (hd : DataOf 0 (w.nodes 0) c d) (hle : (w.nodes i).got 0 ≤ c)
    (hrest : Ascends (DataOf 0 (w.nodes 0)) ((w.nodes 0).cycle 0) c rest)
    {l : List α} {x : ℕ} {store : Option α} (hlength : l.length = c) (hx : IsNo c x)
    (hl : l = (w.nodes i).handed 0 ∨
      (w.nodes i).got 0 + 1 = c ∧ l = (w.nodes i).handed 0 ++ [d.payload])
    (hstore : store = if (w.nodes i).got 0 < c then none else (w.nodes i).bytesToSend) :
    Inv ((w.leaveData 0 i rest).setNode i { w.nodes i with
      iMissedData := false
      purgeExtraMessages := false
      bytesToSend := store
      handed := update (w.nodes i).handed 0 l
      currentPacketNo := update (update (w.nodes i).currentPacketNo 0 x) i d.packetNo
      ioCyclePhase := 1
      commState := if i = 1 then .dataSend else .dataReceive }) := by
  have hnode := h.node i hi
  have hold := h.other i hi hzero
  have hgrows := handed_grows hl
  generalize ha' : ({ w.nodes i with
    iMissedData := false
    purgeExtraMessages := false
    bytesToSend := store
    handed := update (w.nodes i).handed 0 l
    currentPacketNo := update (update (w.nodes i).currentPacketNo 0 x) i d.packetNo
    ioCyclePhase := 1
    commState := if i = 1 then .dataSend else .dataReceive } : Accessor α) = a'
  have hgot : a'.got 0 = c := by
    subst ha'
    simp only [Accessor.got, update_self, hlength]
  have hother {q : ℕ} (hq : q ≠ 0) : a'.got q = (w.nodes i).got q := by
    subst ha'
    simp only [Accessor.got, update_of_ne hq]
  have hg : Grows (w.nodes i) a' := by
    subst ha'
    exact ⟨List.prefix_rfl, hgrows⟩
  have hcycle : a'.cycle i = c := by
    rw [Accessor.cycle_of_ne hzero, hgot]
  have hpacked : a'.packed = (w.nodes i).packed := ha' ▸ rfl
  have hstore' : a'.bytesToSend = store := ha' ▸ rfl
  refine h.update_calm hi (absurd · hzero) ⟨?_, ?_, ?_, ?_⟩ (fun _ => ⟨?_, ?_⟩) hg ?_ ?_ ?_ ?_ ?_
    fun _ _ => rfl
  · intro b hb
    have hno := hnode.number b hb
    rw [hcycle, ← ha']
    change IsNo _ (update (update (w.nodes i).currentPacketNo 0 x) i d.packetNo b)
    by_cases hbi : b = i
    · subst hbi
      rw [if_pos rfl, update_self]
      exact hd.number
    · rw [if_neg hbi] at hno ⊢
      rw [update_of_ne hbi, ha']
      by_cases hb0 : b = 0
      · subst hb0
        rw [update_self, hgot]
        exact hx
      · rw [update_of_ne hb0, hother hb0]
        exact hno
  · exact fun b hb hbi => (hnode.current b hb hbi).trans (Nat.succ_le_succ (hg.got_le b))
  · intro p hp
    rw [hstore', hstore] at hp
    rw [hpacked]
    split at hp
    · cases hp
    · exact hnode.last p hp
  · rw [hpacked]
    exact ha' ▸ hnode.sent
  · have hlen := hold.packed
    rw [hpacked, hstore', hgot, hstore]
    split
    · -- a new cycle
      rename_i hnew
      have hseen := (h.node 0 h.pos).current i hi hzero
      have hhanded := (h.handed 0 h.pos i hi (Ne.symm hzero)).length_le
      have hbound := hrest.le
      have hnext : (w.nodes i).got 0 + 1 = c := by
        rcases hl with rfl | hl
        · exact absurd hlength (Nat.ne_of_lt hnew)
        · exact hl.1
      change w.cycle ≤ (w.nodes 0).got i + 1 at hseen
      change (w.nodes 0).got i ≤ _ at hhanded
      change c ≤ w.cycle at hbound
      simp only [Option.isSome_none, Bool.false_eq_true, if_false]
      split at hlen <;> omega
    · rename_i hsame
      rw [hlen, show (w.nodes i).got 0 = c by omega]
  · have hstate : a'.commState = if i = 1 then .dataSend else .dataReceive := ha' ▸ rfl
    have hphase : a'.ioCyclePhase = 1 := ha' ▸ rfl
    have hfirst (q : ℕ) (hq : q < 1) : c ≤ a'.got q := by
      obtain rfl : q = 0 := by omega
      exact hgot.ge
    unfold StateOk
    by_cases hone : i = 1
    · rw [hstate, if_pos hone, hphase, hgot]
      exact ⟨⟨hd.pos, hone.symm⟩, fun q hq => hfirst q (hone ▸ hq)⟩
    · rw [hstate, if_neg hone, hphase, hgot]
      exact ⟨⟨hd.pos, Nat.one_pos, by omega, Ne.symm hone⟩, fun q hq _ => hfirst q hq⟩
  · intro b hb hbi
    have hh := h.handed i hi b hb (Ne.symm hbi)
    by_cases hb0 : b = 0
    · subst hb0
      rw [← ha']
      simpa only [update_self] using hd.handed_packed hh hl
    · rw [← ha']
      simpa only [update_of_ne hb0] using hh
  · intro t ht hti
    change Ascends _ _ _ (update w.data 0 (update (w.data 0) i rest) i t)
    rw [update_of_ne hzero, hcycle]
    refine (h.data i hi t ht (Ne.symm hti)).mono (fun _ _ hx => hx.mono hg) ?_
    rw [Accessor.cycle_of_ne hzero]
    exact hle
  · intro s hs hsi
    change Ascends _ _ _ (update w.data 0 (update (w.data 0) i rest) s i)
    by_cases hs0 : s = 0
    · subst hs0
      rw [update_self, update_self, hgot]
      exact hrest
    · rw [update_of_ne hs0, hother hs0]
      exact h.data s hs i hi hsi
  · intro s t _ hti
    change update w.data 0 (update (w.data 0) i rest) s t = w.data s t
    by_cases hs0 : s = 0
    · subst hs0
      rw [update_self, update_of_ne hti]
    · rw [update_of_ne hs0]
  · intro _ hlt
    rw [hcycle]
    refine (h.confirms i (Nat.pos_of_ne_zero hzero) hlt).mono (fun _ _ hx => hx.mono hg) ?_
    rw [Accessor.cycle_of_ne hzero]
    exact hle

/-- Another node goes on after it has the data of the node that it waited for. -/
theorem receiveNext (h : Inv w) (hi : i < w.noOfSenders) (hzero : i ≠ 0)
    (hstate : (w.nodes i).commState = .dataReceive) (hpos : 1 ≤ (w.nodes i).got 0)
    (hphase : 0 < (w.nodes i).ioCyclePhase ∧ (w.nodes i).ioCyclePhase < w.noOfSenders ∧
      (w.nodes i).ioCyclePhase ≠ i)
    (hbefore : ∀ q < (w.nodes i).ioCyclePhase + 1, q ≠ i → (w.nodes i).got 0 ≤ (w.nodes i).got q) :
    Inv (w.setNode i ((w.nodes i).receiveNext w.noOfSenders i)) := by
  obtain ⟨hp, hlt, hne⟩ := hphase
  have hgo (phase : ℕ) (comm : CommState) (hstate : StateOk w.noOfSenders i
      { w.nodes i with ioCyclePhase := phase, commState := comm }) :
      Inv (w.setNode i { w.nodes i with ioCyclePhase := phase, commState := comm }) :=
    h.control_other hi hzero ⟨⟨rfl, rfl, rfl, rfl⟩, rfl⟩ hstate
  unfold Accessor.receiveNext
  dsimp only
  split
  · rename_i hmine
    exact hgo _ _ ⟨⟨hpos, hmine⟩, fun q hq => hbefore q (hmine.symm ▸ hq) (Nat.ne_of_lt hq)⟩
  · split
    · rename_i hlast
      have hall : ∀ q < w.noOfSenders, q ≠ i → (w.nodes i).got 0 ≤ (w.nodes i).got q :=
        fun q hq => hbefore q (hlast ▸ hq)
      split
      · rename_i horder
        exact hgo _ _ ⟨by omega, hall⟩
      · exact hgo _ _ ⟨by omega, hall⟩
    · rename_i hmine hlast
      refine h.control_other hi hzero ⟨⟨rfl, rfl, rfl, rfl⟩, rfl⟩ ?_
      unfold StateOk
      rw [hstate]
      exact ⟨⟨hpos, Nat.succ_pos _, Nat.lt_of_le_of_ne hlt hlast, hmine⟩, hbefore⟩

theorem spinToLast_spec {P : ℕ → Datagram α → Prop} {hi : ℕ} {rest : List (Datagram α)}
    (h : Ascends P hi c rest) (hd : P c d) (purge : Bool) (extra : ℕ) :
    ∃ c', c ≤ c' ∧ P c' (Ring.spinToLast purge extra d rest).1 ∧
      Ascends P hi c' (Ring.spinToLast purge extra d rest).2 := by
  unfold Ring.spinToLast
  split
  · exact h.last_of_take hd extra
  · exact ⟨c, le_rfl, hd, h⟩

/-- A move of another node. -/
theorem despatch1toN (h : Inv w) (hi : i < w.noOfSenders) (hzero : i ≠ 0) (o : Outcome α) :
    ∃ w', w.despatch1toN i o = .ok w' ∧ Inv w' ∧ w'.nodes 0 = w.nodes 0 := by
  have hother := h.other i hi hzero
  have hstate := hother.state
  have hnode := h.node i hi
  have hnumber := hnode.number i hi
  rw [if_pos rfl, Accessor.cycle_of_ne hzero] at hnumber
  have hkept (a : Accessor α) : (w.setNode i a).nodes 0 = w.nodes 0 :=
    Ring.setNode_of_ne (Ne.symm hzero)
  have hresync : Inv (w.setNode i (w.nodes i).resync) :=
    h.control_other hi hzero ⟨⟨rfl, rfl, rfl, rfl⟩, rfl⟩ rfl
  unfold StateOk at hstate
  unfold Ring.despatch1toN
  dsimp only
  split
  case h_1 hcomm =>
    rw [hcomm] at hstate
    obtain ⟨⟨hpos, hphase⟩, hbefore⟩ := hstate
    rw [if_neg (not_not_intro hphase)]
    generalize ha' : (if ((w.nodes i).sendMyData i o.fresh).1.ioCyclePhase + 1 = w.noOfSenders then
        ({ ((w.nodes i).sendMyData i o.fresh).1 with
          ioCyclePhase := 0, commState := .syncOnZero } : Accessor α)
      else { ((w.nodes i).sendMyData i o.fresh).1 with
        ioCyclePhase := ((w.nodes i).sendMyData i o.fresh).1.ioCyclePhase + 1
        commState := .dataReceive }) = a'
    have hsame : SameData ((w.nodes i).sendMyData i o.fresh).1 a' := by
      subst ha'
      split <;> exact ⟨⟨rfl, rfl, rfl, rfl⟩, rfl⟩
    have hlength := hother.packed
    refine ⟨_, rfl, h.sendMyData hi o.fresh hsame ?_ ?_ (absurd · hzero) (fun _ => ?_),
      update_of_ne (Ne.symm hzero) _ _⟩
    · rw [Accessor.cycle_of_ne hzero, hlength]
      split <;> omega
    · rw [Accessor.cycle_of_ne hzero]
      exact hbefore
    · have hgot (q : ℕ) : a'.got q = (w.nodes i).got q := by
        rw [Accessor.got, hsame.handed]
        rfl
      unfold StateOk
      by_cases hlast : i + 1 = w.noOfSenders
      · rw [if_pos (by change (w.nodes i).ioCyclePhase + 1 = _; omega)] at ha'
        rw [← ha']
      · rw [if_neg (by change ¬ (w.nodes i).ioCyclePhase + 1 = _; omega)] at ha'
        have hcomm' : a'.commState = .dataReceive := by rw [← ha']
        have hphase' : a'.ioCyclePhase = i + 1 := by
          rw [← ha']
          exact congrArg (· + 1) hphase
        rw [hcomm', hphase', hgot]
        refine ⟨⟨hpos, Nat.succ_pos i, by omega, by omega⟩, fun q hq hne => ?_⟩
        rw [hgot]
        exact hbefore q (by omega)
  case h_2 hcomm =>
    rw [hcomm] at hstate
    obtain ⟨⟨hpos, hphase, hlt, hne⟩, hbefore⟩ := hstate
    rw [if_neg (by omega)]
    split
    case h_1 => exact ⟨_, rfl, hresync, hkept _⟩
    case h_2 d rest harrives =>
      have hdata := h.data _ hlt i hi hne
      have hqueue : w.data (w.nodes i).ioCyclePhase i = d :: rest := by
        split at harrives
        · exact harrives
        · cases harrives
      rw [hqueue] at hdata
      obtain ⟨c, hle, hd, hrest⟩ := hdata
      split
      · exact ⟨_, rfl, h.leaveData fun _ _ _ => hrest.from_le hle, rfl⟩
      · rename_i hafter
        have hp := hnode.current _ hlt hne
        have hbound := hrest.le.trans (h.cycle_le hlt)
        have hself := hnode.current 0 h.pos (Ne.symm hzero)
        have hcycle := h.cycle_le hi
        rw [Accessor.cycle_of_ne hzero] at hcycle
        have hnotOld : (w.nodes i).got 0 ≤ c := le_of_not_packetAfter hnumber hd.number (by omega)
          (by omega) (Bool.eq_false_iff.mpr hafter)
        obtain ⟨hinv, hgotp, hgrows, l, x, heq⟩ := h.accept hi hlt hne (Nat.ne_of_gt hphase) hd hle
          hrest
        have hphase' := getDuecaData_ioCyclePhase (w.nodes i).ioCyclePhase d (w.nodes i)
        generalize (w.nodes i).getDuecaData (w.nodes i).ioCyclePhase d = a'
          at hinv hgotp hgrows heq hphase' ⊢
        have hgot0 : a'.got 0 = (w.nodes i).got 0 := by
          rw [heq]
          simp only [Accessor.got, update_of_ne (Nat.ne_of_lt hphase)]
        have hnext := hinv.receiveNext hi hzero
        rw [Ring.setNode_self, Ring.setNode_setNode, hphase', hgot0] at hnext
        refine ⟨_, rfl, hnext (by rw [heq]; exact hcomm) hpos ⟨hphase, hlt, hne⟩ fun q hq hqi => ?_,
          Ring.setNode_of_ne (Ne.symm hzero)⟩
        rcases Nat.lt_or_eq_of_le (Nat.le_of_lt_succ hq) with hq | rfl
        · exact (hbefore q hq hqi).trans (hgrows.got_le q)
        · exact hgotp ▸ hnotOld
  case h_3 hcomm =>
    rw [hcomm] at hstate
    obtain ⟨hlt, hall⟩ := hstate
    rw [if_neg (by omega)]
    split
    case h_1 => exact ⟨_, rfl, hresync, hkept _⟩
    case h_2 e rest harrives =>
      have hinv : Inv (w.leaveConfirms (i + 1) i rest) := h.leaveConfirms (absurd · hzero)
      split
      · exact ⟨_, rfl, hinv, rfl⟩
      · exact hinv.sendMyConfirm hi hzero (Nat.lt_of_succ_lt hlt) hall
  case h_4 hcomm =>
    rw [hcomm] at hstate
    exact h.sendMyConfirm hi hzero (by omega) hstate.2
  case h_5 hcomm =>
    rw [hcomm] at hstate
    rw [if_neg (not_not_intro hstate)]
    split
    case h_1 =>
      refine ⟨_, rfl, h.control_other hi hzero ⟨⟨rfl, rfl, rfl, rfl⟩, rfl⟩ ?_, hkept _⟩
      unfold StateOk
      rw [hcomm]
      exact hstate
    case h_2 d rest harrives =>
      have hdata := h.data 0 h.pos i hi (Ne.symm hzero)
      have hqueue : w.data 0 i = d :: rest := by
        split at harrives
        · exact harrives
        · cases harrives
      rw [hqueue] at hdata
      obtain ⟨c₀, hle₀, hd₀, hrest₀⟩ := hdata
      obtain ⟨c, hle₁, hd, hrest⟩ := spinToLast_spec hrest₀ hd₀ (w.nodes i).purgeExtraMessages o.extra
      have hle := hle₀.trans hle₁
      generalize Ring.spinToLast (w.nodes i).purgeExtraMessages o.extra d rest = read at hd hrest ⊢
      obtain ⟨d, rest⟩ := read
      have hbound : c ≤ w.cycle := hrest.le
      have hself := hnode.current 0 h.pos (Ne.symm hzero)
      have hnumber0 := hnode.number 0 h.pos
      rw [if_neg (Ne.symm hzero)] at hnumber0
      have hnear : c ≤ (w.nodes i).got 0 + 1 := hbound.trans hself
      have hafter := packetAfter_upper hd.number hnumber0 hnear (Nat.le_succ_of_le hle)
      dsimp only
      generalize hstore : (if packetAfter (upper d.packetNo) (upper ((w.nodes i).currentPacketNo 0))
        then none else (w.nodes i).bytesToSend) = store
      simp only [hafter] at hstore
      generalize ha' : ({ w.nodes i with
        iMissedData := false
        purgeExtraMessages := false
        bytesToSend := store } : Accessor α) = a'
      have hkeep : a'.handed = (w.nodes i).handed ∧
          a'.currentPacketNo = (w.nodes i).currentPacketNo := by
        subst ha'
        exact ⟨rfl, rfl⟩
      have hgot0 : a'.got 0 = (w.nodes i).got 0 := congrArg (fun f => (f 0).length) hkeep.1
      obtain ⟨l, x, heq, hlength, hx, hl⟩ := getDuecaData_spec (a := a') (p := 0)
        (by rw [hgot0, hkeep.2]; exact hnumber0) hd.number (hgot0 ▸ hle) (hgot0 ▸ hnear)
      rw [hkeep.1, hgot0] at hl
      rw [heq, hkeep.1, hkeep.2, ← ha']
      exact ⟨_, rfl, h.newCycle hi hzero hd hle hrest hlength hx hl hstore.symm,
        Ring.setNode_of_ne (Ne.symm hzero)⟩

end Inv

end Dueca.IpRing
