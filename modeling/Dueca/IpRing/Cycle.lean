import Dueca.Lib.Ascending
import Dueca.IpRing.Model

/-!
# Cycles

Cycles are counted without end here. The cycle of node 0 is the number of payloads that it packed,
or one more if it did not pack that of its current cycle yet. The cycle of another node is the
number of payloads that it has of node 0. A datagram belongs to a cycle, and carries the payload
that its sender packed in that cycle.
-/

namespace Dueca.IpRing

open Function Dueca.Lib

variable {α : Type} {w : Ring α} {a a' : Accessor α} {d : Datagram α} {e : Confirm}
variable {n k i p c s t : ℕ}

/-! ### One node -/

namespace Accessor

/-- The number of payloads from a node. -/
def got (a : Accessor α) (p : ℕ) : ℕ := (a.handed p).length

/-- The cycle that the node is in. -/
def cycle (i : ℕ) (a : Accessor α) : ℕ :=
  if i = 0 then a.packed.length + (if a.bytesToSend.isSome then 0 else 1) else a.got 0

theorem cycle_of_ne (hi : i ≠ 0) (a : Accessor α) : a.cycle i = a.got 0 := if_neg hi

end Accessor

/-- A datagram with data of cycle `c`. Its sender has the data of the nodes before it. -/
structure DataOf (i : ℕ) (a : Accessor α) (c : ℕ) (d : Datagram α) : Prop where
  number : IsNo c d.packetNo
  pos : 1 ≤ c
  payload : a.packed[c - 1]? = some d.payload
  before : ∀ q < i, c ≤ a.got q

/-- A confirmation of cycle `c`. Its sender has the data of all others. -/
structure ConfirmOf (n i : ℕ) (a : Accessor α) (c : ℕ) (e : Confirm) : Prop where
  number : IsNo c e.packetNo
  all : ∀ q < n, q ≠ i → c ≤ a.got q

/-- A node packs more, and hands over more. -/
structure Grows (a a' : Accessor α) : Prop where
  packed : a.packed <+: a'.packed
  handed : ∀ p, a.handed p <+: a'.handed p

theorem Grows.got_le (h : Grows a a') (p : ℕ) : a.got p ≤ a'.got p := (h.handed p).length_le

theorem DataOf.mono (h : DataOf i a c d) (hg : Grows a a') : DataOf i a' c d where
  number := h.number
  pos := h.pos
  payload := by
    obtain ⟨more, hmore⟩ := hg.packed
    rw [← hmore, List.getElem?_append_left (List.getElem?_eq_some_iff.mp h.payload).1, h.payload]
  before q hq := (h.before q hq).trans (hg.got_le q)

theorem ConfirmOf.mono (h : ConfirmOf n i a c e) (hg : Grows a a') : ConfirmOf n i a' c e where
  number := h.number
  all q hq hne := (h.all q hq hne).trans (hg.got_le q)

/-- What holds of node `i` when node 0 is in cycle `k`. -/
structure NodeInv (n k i : ℕ) (a : Accessor α) : Prop where
  number : ∀ b < n, IsNo (if b = i then a.cycle i else a.got b) (a.currentPacketNo b)
  current : ∀ b < n, b ≠ i → k ≤ a.got b + 1
  last : ∀ p, a.bytesToSend = some p → a.packed.getLast? = some p
  sent : ∀ x ∈ a.sent, IsNo x.1 x.2.packetNo ∧ 1 ≤ x.1 ∧ a.packed[x.1 - 1]? = some x.2.payload

/-- Where a node is in the exchange tells from whom it has the data of its cycle. -/
def StateOk (n i : ℕ) (a : Accessor α) : Prop :=
  match a.commState with
  | .syncOnZero => a.ioCyclePhase = 0
  | .dataReceive => (1 ≤ a.got 0 ∧ 0 < a.ioCyclePhase ∧ a.ioCyclePhase < n ∧ a.ioCyclePhase ≠ i) ∧
    ∀ q < a.ioCyclePhase, q ≠ i → a.got 0 ≤ a.got q
  | .dataSend => (1 ≤ a.got 0 ∧ a.ioCyclePhase = i) ∧ ∀ q < i, a.got 0 ≤ a.got q
  | .waitConfirm => i + 2 < n ∧ ∀ q < n, q ≠ i → a.got 0 ≤ a.got q
  | .sendConfirm => i + 2 = n ∧ ∀ q < n, q ≠ i → a.got 0 ≤ a.got q

/-- What holds of another node than node 0: it packs once in each cycle. -/
structure OtherInv (n i : ℕ) (a : Accessor α) : Prop where
  packed : a.packed.length = if a.bytesToSend.isSome then a.got 0 else a.got 0 - 1
  state : StateOk n i a

/-- A datagram of the cycle that the node has of its sender is a repeated one; the payload of the
next cycle is handed over. Either way the node has the cycle of the datagram then. -/
theorem getDuecaData_spec (hnumber : IsNo (a.got p) (a.currentPacketNo p))
    (hd : IsNo c d.packetNo) (hle : a.got p ≤ c) (hnear : c ≤ a.got p + 1) :
    ∃ l x, a.getDuecaData p d = { a with
        handed := update a.handed p l
        currentPacketNo := update a.currentPacketNo p x } ∧
      l.length = c ∧ IsNo c x ∧
      (l = a.handed p ∨ a.got p + 1 = c ∧ l = a.handed p ++ [d.payload]) := by
  have hafter := packetAfter_upper hd hnumber (by omega) (by omega)
  unfold Accessor.getDuecaData
  split
  · rename_i htrue
    have hlt := hafter.mp htrue
    have hnext : a.got p + 1 = c := by omega
    refine ⟨_, _, rfl, ?_, hd, .inr ⟨hnext, rfl⟩⟩
    rw [List.length_append]
    exact hnext
  · rename_i hfalse
    have hsame : a.got p = c := by
      have := mt hafter.mpr hfalse
      omega
    refine ⟨a.handed p, a.currentPacketNo p, ?_, hsame, hsame ▸ hnumber, .inl rfl⟩
    rw [update_eq_self, update_eq_self]

/-- What a node has packed when it sends. -/
theorem sendMyData_packed (order : ℕ) (fresh : α) (hlast : ∀ p, a.bytesToSend = some p →
    a.packed.getLast? = some p) :
    ∃ packed payload, a.sendMyData order fresh =
      ({ a with
        bytesToSend := some payload
        packed := packed
        sent := a.sent ++ [(packed.length, ⟨payload, a.iMissedData, a.currentPacketNo order⟩)] },
        ⟨payload, a.iMissedData, a.currentPacketNo order⟩) ∧
      a.packed <+: packed ∧ packed.getLast? = some payload ∧
      packed.length = a.packed.length + (if a.bytesToSend.isSome then 0 else 1) := by
  cases hstore : a.bytesToSend with
  | none =>
    refine ⟨a.packed ++ [fresh], fresh, ?_, List.prefix_append _ _, by simp, by simp⟩
    simp [Accessor.sendMyData, hstore]
  | some q =>
    refine ⟨a.packed, q, ?_, List.prefix_rfl, hlast q hstore, by simp⟩
    simp [Accessor.sendMyData, hstore]

theorem getElem?_of_getLast? {l : List α} {x : α} (h : l.getLast? = some x) :
    1 ≤ l.length ∧ l[l.length - 1]? = some x := by
  rw [List.getLast?_eq_getElem?] at h
  have hlt := (List.getElem?_eq_some_iff.mp h).1
  exact ⟨by omega, h⟩

/-! ### All nodes -/

namespace Ring

/-- The cycle of node 0. -/
def cycle (w : Ring α) : ℕ := (w.nodes 0).cycle 0

/-- Node 0 has the data of node `q` for its cycle, which has that of the nodes before it. -/
def Got (w : Ring α) (q : ℕ) : Prop :=
  w.cycle ≤ (w.nodes 0).got q ∧ ∀ q' < q, w.cycle ≤ (w.nodes q).got q'

/-- Node `q` has the data of all others for the cycle of node 0. -/
def All (w : Ring α) (q : ℕ) : Prop :=
  ∀ q' < w.noOfSenders, q' ≠ q → w.cycle ≤ (w.nodes q).got q'

/-- Confirmations that node 0 reads are not older than this. -/
def confirmFloor (w : Ring α) (q : ℕ) : ℕ :=
  if (w.nodes 0).masterState = .confirming ∧ (w.nodes 0).ioCyclePhase < q then w.cycle
  else w.cycle - 1

/-- What node 0 knows in its cycle. -/
def RoundOk (w : Ring α) : Prop :=
  match (w.nodes 0).masterState with
  | .idle => True
  | .receiving => (0 < (w.nodes 0).ioCyclePhase ∧ (w.nodes 0).ioCyclePhase < w.noOfSenders) ∧
    ∀ q, 0 < q → q < (w.nodes 0).ioCyclePhase → w.Got q
  | .confirming => (0 < (w.nodes 0).ioCyclePhase ∧ (w.nodes 0).ioCyclePhase + 1 < w.noOfSenders) ∧
    (∀ q, 0 < q → q < w.noOfSenders → w.Got q) ∧
    ∀ q, (w.nodes 0).ioCyclePhase < q → q + 1 < w.noOfSenders → w.All q

/-- What node 0 knows does not depend on the nodes having more. -/
theorem RoundOk.mono {w' : Ring α} (h : w.RoundOk) (hn : w'.noOfSenders = w.noOfSenders)
    (hcycle : w'.cycle = w.cycle) (hstate : (w'.nodes 0).masterState = (w.nodes 0).masterState)
    (hphase : (w'.nodes 0).ioCyclePhase = (w.nodes 0).ioCyclePhase)
    (hgot : ∀ j q, (w.nodes j).got q ≤ (w'.nodes j).got q) : w'.RoundOk := by
  have hGot {q : ℕ} (hq : w.Got q) : w'.Got q := by
    refine ⟨?_, fun q' hq' => ?_⟩
    · rw [hcycle]
      exact hq.1.trans (hgot 0 q)
    · rw [hcycle]
      exact (hq.2 q' hq').trans (hgot q q')
  have hAll {q : ℕ} (hq : w.All q) : w'.All q := fun q' hlt hne => by
    rw [hcycle]
    exact (hq q' (hn ▸ hlt) hne).trans (hgot q q')
  unfold RoundOk at h ⊢
  rw [hstate, hphase, hn]
  split at h
  · trivial
  · exact ⟨h.1, fun q hpos hlt => hGot (h.2 q hpos hlt)⟩
  · exact ⟨h.1, fun q hpos hlt => hGot (h.2.1 q hpos hlt), fun q hlt hq =>
      hAll (h.2.2 q hlt hq)⟩

end Ring

/-- The nodes are at most one cycle behind node 0. What is handed over is what was packed, and the
datagrams on their way say what their senders packed and have. -/
structure Inv (w : Ring α) : Prop where
  pos : 0 < w.noOfSenders
  node : ∀ i < w.noOfSenders, NodeInv w.noOfSenders w.cycle i (w.nodes i)
  other : ∀ i < w.noOfSenders, i ≠ 0 → OtherInv w.noOfSenders i (w.nodes i)
  active : (w.nodes 0).masterState ≠ .idle → (w.nodes 0).bytesToSend.isSome
  handed : ∀ a < w.noOfSenders, ∀ b < w.noOfSenders, a ≠ b →
    (w.nodes a).handed b <+: (w.nodes b).packed
  data : ∀ s < w.noOfSenders, ∀ t < w.noOfSenders, s ≠ t →
    Ascends (DataOf s (w.nodes s)) ((w.nodes s).cycle s) ((w.nodes t).got s) (w.data s t)
  confirms : ∀ s, 0 < s → s + 1 < w.noOfSenders →
    Ascends (ConfirmOf w.noOfSenders s (w.nodes s)) ((w.nodes s).cycle s) (w.confirmFloor s)
      (w.confirms s 0)
  round : w.RoundOk

/-- Node 0 stays where it is in its cycle. -/
structure SameRound (a a' : Accessor α) : Prop where
  cycle : a'.cycle 0 = a.cycle 0
  masterState : a'.masterState = a.masterState
  ioCyclePhase : a'.ioCyclePhase = a.ioCyclePhase
  bytesToSend : a.bytesToSend.isSome → a'.bytesToSend.isSome

theorem SameRound.refl (a : Accessor α) : SameRound a a := ⟨rfl, rfl, rfl, id⟩

namespace Inv

/-- No node is ahead of node 0. -/
theorem cycle_le (h : Inv w) (hi : i < w.noOfSenders) : (w.nodes i).cycle i ≤ w.cycle := by
  by_cases hzero : i = 0
  · subst hzero
    exact le_rfl
  · rw [Accessor.cycle_of_ne hzero]
    refine (h.handed i hi 0 h.pos hzero).length_le.trans ?_
    exact Nat.le_add_right _ _

/-- A node packs no more than one payload in each cycle. -/
theorem packed_le (h : Inv w) (hi : i < w.noOfSenders) :
    (w.nodes i).packed.length ≤ w.cycle := by
  by_cases hzero : i = 0
  · subst hzero
    exact Nat.le_add_right _ _
  · have hle := h.cycle_le hi
    rw [Accessor.cycle_of_ne hzero] at hle
    have hpacked := (h.other i hi hzero).packed
    split at hpacked <;> omega

/-- What happens at node `i`: the state of the node, what it sends, and what is left of what was
sent to it. Node 0 is in cycle `k` then. -/
theorem update_node (h : Inv w) (hi : i < w.noOfSenders)
    {data : ℕ → ℕ → List (Datagram α)} {confirms : ℕ → ℕ → List Confirm}
    (hcycle : (update w.nodes i a' 0).cycle 0 = k)
    (hnode : NodeInv w.noOfSenders k i a')
    (hnodes : ∀ j < w.noOfSenders, j ≠ i → NodeInv w.noOfSenders k j (w.nodes j))
    (hother : i ≠ 0 → OtherInv w.noOfSenders i a')
    (hactive : (update w.nodes i a' 0).masterState ≠ .idle →
      (update w.nodes i a' 0).bytesToSend.isSome)
    (hgrows : Grows (w.nodes i) a')
    (hhanded : ∀ b < w.noOfSenders, b ≠ i → a'.handed b <+: (w.nodes b).packed)
    (hfrom : ∀ t < w.noOfSenders, t ≠ i →
      Ascends (DataOf i a') (a'.cycle i) ((w.nodes t).got i) (data i t))
    (hto : ∀ s < w.noOfSenders, s ≠ i →
      Ascends (DataOf s (w.nodes s)) ((w.nodes s).cycle s) (a'.got s) (data s i))
    (hdata : ∀ s t, s ≠ i → t ≠ i → data s t = w.data s t)
    (hconfirms : ∀ s, 0 < s → s + 1 < w.noOfSenders →
      Ascends (ConfirmOf w.noOfSenders s (update w.nodes i a' s)) ((update w.nodes i a' s).cycle s)
        (Ring.confirmFloor ⟨w.noOfSenders, update w.nodes i a', data, confirms⟩ s) (confirms s 0))
    (hround : Ring.RoundOk ⟨w.noOfSenders, update w.nodes i a', data, confirms⟩) :
    Inv ⟨w.noOfSenders, update w.nodes i a', data, confirms⟩ := by
  have hself : update w.nodes i a' i = a' := update_self i a' w.nodes
  have hothers {j : ℕ} (hj : j ≠ i) : update w.nodes i a' j = w.nodes j :=
    update_of_ne hj a' w.nodes
  refine ⟨h.pos, fun j hj => ?_, fun j hj hne => ?_, hactive, fun x hx y hy hne => ?_,
    fun x hx y hy hne => ?_, hconfirms, hround⟩
  · change NodeInv w.noOfSenders ((update w.nodes i a' 0).cycle 0) j (update w.nodes i a' j)
    rw [hcycle]
    by_cases hji : j = i
    · rw [hji, hself]
      exact hnode
    · rw [hothers hji]
      exact hnodes j hj hji
  · change OtherInv w.noOfSenders j (update w.nodes i a' j)
    by_cases hji : j = i
    · subst hji
      rw [hself]
      exact hother hne
    · rw [hothers hji]
      exact h.other j hj hne
  · change (update w.nodes i a' x).handed y <+: (update w.nodes i a' y).packed
    by_cases hxi : x = i
    · subst hxi
      rw [hself, hothers (Ne.symm hne)]
      exact hhanded y hy (Ne.symm hne)
    · rw [hothers hxi]
      by_cases hyi : y = i
      · subst hyi
        rw [hself]
        exact (h.handed x hx y hy hne).trans hgrows.packed
      · rw [hothers hyi]
        exact h.handed x hx y hy hne
  · change Ascends (DataOf x (update w.nodes i a' x)) ((update w.nodes i a' x).cycle x)
      ((update w.nodes i a' y).got x) (data x y)
    by_cases hxi : x = i
    · subst hxi
      rw [hself, hothers (Ne.symm hne)]
      exact hfrom y hy (Ne.symm hne)
    · rw [hothers hxi]
      by_cases hyi : y = i
      · subst hyi
        rw [hself]
        exact hto x hx hxi
      · rw [hothers hyi, hdata x y hxi hyi]
        exact h.data x hx y hy hne

/-- What happens at node `i` while node 0 stays where it is in its cycle. -/
theorem update_calm (h : Inv w) (hi : i < w.noOfSenders)
    {data : ℕ → ℕ → List (Datagram α)} {confirms : ℕ → ℕ → List Confirm}
    (hmaster : i = 0 → SameRound (w.nodes 0) a')
    (hnode : NodeInv w.noOfSenders w.cycle i a') (hother : i ≠ 0 → OtherInv w.noOfSenders i a')
    (hgrows : Grows (w.nodes i) a')
    (hhanded : ∀ b < w.noOfSenders, b ≠ i → a'.handed b <+: (w.nodes b).packed)
    (hfrom : ∀ t < w.noOfSenders, t ≠ i →
      Ascends (DataOf i a') (a'.cycle i) ((w.nodes t).got i) (data i t))
    (hto : ∀ s < w.noOfSenders, s ≠ i →
      Ascends (DataOf s (w.nodes s)) ((w.nodes s).cycle s) (a'.got s) (data s i))
    (hdata : ∀ s t, s ≠ i → t ≠ i → data s t = w.data s t)
    (hown : i ≠ 0 → i + 1 < w.noOfSenders → Ascends (ConfirmOf w.noOfSenders i a') (a'.cycle i)
      (w.confirmFloor i) (confirms i 0))
    (hconfirms : ∀ s, s ≠ i → confirms s 0 = w.confirms s 0) :
    Inv ⟨w.noOfSenders, update w.nodes i a', data, confirms⟩ := by
  set w' : Ring α := ⟨w.noOfSenders, update w.nodes i a', data, confirms⟩ with hw'
  have hself : w'.nodes i = a' := update_self i a' w.nodes
  have hothers {j : ℕ} (hj : j ≠ i) : w'.nodes j = w.nodes j := update_of_ne hj a' w.nodes
  have hround : SameRound (w.nodes 0) (w'.nodes 0) := by
    by_cases hzero : i = 0
    · rw [← hself, hzero] at hmaster
      exact hmaster rfl
    · rw [hothers (Ne.symm hzero)]
      exact SameRound.refl _
  have hgot (j q : ℕ) : (w.nodes j).got q ≤ (w'.nodes j).got q := by
    by_cases hj : j = i
    · rw [hj, hself]
      exact hgrows.got_le q
    · rw [hothers hj]
  refine h.update_node hi hround.cycle hnode (fun j hj _ => h.node j hj) hother ?_ hgrows hhanded
    hfrom hto hdata ?_ ?_
  · intro hidle
    rw [hround.masterState] at hidle
    exact hround.bytesToSend (h.active hidle)
  · intro q hpos hq
    have hfloor : w'.confirmFloor q = w.confirmFloor q := by
      simp only [Ring.confirmFloor, Ring.cycle, hround.masterState, hround.ioCyclePhase,
        hround.cycle]
    rw [← hw', hfloor]
    by_cases hqi : q = i
    · subst hqi
      rw [update_self]
      exact hown (Nat.ne_of_gt hpos) hq
    · rw [update_of_ne hqi, hconfirms q hqi]
      exact h.confirms q hpos hq
  · rw [← hw']
    exact h.round.mono rfl hround.cycle hround.masterState hround.ioCyclePhase hgot

end Inv

/-- Two states of a node with the same data. -/
structure SameStore (a a' : Accessor α) : Prop where
  bytesToSend : a'.bytesToSend = a.bytesToSend
  packed : a'.packed = a.packed
  handed : a'.handed = a.handed
  sent : a'.sent = a.sent

/-- Two states of a node with the same data and numbers. -/
structure SameData (a a' : Accessor α) : Prop extends SameStore a a' where
  currentPacketNo : a'.currentPacketNo = a.currentPacketNo

namespace SameStore

theorem got (h : SameStore a a') (p : ℕ) : a'.got p = a.got p := by
  rw [Accessor.got, h.handed, Accessor.got]

theorem cycle (h : SameStore a a') (i : ℕ) : a'.cycle i = a.cycle i := by
  simp only [Accessor.cycle, h.packed, h.bytesToSend, h.got]

theorem grows (h : SameStore a a') : Grows a a' := ⟨h.packed ▸ List.prefix_rfl, fun _ =>
  h.handed ▸ List.prefix_rfl⟩

theorem nodeInv (h : SameStore a a') (hnode : NodeInv n k i a)
    (hnumber : ∀ b < n, IsNo (if b = i then a.cycle i else a.got b) (a'.currentPacketNo b)) :
    NodeInv n k i a' where
  number b hb := by
    rw [h.cycle, h.got]
    exact hnumber b hb
  current b hb hne := (h.got b).symm ▸ hnode.current b hb hne
  last := by
    rw [h.bytesToSend, h.packed]
    exact hnode.last
  sent := by
    rw [h.sent, h.packed]
    exact hnode.sent

end SameStore

theorem SameData.allOk (a : Accessor α) (ok : Bool) : SameData a { a with allOk := ok } :=
  ⟨⟨rfl, rfl, rfl, rfl⟩, rfl⟩

theorem SameData.nodeInv (h : SameData a a') (hnode : NodeInv n k i a) : NodeInv n k i a' :=
  h.toSameStore.nodeInv hnode fun b hb => h.currentPacketNo ▸ hnode.number b hb

namespace Inv

/-- Another node changes its state only. -/
theorem control_other (h : Inv w) (hi : i < w.noOfSenders) (hzero : i ≠ 0)
    (hsame : SameData (w.nodes i) a') (hstate : StateOk w.noOfSenders i a') :
    Inv (w.setNode i a') := by
  have hdataOf {c : ℕ} {d : Datagram α} : DataOf i (w.nodes i) c d → DataOf i a' c d :=
    fun hd => hd.mono hsame.grows
  refine h.update_calm hi (absurd · hzero) (hsame.nodeInv (h.node i hi)) (fun _ => ⟨?_, hstate⟩)
    hsame.grows ?_ ?_ ?_ (fun _ _ _ _ => rfl) ?_ fun _ _ => rfl
  · rw [hsame.packed, hsame.bytesToSend, hsame.got]
    exact (h.other i hi hzero).packed
  · intro b hb hne
    rw [hsame.handed]
    exact h.handed i hi b hb (Ne.symm hne)
  · intro t ht hne
    rw [hsame.cycle]
    exact (h.data i hi t ht (Ne.symm hne)).mono (fun _ _ => hdataOf) le_rfl
  · intro s hs hne
    rw [hsame.got]
    exact h.data s hs i hi hne
  · intro _ hlt
    rw [hsame.cycle]
    exact (h.confirms i (Nat.pos_of_ne_zero hzero) hlt).mono
      (fun _ _ hd => hd.mono hsame.grows) le_rfl

/-- Node 0 goes on in its cycle. -/
theorem control_master (h : Inv w) (hsame : SameStore (w.nodes 0) a')
    (hnode : NodeInv w.noOfSenders w.cycle 0 a')
    (hactive : a'.masterState ≠ .idle → (w.nodes 0).bytesToSend.isSome)
    (hconfirms : ∀ s, 0 < s → s + 1 < w.noOfSenders →
      Ascends (ConfirmOf w.noOfSenders s (w.nodes s)) ((w.nodes s).cycle s)
        ((w.setNode 0 a').confirmFloor s) (w.confirms s 0))
    (hround : (w.setNode 0 a').RoundOk) : Inv (w.setNode 0 a') := by
  have hself : update w.nodes 0 a' 0 = a' := update_self 0 a' w.nodes
  refine h.update_node h.pos ?_ hnode (fun j hj _ => h.node j hj) (absurd rfl ·) ?_ hsame.grows
    ?_ ?_ ?_ (fun _ _ _ _ => rfl) ?_ hround
  · rw [hself]
    exact hsame.cycle 0
  · rw [hself, hsame.bytesToSend]
    exact hactive
  · intro b hb hne
    rw [hsame.handed]
    exact h.handed 0 h.pos b hb (Ne.symm hne)
  · intro t ht hne
    rw [hsame.cycle]
    exact (h.data 0 h.pos t ht (Ne.symm hne)).mono (fun _ _ hd => hd.mono hsame.grows) le_rfl
  · intro s hs hne
    rw [hsame.got]
    exact h.data s hs 0 h.pos hne
  · intro s hpos hs
    rw [update_of_ne (Nat.ne_of_gt hpos)]
    exact hconfirms s hpos hs

/-- Datagrams are read or lost. -/
theorem leaveData (h : Inv w) {rest : List (Datagram α)}
    (hrest : s < w.noOfSenders → t < w.noOfSenders → s ≠ t →
      Ascends (DataOf s (w.nodes s)) ((w.nodes s).cycle s) ((w.nodes t).got s) rest) :
    Inv (w.leaveData s t rest) := by
  refine ⟨h.pos, h.node, h.other, h.active, h.handed, fun x hx y hy hne => ?_, h.confirms, h.round⟩
  change Ascends _ _ _ (update w.data s (update (w.data s) t rest) x y)
  by_cases hxs : x = s
  · subst hxs
    rw [update_self]
    by_cases hyt : y = t
    · subst hyt
      rw [update_self]
      exact hrest hx hy hne
    · rw [update_of_ne hyt]
      exact h.data x hx y hy hne
  · rw [update_of_ne hxs]
    exact h.data x hx y hy hne

theorem leaveConfirms (h : Inv w) {rest : List Confirm}
    (hrest : t = 0 → 0 < s → s + 1 < w.noOfSenders →
      Ascends (ConfirmOf w.noOfSenders s (w.nodes s)) ((w.nodes s).cycle s) (w.confirmFloor s)
        rest) :
    Inv (w.leaveConfirms s t rest) := by
  refine ⟨h.pos, h.node, h.other, h.active, h.handed, h.data, fun x hpos hx => ?_, h.round⟩
  change Ascends _ _ (w.confirmFloor x) (update w.confirms s (update (w.confirms s) t rest) x 0)
  by_cases hxs : x = s
  · subst hxs
    rw [update_self]
    by_cases ht : t = 0
    · subst ht
      rw [update_self]
      exact hrest rfl hpos hx
    · rw [update_of_ne (Ne.symm ht)]
      exact h.confirms x hpos hx
  · rw [update_of_ne hxs]
    exact h.confirms x hpos hx

end Inv

end Dueca.IpRing
