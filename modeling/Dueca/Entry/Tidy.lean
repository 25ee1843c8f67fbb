import Dueca.Entry.Span

/-!
# An entry that is read

What a sequential reader that accesses nothing meets in an entry with its accesses and points in
order, as it is after any run of careful operations. Data may have been taken from the points.
-/

namespace Dueca.Entry

open Dueca.Lib UChannelEntryData

variable {D B : Type} {e e' : UChannelEntry D} {conv : DataSetConverter D B}
variable {i r a b : ℕ} {c c' : Client} {n m : UChannelEntryData D}

/-- An entry with its accesses and points in order. -/
structure Tidy (e : UChannelEntry D) : Prop where
  accounted : Accounted e
  ordered : Ordered e

/-- The record `i` of an entry is that of a linked sequential reader, which accesses nothing and
reads from the point `r` on. -/
structure Reader (e : UChannelEntry D) (i r : ℕ) (c : Client) : Prop where
  record : e.clients[i]? = some c
  sequential : c.sequentialRead = true
  linked : c.linked = true
  index : c.readIndex = some r
  idle : c.accessed = none

/-- The record `i` is that of a sequential reader that accesses its next point. -/
structure Accesses (e : UChannelEntry D) (i r : ℕ) (c : Client) : Prop where
  record : e.clients[i]? = some c
  sequential : c.sequentialRead = true
  linked : c.linked = true
  index : c.readIndex = some r
  accessed : c.accessed = some r

/-- The entry after an operation of the reader `i`. -/
def UChannelEntry.reread (e : UChannelEntry D) (i : ℕ) (heap : Heap D) (c : Client) :
    UChannelEntry D :=
  { e with heap := heap, clients := e.clients.set i c }

/-- There is a gap at an address. -/
def atGap (e : UChannelEntry D) (a : ℕ) : Bool := (e.heap a).any (·.seqId = 0)

theorem Tidy.linked (hT : Tidy e) : Linked e := hT.accounted.counted.linked

/-- After any run of careful operations, with fewer than `2 ^ 32 - 1` writes, an entry is tidy. -/
theorem tidy_of_run {writer eventtype fullpackmode : Bool} {nreservations : ℕ}
    {ops : List (Op D)} (hcare : Allowed (advance conv) Careful
      (UChannelEntry.create writer eventtype fullpackmode nreservations) ops)
    (hw : writes ops < 4294967295) (hrun : exec (advance conv)
      (UChannelEntry.create writer eventtype fullpackmode nreservations) ops = .ok e) : Tidy e := by
  have hid := lastId_create (D := D) writer eventtype fullpackmode nreservations
  exact ⟨accounted_of_run (accounted_create ..) hcare hrun,
    (sound_of_run (sound_create ..) (by omega) hrun).1.ordered⟩

theorem tidy_of_checks {writer eventtype fullpackmode : Bool} {nreservations : ℕ}
    {ops : List (Op D)} (hcare : checks (advance conv) (fun e op => decide (Careful e op))
      (UChannelEntry.create writer eventtype fullpackmode nreservations) ops = true)
    (hw : writes ops < 4294967295) (hrun : exec (advance conv)
      (UChannelEntry.create writer eventtype fullpackmode nreservations) ops = .ok e) : Tidy e :=
  tidy_of_run (allowed_of_checks (fun _ _ h => of_decide_eq_true h) hcare) hw hrun

/-- A reader holds its point. -/
theorem mem_holdings_reader (hc : e.clients[i]? = some c) (hs : c.sequentialRead = true)
    (hl : c.linked = true) (hr : c.readIndex = some r) : r ∈ holdings e := by
  refine mem_holdings_client (List.mem_of_getElem? hc) ?_
  rw [Client.holds_of_sequential hs hl hr]
  exact List.mem_singleton_self r

theorem Reader.mem_holdings (hR : Reader e i r c) : r ∈ holdings e :=
  mem_holdings_reader hR.record hR.sequential hR.linked hR.index

theorem Reader.range (hR : Reader e i r c) (hT : Tidy e) : e.cleanup ≤ r ∧ r ≤ e.latest :=
  hT.accounted.counted.live r hR.mem_holdings

theorem Reader.exists_node (hR : Reader e i r c) (hT : Tidy e) :
    ∃ n, e.heap r = some n ∧ 1 < n.readAccesses := by
  obtain ⟨h₁, h₂⟩ := hR.range hT
  obtain ⟨n, hn⟩ := hT.linked.exists_node h₁ h₂
  exact ⟨n, hn, hT.accounted.counted.one_lt hR.mem_holdings hn⟩

/-- Moving accesses, without taking data, leaves an entry tidy. -/
theorem Tidy.of_moves {src dst : List ℕ} (hT : Tidy e) (hA : Accounted e')
    (hm : Moves e.heap e'.heap src dst []) (hl : e'.latest = e.latest)
    (hev : e'.eventtype = e.eventtype) : Tidy e' :=
  ⟨hA, hT.ordered.moves hm hl hev⟩

/-- The reader goes to another point, which it may access. -/
theorem Tidy.reread {heap : Heap D} {r' : ℕ} (hT : Tidy e) (hR : Reader e i r c)
    (hm : Moves e.heap heap [r] [r'] []) (hs : c'.sequentialRead = true)
    (hl : c'.linked = true) (hr : c'.readIndex = some r')
    (hacc : c'.accessed = none ∨ c'.accessed = c'.readIndex) : Tidy (e.reread i heap c') :=
  hT.of_moves (hT.accounted.goesTo hR.record hR.sequential hR.linked hR.index hm hs hl hr hacc)
    hm rfl rfl

theorem reread_record {heap : Heap D} (hc : e.clients[i]? = some c) :
    (e.reread i heap c').clients[i]? = some c' := by
  have hlt := (List.getElem?_eq_some_iff.mp hc).1
  show (e.clients.set i c')[i]? = some c'
  rw [List.getElem?_set_self hlt]

theorem reread_pointsFrom {heap : Heap D} {src dst : List ℕ}
    (hm : Moves e.heap heap src dst []) : pointsFrom (e.reread i heap c') a = pointsFrom e a :=
  (@pointsFrom_moves _ e (e.reread i heap c') _ _ a) hm rfl rfl

theorem pointsFrom_suffix (hab : a ≤ b) (hb : b ≤ e.latest) :
    pointsFrom e b <:+ pointsFrom e a := by
  rw [pointsFrom_split hab hb]
  exact List.suffix_append _ _

@[simp] theorem pointsFrom_latest : pointsFrom e e.latest = [] := by simp [pointsFrom]

theorem Moves.node {h h' : Heap D} {src dst : List ℕ} (hm : Moves h h' src dst [])
    (hn : h a = some n) : ∃ k, h' a = some { n with readAccesses := k } := by
  obtain ⟨k, hk, -⟩ := (hm a).2 n hn
  exact ⟨k, by simpa using hk⟩

/-- The test for a reader. -/
def readerTest (e : UChannelEntry D) (i r : ℕ) : Bool :=
  (e.clients[i]?).any fun c =>
    c.sequentialRead && c.linked && c.readIndex = some r && c.accessed.isNone

theorem exists_reader_of_test (h : readerTest e i r = true) : ∃ c, Reader e i r c := by
  simp only [readerTest, Option.any_eq_true, Bool.and_eq_true, decide_eq_true_eq,
    Option.isNone_iff_eq_none] at h
  obtain ⟨c, hc, ⟨⟨hs, hl⟩, hr⟩, hidle⟩ := h
  exact ⟨c, hc, hs, hl, hr, hidle⟩

/-! ### Points and gaps -/

/-- A point that is no gap, and not the sentinel, is the first of the data points from there on. -/
theorem Tidy.pointsFrom_cons (hT : Tidy e) (hn : e.heap a = some n) (ha : a < e.latest)
    (hz : n.seqId ≠ 0) :
    ∃ ts, actualTime e.heap n e.eventtype = .ok ts ∧ ts.1 = n.timeOrTimeEnd ∧
      pointsFrom e a = (ts, n.data) :: pointsFrom e (a + 1) := by
  have hr := hT.linked.mem_range hn
  obtain ⟨m, hm⟩ := hT.linked.exists_node (a := a + 1) (by omega) ha
  have hpoint : pointAt e a =
      some ((n.timeOrTimeEnd, if e.eventtype then n.timeOrTimeEnd else m.timeOrTimeEnd),
        n.data) := by
    rw [pointAt, hn, hm]
    dsimp only
    rw [if_neg hz]
  refine ⟨_, ?_, rfl, by rw [Entry.pointsFrom_cons ha, hpoint]; rfl⟩
  rw [actualTime]
  cases hev : e.eventtype with
  | true => rfl
  | false =>
    rw [if_neg Bool.false_ne_true, if_neg Bool.false_ne_true]
    exact bind_eq_ok.mpr ⟨a + 1, follow_eq_ok.mpr (hT.linked.newer_of_lt hn ha),
      bind_eq_ok.mpr ⟨m, deref_eq_ok.mpr hm, rfl⟩⟩

/-- Behind a gap there is a point with an id, and the data points are those behind it. -/
theorem Tidy.behind_gap (hT : Tidy e) (hn : e.heap a = some n) (hz : n.seqId = 0) :
    a < e.latest ∧ pointsFrom e a = pointsFrom e (a + 1) ∧
      ∃ m, e.heap (a + 1) = some m ∧ m.seqId ≠ 0 := by
  have hr := hT.linked.mem_range hn
  have hlt : a < e.latest := by
    rcases Nat.lt_or_ge a e.latest with h | h
    · exact h
    · obtain rfl : a = e.latest := by omega
      exact absurd hz (hT.ordered.last n hn).2.1
  obtain ⟨m, hm⟩ := hT.linked.exists_node (a := a + 1) (by omega) hlt
  refine ⟨hlt, ?_, m, hm, fun hmz => (hT.ordered.gap a n m hn hm hmz).1 hz⟩
  have hnone : pointAt e a = none := by
    have := pointAt_isSome hT.linked hn hlt
    simpa [hz] using this
  rw [Entry.pointsFrom_cons hlt, hnone]
  rfl

/-- The id of a node tells how many data points there are from it on. -/
theorem Tidy.seqId_add (hT : Tidy e) (hl : e.heap e.latest = some m) (hn : e.heap a = some n)
    (hz : n.seqId ≠ 0) : n.seqId + (pointsFrom e a).length = m.seqId := by
  rcases (hT.linked.mem_range hn).2.lt_or_eq with hlt | rfl
  · obtain ⟨ts, -, -, hcons⟩ := hT.pointsFrom_cons hn hlt hz
    rw [hcons, List.length_cons]
    exact seqId_add_length hT.linked hT.ordered hl hn hlt hz
  · rw [pointsFrom_latest, ← Option.some.inj (hn.symm.trans hl)]
    rfl

/-- The difference of two ids is the number of data points between the nodes. -/
theorem Tidy.idDifference_eq (hT : Tidy e) (hab : a ≤ b) (hn : e.heap a = some n)
    (hz : n.seqId ≠ 0) (hm : e.heap b = some m) (hmz : m.seqId ≠ 0) :
    idDifference m.seqId n.seqId + (pointsFrom e b).length = (pointsFrom e a).length ∧
      (pointsFrom e a).length < 4294967296 := by
  obtain ⟨l, hl⟩ := hT.linked.exists_latest
  have hsmall := (hT.ordered.last l hl).2.2
  have h₁ := hT.seqId_add hl hn hz
  have h₂ := hT.seqId_add hl hm hmz
  have hle := (@pointsFrom_suffix D e a b hab (hT.linked.mem_range hm).2).length_le
  have hdiff : idDifference m.seqId n.seqId = m.seqId - n.seqId := by
    rw [idDifference, show m.seqId + 4294967296 - n.seqId =
      (m.seqId - n.seqId) + 4294967296 by omega, Nat.add_mod_right]
    exact Nat.mod_eq_of_lt (by omega)
  omega

/-- The points from a later node on are those that the difference of the ids leaves. -/
theorem Tidy.pointsFrom_drop (hT : Tidy e) (hab : a ≤ b) (hn : e.heap a = some n)
    (hz : n.seqId ≠ 0) (hm : e.heap b = some m) (hmz : m.seqId ≠ 0) :
    pointsFrom e b = (pointsFrom e a).drop (idDifference m.seqId n.seqId) := by
  have hlen := (hT.idDifference_eq hab hn hz hm hmz).1
  rw [List.suffix_iff_eq_drop.mp (@pointsFrom_suffix D e a b hab (hT.linked.mem_range hm).2)]
  congr 1
  omega

/-- The point before the first one looks like a gap. -/
theorem Tidy.seqId_zero (hT : Tidy e) (hn : e.heap 0 = some n) : n.seqId = 0 := by
  have hlt := hT.linked.cleanup_lt
  have hle := hT.linked.oldest_le
  have hr := hT.linked.mem_range hn
  obtain ⟨m, hm⟩ := hT.linked.exists_node (a := 1) (by omega) (by omega)
  have hone := (hT.ordered.first 1 m hm).mpr rfl
  by_contra hz
  have := hT.ordered.seq_succ 0 n m hn hm hz (by omega)
  omega

/-- The last point before the sentinel is a data point, unless it is the one before the first. -/
theorem Tidy.last_point (hT : Tidy e) (hn : e.heap (e.latest - 1) = some n)
    (hlt : 1 < e.latest) : n.seqId ≠ 0 := by
  intro hz
  rcases hT.ordered.gap_lt _ n hn hz with h | h <;> omega

/-- Stepping over a gap goes through, and leaves the same points. -/
theorem Tidy.skipGap (hT : Tidy e) (hn : e.heap a = some n) :
    ∃ heap b m, skipGap e.heap a = .ok (heap, b) ∧ Moves e.heap heap [a] [b] [] ∧
      e.heap b = some m ∧ m.seqId ≠ 0 ∧ pointsFrom e b = pointsFrom e a ∧ a ≤ b ∧
      (n.seqId ≠ 0 ∧ b = a ∨ n.seqId = 0 ∧ b = a + 1) := by
  by_cases hz : n.seqId = 0
  · obtain ⟨hlt, hpoints, m, hm, hmz⟩ := hT.behind_gap hn hz
    have hr := hT.linked.mem_range hn
    have hskip : ∃ heap, Entry.skipGap e.heap a = .ok (heap, a + 1) := by
      have holder := hT.linked.older_eq (a + 1) m hm (by omega)
      simp only [Entry.skipGap, bind_eq_ok, deref_eq_ok, hn, Option.some.injEq, exists_eq_left']
      rw [if_pos hz]
      have hinc : incrementReadAccess e.heap (a + 1) =
          .ok (store e.heap (a + 1) m.increment) := modifyAt_eq_ok.mpr ⟨m, hm, rfl⟩
      have hdec : releaseReadAccess (store e.heap (a + 1) m.increment) a =
          .ok (store (store e.heap (a + 1) m.increment) a n.decrement) :=
        modifyAt_eq_ok.mpr ⟨n, by rw [store_of_ne (by omega)]; exact hn, rfl⟩
      rw [Nat.add_sub_cancel] at holder
      exact ⟨_, bind_eq_ok.mpr ⟨a + 1, follow_eq_ok.mpr (hT.linked.newer_of_lt hn hlt),
        bind_eq_ok.mpr ⟨_, hinc, bind_eq_ok.mpr ⟨m.increment, deref_eq_ok.mpr (store_self ..),
          bind_eq_ok.mpr ⟨a, follow_eq_ok.mpr holder, bind_eq_ok.mpr ⟨_, hdec, rfl⟩⟩⟩⟩⟩⟩
    obtain ⟨heap, hskip⟩ := hskip
    exact ⟨heap, a + 1, m, hskip, (skipGap_moves hT.linked hn hskip).1, hm, hmz, hpoints.symm,
      Nat.le_succ a, .inr ⟨hz, rfl⟩⟩
  · have hskip : Entry.skipGap e.heap a = .ok (e.heap, a) := by
      simp only [Entry.skipGap, bind_eq_ok, deref_eq_ok, hn, Option.some.injEq, exists_eq_left']
      rw [if_neg hz]
      rfl
    exact ⟨e.heap, a, n, hskip, Moves.refl _ _, hn, hz, rfl, le_rfl, .inl ⟨hz, rfl⟩⟩

/-- The way back ends at the last point before `a` that passes the test, or at `stop`. -/
theorem spinBack_spec {late : UChannelEntryData D → Bool} {stop fuel : ℕ} (hL : Linked e)
    (hstop : e.cleanup ≤ stop) (hle : stop ≤ a) (ha : a ≤ e.latest) (hf : a - stop < fuel) :
    ∃ b, spinBack e.heap late stop fuel a = .ok b ∧ stop ≤ b ∧ b ≤ a ∧
      (∀ x n, b < x → x ≤ a → e.heap x = some n → late n = true) ∧
      (b ≠ stop → ∀ n, e.heap b = some n → late n = false) := by
  induction fuel generalizing a with
  | zero => omega
  | succ fuel ih =>
    obtain ⟨n, hn⟩ := hL.exists_node (hstop.trans hle) ha
    by_cases hgo : (late n && a ≠ stop) = true
    · rw [Bool.and_eq_true, decide_eq_true_eq] at hgo
      obtain ⟨b, hb, h₁, h₂, hafter, hat⟩ := @ih (a - 1) (by omega) (by omega) (by omega)
      refine ⟨b, ?_, h₁, by omega, fun x m hx hxa hm => ?_, hat⟩
      · rw [spinBack]
        refine bind_eq_ok.mpr ⟨n, deref_eq_ok.mpr hn, ?_⟩
        rw [if_pos (by simpa using hgo)]
        exact bind_eq_ok.mpr ⟨a - 1, follow_eq_ok.mpr (hL.older_eq a n hn (by omega)), hb⟩
      · rcases Nat.lt_or_ge (a - 1) x with h | h
        · obtain rfl : x = a := by omega
          rw [← Option.some.inj (hn.symm.trans hm)]
          exact hgo.1
        · exact hafter x m hx h hm
    · refine ⟨a, ?_, hle, le_rfl, fun x m hx hxa => by omega, fun hne m hm => ?_⟩
      · rw [spinBack]
        refine bind_eq_ok.mpr ⟨n, deref_eq_ok.mpr hn, ?_⟩
        rw [if_neg hgo]
        rfl
      · rw [← Option.some.inj (hn.symm.trans hm)]
        simpa [hne] using hgo

/-! ### One read -/

/-- A reader gets what there is in its first unread point, unless there is none or it is too
late. -/
theorem Tidy.accessData_eq {t : ℕ} (hT : Tidy e) (hR : Reader e i r c) (hv : e.valid = true) :
    ∃ heap c' res r', accessData e c t = .ok (heap, c', res) ∧
      Tidy (e.reread i heap c') ∧ Moves e.heap heap [r] [r'] [] ∧
      pointsFrom (e.reread i heap c') r' = pointsFrom e r ∧ 0 < r' ∧
      r' = (if atGap e r then r + 1 else r) ∧
      ((res = none ∧ Reader (e.reread i heap c') i r' c' ∧
          ∀ p ∈ (pointsFrom e r).head?, t < p.1.1) ∨
        ∃ ts d, res = d.map (Prod.mk ts) ∧ Accesses (e.reread i heap c') i r' c' ∧
          r' < e.latest ∧ ts.1 ≤ t ∧
          pointsFrom e r = (ts, d) :: pointsFrom (e.reread i heap c') (r' + 1)) := by
  obtain ⟨n₀, hn₀, -⟩ := hR.exists_node hT
  obtain ⟨heap, b, m, hskip, hm, hb, hz, hpoints, hle, hcase⟩ := hT.skipGap hn₀
  have hpos : 0 < b := by
    rcases hcase with ⟨hz₀, rfl⟩ | ⟨-, rfl⟩
    · rcases Nat.eq_zero_or_pos b with rfl | h
      · exact absurd (hT.seqId_zero hn₀) hz₀
      · exact h
    · exact Nat.succ_pos r
  -- the reader after the gap
  let c₁ : Client := { c with readIndex := some b }
  have hT₁ : Tidy (e.reread i heap c₁) :=
    hT.reread hR hm hR.sequential hR.linked rfl (.inl hR.idle)
  have hR₁ : Reader (e.reread i heap c₁) i b c₁ :=
    ⟨reread_record hR.record, hR.sequential, hR.linked, rfl, hR.idle⟩
  obtain ⟨n, hn, hcount⟩ := hR₁.exists_node hT₁
  have hn : heap b = some n := hn
  have hsame : n.seqId = m.seqId := by
    obtain ⟨k, hk⟩ := hm.node hb
    rw [hn] at hk
    rw [Option.some.inj hk]
  have hstart : accessData e c t =
      if n.newer.isSome && n.beforeTick t then
        getSequentialData heap b { c₁ with seqId := n.seqId } e.eventtype >>=
          fun x => pure (heap, x.1, x.2)
      else pure (heap, c₁, none) := by
    have hseq : accessData e c t = accessSequential e c t := by
      rw [accessData, hv, if_neg (by simp), if_pos hR.sequential]
    rw [hseq, accessSequential, hR.index]
    simp only [follow, bind, Except.bind, hskip, deref, hn]
    rfl
  rw [hstart]
  have hpts : pointsFrom (e.reread i heap c₁) b = pointsFrom e r :=
    (reread_pointsFrom hm).trans hpoints
  have hlatest : n.newer.isSome ↔ b < e.latest := by
    have hr := hT₁.linked.mem_range hn
    have hle : b ≤ e.latest := hr.2
    rw [hT₁.linked.newer_eq b n hn]
    show (if b = e.latest then none else some (b + 1)).isSome ↔ _
    split
    · simp [*]
    · simp only [Option.isSome_some, true_iff]
      omega
  have hidx : b = if atGap e r then r + 1 else r := by
    have hgap : atGap e r = decide (n₀.seqId = 0) := by simp [atGap, hn₀]
    rcases hcase with ⟨hz₀, hb⟩ | ⟨hz₀, hb⟩
    · rw [hgap, decide_eq_false hz₀, hb]
      rfl
    · rw [hgap, decide_eq_true hz₀, hb]
      rfl
  by_cases hgo : b < e.latest ∧ n.timeOrTimeEnd ≤ t
  · have htest : (n.newer.isSome && n.beforeTick t) = true := by
      rw [Bool.and_eq_true, beforeTick, decide_eq_true_eq]
      exact ⟨hlatest.mpr hgo.1, hgo.2⟩
    obtain ⟨ts, hts, hts₁, hcons⟩ := hT₁.pointsFrom_cons hn hgo.1 (hsame ▸ hz)
    let c' : Client := { c₁ with seqId := n.seqId, accessed := some b }
    have hget : getSequentialData heap b { c₁ with seqId := n.seqId } e.eventtype =
        .ok (c', n.data.map (Prod.mk ts)) := by
      have hidle : ({ c₁ with seqId := n.seqId } : Client).accessed.isNone = true := by
        show c.accessed.isNone = true
        rw [hR.idle]
        rfl
      have hts : actualTime heap n e.eventtype = .ok ts := hts
      simp only [getSequentialData, bind_eq_ok, require_eq_ok, deref_eq_ok, pure_eq_ok]
      exact ⟨(), hidle, n, hn, (), hlatest.mpr hgo.1, (), decide_eq_true hcount, ts, hts, rfl⟩
    refine ⟨heap, c', n.data.map (Prod.mk ts), b, ?_, ?_, hm,
      (reread_pointsFrom hm).trans hpoints, hpos, hidx,
      .inr ⟨ts, n.data, rfl, ?_, hgo.1, hts₁ ▸ hgo.2, ?_⟩⟩
    · rw [if_pos htest]
      exact bind_eq_ok.mpr ⟨_, hget, rfl⟩
    · exact hT.reread hR hm hR.sequential hR.linked rfl (.inr rfl)
    · exact ⟨reread_record hR.record, hR.sequential, hR.linked, rfl, rfl⟩
    · rw [← hpts, hcons]
      congr 1
  · have htest : ¬ (n.newer.isSome && n.beforeTick t) = true := by
      rw [Bool.and_eq_true, beforeTick, decide_eq_true_eq, hlatest]
      exact hgo
    refine ⟨heap, c₁, none, b, ?_, hT₁, hm, hpts, hpos, hidx, .inl ⟨rfl, hR₁, fun p hp => ?_⟩⟩
    · rw [if_neg htest]
      rfl
    · rw [← hpts] at hp
      by_cases hlt : b < e.latest
      · obtain ⟨ts, -, hts₁, hcons⟩ := hT₁.pointsFrom_cons hn hlt (hsame ▸ hz)
        rw [hcons, List.head?_cons, Option.mem_some_iff] at hp
        rw [← hp, hts₁]
        omega
      · have hle : b ≤ e.latest := (hT₁.linked.mem_range hn).2
        have hnil : pointsFrom (e.reread i heap c₁) b = [] := by
          obtain rfl : b = e.latest := by omega
          exact pointsFrom_latest
        rw [hnil] at hp
        cases hp

/-- The reader gives its point back, and goes on. -/
theorem Tidy.releaseData_eq (hT : Tidy e) (hH : Accesses e i r c) (hlt : r < e.latest) :
    ∃ heap c', releaseData e c = .ok (heap, c') ∧ Tidy (e.reread i heap c') ∧
      Moves e.heap heap [r] [r + 1] [] ∧ Reader (e.reread i heap c') i (r + 1) c' := by
  have hheld := mem_holdings_reader hH.record hH.sequential hH.linked hH.index
  obtain ⟨n, hn⟩ := hT.accounted.counted.exists_held hheld
  have hr := hT.linked.mem_range hn
  obtain ⟨m, hm⟩ := hT.linked.exists_node (a := r + 1) (by omega) hlt
  have hinc : incrementReadAccess e.heap (r + 1) = .ok (store e.heap (r + 1) m.increment) :=
    modifyAt_eq_ok.mpr ⟨m, hm, rfl⟩
  have hdec : releaseReadAccess (store e.heap (r + 1) m.increment) r =
      .ok (store (store e.heap (r + 1) m.increment) r n.decrement) :=
    modifyAt_eq_ok.mpr ⟨n, by rw [store_of_ne (by omega)]; exact hn, rfl⟩
  have hrel : releaseData e c = .ok (store (store e.heap (r + 1) m.increment) r n.decrement,
      { c with readIndex := some (r + 1), accessed := none }) := by
    rw [releaseData, if_pos hH.sequential, hH.index]
    simp only [follow, deref, hn, bind, Except.bind, hT.linked.newer_of_lt hn hlt, hinc,
      returnData, hH.accessed, hdec]
    rfl
  obtain ⟨a, ha, ⟨-, r', k, b, hr', hk, hb, hmoves, -⟩ | ⟨hs, -⟩⟩ := releaseData_cases hrel
  · obtain rfl := Option.some.inj (hH.accessed.symm.trans ha)
    obtain rfl := Option.some.inj (hH.index.symm.trans hr')
    obtain rfl := Option.some.inj (hn.symm.trans hk)
    obtain rfl := Option.some.inj ((hT.linked.newer_of_lt hn hlt).symm.trans hb)
    refine ⟨_, _, hrel, ?_, hmoves, reread_record hH.record, hH.sequential, hH.linked, rfl, rfl⟩
    exact hT.of_moves (hT.accounted.releaseData hH.record hH.linked hrel) hmoves rfl rfl
  · rw [hH.sequential] at hs
    cases hs

end Dueca.Entry
