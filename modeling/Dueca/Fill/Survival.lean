import Dueca.Fill.Packing

/-!
# The bulk packer and what it cannot send

As long as the work is for entries that are there, with sets that fit in an empty store,
all of it is packed after a number of messages. A set that does not fit in an empty store
is thrown out, but it leaves that store choked and empty. Only a store with something in
it is sent, and only then the other one is reused, so that nothing is packed any more.
-/

namespace Dueca.Fill

open Dueca.Lib

variable {code : ChannelCode} {sendId : Bool} {p q r : FillPacker code} {u : PackUnit code}
variable {us work : List (PackUnit code)} {size : ℕ}

/-! ### The statement -/

/-- What happens to a packer: there is work for it, it packs, or it fills a message of
`size` bytes. -/
inductive PackerEvent (code : ChannelCode)
  | notification (u : PackUnit code)
  | packWork
  | stuffMessage (size : ℕ)

/-- One step of the packer. -/
def packerStep (sendId : Bool) (p : FillPacker code) :
    PackerEvent code → Except Fault (FillPacker code)
  | .notification u => .ok { p with workQueue := p.workQueue ++ [u] }
  | .packWork => p.packWork
  | .stuffMessage size =>
    match p.stuffMessage sendId size with
    | .error e => .error e
    | .ok (q, _) => .ok q

/-- The work that an event brings. -/
def PackerEvent.brings : PackerEvent code → List (PackUnit code)
  | .notification u => [u]
  | _ => []

/-- The entry is there, and its set fits in an empty store. -/
def PackUnit.CanBeSent (capacity : ℕ) (u : PackUnit code) : Prop :=
  u.valid = true ∧ u.set.size ≤ capacity

instance (capacity : ℕ) (u : PackUnit code) : Decidable (u.CanBeSent capacity) :=
  inferInstanceAs (Decidable (_ ∧ _))

/-- The sets of the work that can be sent. -/
def sendable (capacity : ℕ) (us : List (PackUnit code)) : List PackedSet :=
  (us.filter fun u => u.CanBeSent capacity).map PackUnit.set

/-- The store that is filled is empty, and takes nothing. -/
def FillPacker.Stuck (p : FillPacker code) : Prop := p.fill.choked = true ∧ p.fill.getSize = 0

/-- What the packer has made of this work: what can be sent has been packed or waits, in the
order in which it came, and nothing else was taken off the queue. The store that is filled
holds whole sets, and it is not stuck. After a number of messages with room for a piece
all that can be sent has been packed. -/
structure Survives (sendId : Bool) (p : FillPacker code) (work : List (PackUnit code)) : Prop where
  waiting : p.workQueue <:+ work
  inOrder : p.packed ++ sendable p.bufferSize p.workQueue = sendable p.bufferSize work
  whole : p.fill.stor = bytesOf p.filling
  notStuck : ¬ p.Stuck
  goesOn : ∃ k, ∀ sizes : List ℕ, k ≤ sizes.countP (minFill ≤ ·) →
    ∃ q, exec (packerStep sendId) p (sizes.map .stuffMessage) = .ok q ∧
      q.packed = sendable p.bufferSize work

/-- The work that comes in can be sent. -/
def Sendable (p : FillPacker code) (e : PackerEvent code) : Prop :=
  ∀ u ∈ e.brings, u.CanBeSent p.bufferSize

theorem sendable_eq_map (h : ∀ u ∈ us, u.CanBeSent size) :
    sendable size us = us.map PackUnit.set := by
  rw [sendable, List.filter_eq_self.mpr fun u hu => decide_eq_true (h u hu)]

/-! ### Packing what fits -/

/-- An entry that is still valid does not stop the packing. -/
theorem packOneSet_valid {a : AmorphStore} {b : PackFault × AmorphStore} {u : PackUnit code}
    (hvalid : u.valid = true) (h : packOneSet a u = .error b) : b.1 = .boundary := by
  unfold packOneSet at h
  cases h₁ : a.packData u.set.channel.bytes with
  | error e =>
    rw [h₁] at h
    cases h
    exact (packData_eq_error h₁).1
  | ok a₁ =>
    rw [h₁] at h
    cases h₂ : a₁.startBigMark with
    | error e =>
      simp only [bind, Except.bind, h₂] at h
      cases h
      unfold AmorphStore.startBigMark at h₂
      split at h₂
      · rename_i e' he'
        cases h₂
        exact (packData_eq_error he').1
      · cases h₂
    | ok a₂ =>
      cases h₃ : u.packData a₂ with
      | error e =>
        simp only [bind, Except.bind, h₂, h₃] at h
        cases h
        rw [PackUnit.packData, if_pos hvalid] at h₃
        exact (packData_eq_error h₃).1
      | ok a₃ =>
        simp only [bind, Except.bind, h₂, h₃] at h
        cases h

/-- A set for which there is room is packed. -/
theorem packOneSet_of_room {s : AmorphStore} (hvalid : u.valid = true) (hchoked : s.choked = false)
    (hroom : s.getSize + u.set.size ≤ s.capacity) : ∃ t, packOneSet s u = .ok t := by
  have hsize : u.set.size = 7 + u.set.data.length := rfl
  have hid : u.set.channel.bytes.length = 3 := u.set.channel.length_bytes
  simp only [AmorphStore.getSize] at hroom
  have h₁ : s.packData u.set.channel.bytes =
      .ok { s with stor := s.stor ++ u.set.channel.bytes } :=
    packData_eq_ok.mpr ⟨hchoked, by simp only [AmorphStore.getSize]; omega, rfl⟩
  have h₂ : AmorphStore.packData { s with stor := s.stor ++ u.set.channel.bytes } [0, 0, 0, 0] =
      .ok { s with stor := s.stor ++ u.set.channel.bytes ++ [0, 0, 0, 0] } := by
    refine packData_eq_ok.mpr ⟨hchoked, ?_, rfl⟩
    simp only [AmorphStore.getSize, List.length_append, List.length_cons, List.length_nil]
    omega
  have h₃ (mark : ℕ) : ∃ t, AmorphStore.packData
      { s with
        stor := s.stor ++ u.set.channel.bytes ++ [0, 0, 0, 0]
        markPoint := mark } u.set.data = .ok t := by
    refine ⟨_, packData_eq_ok.mpr ⟨hchoked, ?_, rfl⟩⟩
    simp only [AmorphStore.getSize, List.length_append, List.length_cons, List.length_nil]
    omega
  obtain ⟨t, ht⟩ := h₃ (s.stor ++ u.set.channel.bytes).length
  refine ⟨t.endBigMark, ?_⟩
  simp only [packOneSet, h₁, bind, Except.bind, AmorphStore.startBigMark, h₂, PackUnit.packData,
    hvalid, if_true, AmorphStore.getSize, ht, pure, Except.pure]

namespace FillPacker

/-- What is kept while only work comes in that can be sent. -/
structure Sound (p : FillPacker code) : Prop where
  stored : p.Stored
  canBeSent : ∀ u ∈ p.workQueue, u.CanBeSent p.bufferSize
  notStuck : p.fill.choked = true → p.filling ≠ []

/-- From `p` to `q` this work came in, and what was taken off the queue has been packed. -/
structure Advances (work : List (PackUnit code)) (p q : FillPacker code) : Prop where
  bufferSize : q.bufferSize = p.bufferSize
  waiting : q.workQueue <:+ p.workQueue ++ work
  inOrder : q.packed ++ q.workQueue.map PackUnit.set =
    p.packed ++ (p.workQueue ++ work).map PackUnit.set

theorem Advances.trans {work' : List (PackUnit code)} (h : Advances work p q)
    (h' : Advances work' q r) : Advances (work ++ work') p r := by
  refine ⟨h'.bufferSize.trans h.bufferSize, ?_, ?_⟩
  · obtain ⟨done, hdone⟩ := h.waiting
    refine h'.waiting.trans ⟨done, ?_⟩
    rw [← List.append_assoc, hdone, List.append_assoc]
  · rw [h'.inOrder, List.map_append, ← List.append_assoc, h.inOrder]
    simp only [List.map_append, List.append_assoc]

theorem advances_of_kept (hsize : q.bufferSize = p.bufferSize)
    (hqueue : q.workQueue = p.workQueue) (hpacked : q.packed = p.packed) : Advances [] p q := by
  refine ⟨hsize, ?_, ?_⟩
  · exact ⟨[], by simp only [hqueue, List.nil_append, List.append_nil]⟩
  · rw [hqueue, hpacked, List.append_nil]

/-- Work that can be sent is packed until the store is full; an empty store takes at least
one set. -/
theorem packUnits_of_canBeSent (hp : p.Stored) (hchoked : p.fill.choked = true → p.filling ≠ [])
    (hus : ∀ u ∈ us, u.CanBeSent p.bufferSize) :
    ∃ q done, packUnits p us = .ok q ∧ us = done ++ q.workQueue ∧
      q.filling = p.filling ++ done.map PackUnit.set ∧ (q.fill.choked = true → q.filling ≠ []) ∧
      (us ≠ [] → p.filling = [] → done ≠ []) := by
  induction us generalizing p with
  | nil => exact ⟨_, [], rfl, rfl, (List.append_nil _).symm, hchoked, fun h => absurd rfl h⟩
  | cons u us ih =>
    by_cases hfull : p.fill.choked = true
    · refine ⟨{ p with workQueue := u :: us }, [], ?_, rfl, (List.append_nil _).symm, hchoked,
        fun _ hempty => absurd hempty (hchoked hfull)⟩
      rw [packUnits, if_pos hfull]
    cases hone : packOneSet p.fill u with
    | ok s =>
      obtain ⟨q, done, hq, rfl, hfilling, hnot, -⟩ := ih (hp.packOne hone)
        (fun _ => List.append_ne_nil_of_right_ne_nil _ (List.cons_ne_nil _ _))
        fun v hv => hus v (List.mem_cons_of_mem u hv)
      refine ⟨q, u :: done, ?_, rfl, ?_, hnot, fun _ _ => List.cons_ne_nil _ _⟩
      · rw [packUnits, if_neg hfull, hone]
        exact hq
      · rw [hfilling, List.map_cons, List.append_assoc, List.singleton_append]
    | error b =>
      obtain ⟨f, s⟩ := b
      obtain ⟨hvalid, hsize⟩ := hus u List.mem_cons_self
      obtain rfl : f = .boundary := packOneSet_valid hvalid hone
      -- an empty store had room for the set
      have hsome : p.fill.getSize ≠ 0 := by
        intro hempty
        have hroom : p.fill.getSize + u.set.size ≤ p.fill.capacity := by
          rw [hempty, show p.fill.capacity = p.bufferSize from hp.capacity _]
          omega
        obtain ⟨t, ht⟩ := packOneSet_of_room hvalid (Bool.not_eq_true _ ▸ hfull) hroom
        cases hone.symm.trans ht
      have hfilling : p.filling ≠ [] := fun h => hsome (hp.filling_eq_nil.mp h)
      refine ⟨{ p.setFill (s.setSize p.fill.getSize) with workQueue := u :: us }, [], ?_, rfl,
        (List.append_nil _).symm, fun _ => hfilling, fun _ h => absurd h hfilling⟩
      rw [packUnits, if_neg hfull, hone]
      exact if_neg hsome

theorem Sound.packWork (h : p.Sound) :
    ∃ q, p.packWork = .ok q ∧ q.Sound ∧ p.SameSending q ∧ Advances [] p q ∧
      ∃ done, p.workQueue = done ++ q.workQueue ∧ q.filling = p.filling ++ done.map PackUnit.set ∧
        (p.workQueue ≠ [] → p.filling = [] → done ≠ []) := by
  obtain ⟨q, done, hq, hqueue, hfilling, hnot, hsome⟩ :=
    packUnits_of_canBeSent h.stored h.notStuck h.canBeSent
  obtain ⟨hstored, hsame, -⟩ := packUnits_spec h.stored hq
  refine ⟨q, hq, ⟨hstored, fun u hu => ?_, hnot⟩, hsame, ⟨hsame.bufferSize, ?_, ?_⟩, done, hqueue,
    hfilling, hsome⟩
  · rw [hsame.bufferSize]
    exact h.canBeSent u (hqueue ▸ List.mem_append_right _ hu)
  · rw [List.append_nil]
    exact ⟨done, hqueue.symm⟩
  · rw [packed, packed, hsame.before, hsame.sending, hfilling, hqueue]
    simp only [List.append_assoc, List.append_nil, List.map_append]

theorem Sound.startStore (h : p.Sound) : p.startStore.Sound ∧ Advances [] p p.startStore := by
  have hstored := h.stored.startStore
  by_cases hcase : p.bytesToSend ≠ 0 ∨ p.filling = []
  · rw [startStore_same h.stored hcase]
    exact ⟨h, advances_of_kept rfl rfl rfl⟩
  obtain ⟨hnone, hfill⟩ := not_or.mp hcase
  rw [startStore_eq h.stored (not_not.mp hnone) hfill] at hstored ⊢
  refine ⟨⟨hstored, h.canBeSent, ?_⟩, advances_of_kept rfl rfl (List.append_nil _)⟩
  -- the store that is filled now was reused
  simp [fill, AmorphStore.reUse]

/-! ### Messages -/

/-- A bound on the number of messages until the queue is empty: each message sends a part
of a store, or takes the next one, or packs a set. -/
def waits (p : FillPacker code) : ℕ :=
  if p.workQueue = [] then 0
  else p.workQueue.length * (2 * (p.bufferSize + 1)) +
    (if p.filling = [] then 0 else p.bufferSize + 1) + p.bytesToSend

theorem waits_nil (h : p.workQueue = []) : p.waits = 0 := if_pos h

theorem waits_of_ne (h : p.workQueue ≠ []) : p.waits =
    p.workQueue.length * (2 * (p.bufferSize + 1)) +
      (if p.filling = [] then 0 else p.bufferSize + 1) + p.bytesToSend := if_neg h

theorem workQueue_of_waits (h : p.waits = 0) : p.workQueue = [] := by
  by_contra hne
  have hpos : 0 < p.workQueue.length * (2 * (p.bufferSize + 1)) :=
    Nat.mul_pos (List.length_pos_iff.mpr hne) (by omega)
  rw [waits_of_ne hne] at h
  omega

theorem Stored.bytesToSend_le (h : p.Stored) : p.bytesToSend ≤ p.bufferSize := by
  by_cases hnone : p.bytesToSend = 0
  · omega
  · have := (h.send hnone).2.2
    have := h.within p.storeToSend
    simp only [FillPacker.send] at *
    omega

/-- Packing a set outweighs what this adds to a store. -/
theorem waits_lt_of_packed (hq : q.Stored) (hsize : q.bufferSize = p.bufferSize)
    (hlt : q.workQueue.length < p.workQueue.length) : q.waits < p.waits := by
  have hne : p.workQueue ≠ [] := List.ne_nil_of_length_pos (Nat.zero_lt_of_lt hlt)
  have hle : (q.workQueue.length + 1) * (2 * (p.bufferSize + 1)) ≤
      p.workQueue.length * (2 * (p.bufferSize + 1)) := Nat.mul_le_mul_right _ hlt
  have hbytes := hq.bytesToSend_le
  rw [Nat.succ_mul] at hle
  rw [waits_of_ne hne]
  by_cases hnil : q.workQueue = []
  · rw [waits_nil hnil]
    omega
  · rw [waits_of_ne hnil, hsize]
    split <;> omega

theorem startStore_workQueue (p : FillPacker code) : p.startStore.workQueue = p.workQueue := by
  unfold FillPacker.startStore
  split <;> rfl

theorem startStore_waits (h : p.Stored) (hfill : p.filling ≠ []) (hne : p.workQueue ≠ []) :
    p.startStore.waits ≤ p.waits ∧ (p.bytesToSend = 0 → p.startStore.waits < p.waits) := by
  by_cases hnone : p.bytesToSend = 0
  · have hwithin : p.fill.getSize ≤ p.bufferSize := h.within _
    have hnext : p.startStore.filling = [] ∧ p.startStore.bytesToSend = p.fill.getSize ∧
        p.startStore.bufferSize = p.bufferSize := by
      rw [startStore_eq h hnone hfill]
      exact ⟨rfl, rfl, rfl⟩
    obtain ⟨hempty, hbytes, hsize⟩ := hnext
    have hwork := p.startStore_workQueue
    rw [waits_of_ne (hwork ▸ hne), waits_of_ne hne, hwork, if_pos hempty, if_neg hfill, hbytes,
      hsize]
    omega
  · rw [startStore_same h (.inl hnone)]
    exact ⟨Nat.le_refl _, fun hzero => absurd hzero hnone⟩

theorem cut_waits (hsize : minFill ≤ size) (hbytes : p.bytesToSend ≠ 0) (hne : p.workQueue ≠ []) :
    (p.cut sendId size).1.waits < p.waits := by
  have htag : tagSize sendId ≤ 5 := by cases sendId <;> decide
  have hnext : (p.cut sendId size).1.waits = p.workQueue.length * (2 * (p.bufferSize + 1)) +
      (if p.filling = [] then 0 else p.bufferSize + 1) +
      (p.bytesToSend - min (size - tagSize sendId) p.bytesToSend) := waits_of_ne hne
  rw [hnext, waits_of_ne hne]
  simp only [minFill] at hsize
  omega

/-- After the store is taken, a message sends a piece of it if there is room. -/
theorem packerStep_stuffMessage (sendId : Bool) (hq : p.packWork = .ok q) (size : ℕ) :
    ∃ r, packerStep sendId p (.stuffMessage size) = .ok r ∧
      (r = q.startStore ∧ (q.startStore.bytesToSend = 0 ∨ size < minFill) ∨
        r = (q.startStore.cut sendId size).1 ∧ q.startStore.bytesToSend ≠ 0 ∧ minFill ≤ size) := by
  by_cases hcut : q.startStore.bytesToSend = 0 ∨ size < minFill
  · refine ⟨q.startStore, ?_, .inl ⟨rfl, hcut⟩⟩
    simp only [packerStep, FillPacker.stuffMessage, hq, if_pos hcut]
  · refine ⟨(q.startStore.cut sendId size).1, ?_, .inr ⟨rfl, ?_⟩⟩
    · simp only [packerStep, FillPacker.stuffMessage, hq, if_neg hcut]
    · omega

/-- One message: it goes on with the queue. -/
theorem Sound.stuffMessage (h : p.Sound) (sendId : Bool) (size : ℕ) :
    ∃ r, packerStep sendId p (.stuffMessage size) = .ok r ∧ r.Sound ∧ Advances [] p r ∧
      r.waits ≤ p.waits ∧ (minFill ≤ size → p.workQueue ≠ [] → r.waits < p.waits) := by
  obtain ⟨q, hq, hsound, hsame, hadvances, done, hqueue, hfilling, hsome⟩ := h.packWork
  obtain ⟨hstart, hkept⟩ := hsound.startStore
  obtain ⟨r, hr, hcase⟩ := packerStep_stuffMessage sendId hq size
  have hlast : r.Sound ∧ Advances [] q.startStore r := by
    obtain ⟨rfl, -⟩ | ⟨rfl, -⟩ := hcase
    · exact ⟨hstart, advances_of_kept rfl rfl rfl⟩
    · exact ⟨⟨hstart.stored.cut size, hstart.canBeSent, hstart.notStuck⟩,
        advances_of_kept rfl rfl rfl⟩
  have hall : Advances [] p r := hadvances.trans (hkept.trans hlast.2)
  refine ⟨r, hr, hlast.1, hall, ?_⟩
  have hshort : r.workQueue.length ≤ q.workQueue.length := by
    simpa using (hkept.trans hlast.2).waiting.length_le
  by_cases hnil : p.workQueue = []
  · have hend := hall.waiting
    rw [hnil, List.append_nil, List.suffix_nil] at hend
    rw [waits_nil hend, waits_nil hnil]
    exact ⟨Nat.le_refl 0, fun _ hne => absurd hnil hne⟩
  cases done with
  | cons u done =>
    have hlt : r.waits < p.waits := by
      refine waits_lt_of_packed hlast.1.stored hall.bufferSize ?_
      rw [hqueue]
      simp only [List.cons_append, List.length_cons, List.length_append]
      omega
    exact ⟨Nat.le_of_lt hlt, fun _ _ => hlt⟩
  | nil =>
    -- nothing was packed, so that the store already held something
    have hfill : q.filling = p.filling := hfilling.trans (List.append_nil _)
    have hsomething : q.filling ≠ [] := fun hempty => hsome hnil (hfill ▸ hempty) rfl
    have hwork : q.workQueue = p.workQueue := hqueue.symm
    have hwaits : q.waits = p.waits := by
      rw [waits, waits, hwork, hfill, hsame.bufferSize, hsame.bytesToSend]
    obtain ⟨hle, hlt⟩ := startStore_waits hsound.stored hsomething (hwork ▸ hnil)
    have hrest : q.startStore.workQueue ≠ [] := by rwa [startStore_workQueue, hwork]
    rw [← hwaits]
    obtain ⟨rfl, hnot⟩ | ⟨rfl, hbytes, hsize⟩ := hcase
    · refine ⟨hle, fun hsize _ => hlt ?_⟩
      by_contra hsome'
      rw [startStore_same hsound.stored (.inl hsome')] at hnot
      omega
    · have hpiece : (q.startStore.cut sendId size).1.waits < q.waits :=
        Nat.lt_of_lt_of_le (cut_waits hsize hbytes hrest) hle
      exact ⟨Nat.le_of_lt hpiece, fun _ _ => hpiece⟩

/-- Enough messages pack all that waits. -/
theorem Sound.messages (h : p.Sound) (sendId : Bool) {sizes : List ℕ}
    (hwaits : p.waits ≤ sizes.countP (minFill ≤ ·)) :
    ∃ q, exec (packerStep sendId) p (sizes.map .stuffMessage) = .ok q ∧ Advances [] p q ∧
      q.workQueue = [] := by
  induction sizes generalizing p with
  | nil =>
    exact ⟨p, rfl, advances_of_kept rfl rfl rfl, workQueue_of_waits (Nat.le_zero.mp hwaits)⟩
  | cons size sizes ih =>
    obtain ⟨q, hq, hsound, hadvances, hle, hlt⟩ := h.stuffMessage sendId size
    have hcount : q.waits ≤ sizes.countP (minFill ≤ ·) := by
      rw [List.countP_cons] at hwaits
      by_cases hnil : p.workQueue = []
      · have := waits_nil hnil
        omega
      · by_cases hsize : minFill ≤ size
        · have := hlt hsize hnil
          rw [if_pos (decide_eq_true hsize)] at hwaits
          omega
        · rw [if_neg (by simpa using hsize)] at hwaits
          omega
    obtain ⟨r, hr, hrest, hempty⟩ := ih hsound hcount
    exact ⟨r, (exec_cons_ok hq).trans hr, hadvances.trans hrest, hempty⟩

/-! ### Runs -/

theorem Sound.step {e : PackerEvent code} (h : p.Sound) (sendId : Bool) (hok : Sendable p e) :
    ∃ q, packerStep sendId p e = .ok q ∧ q.Sound ∧ Advances e.brings p q := by
  cases e with
  | notification u =>
    obtain ⟨hcap, hwithin, hfill, hsend, hcodes, hsizes⟩ := h.stored
    refine ⟨_, rfl, ⟨⟨hcap, hwithin, hfill, hsend, hcodes, hsizes⟩, ?_, h.notStuck⟩, rfl,
      List.suffix_rfl, rfl⟩
    exact List.forall_mem_append.mpr ⟨h.canBeSent, hok⟩
  | packWork =>
    obtain ⟨q, hq, hsound, -, hadvances, -⟩ := h.packWork
    exact ⟨q, hq, hsound, hadvances⟩
  | stuffMessage size =>
    obtain ⟨q, hq, hsound, hadvances, -⟩ := h.stuffMessage sendId size
    exact ⟨q, hq, hsound, hadvances⟩

theorem Sound.run {events : List (PackerEvent code)} (h : p.Sound)
    (hok : Allowed (packerStep sendId) Sendable p events) :
    ∃ q, exec (packerStep sendId) p events = .ok q ∧ q.Sound ∧
      Advances (events.flatMap PackerEvent.brings) p q ∧
      ∀ u ∈ events.flatMap PackerEvent.brings, u.CanBeSent p.bufferSize := by
  induction events generalizing p with
  | nil => exact ⟨p, rfl, h, advances_of_kept rfl rfl rfl, nofun⟩
  | cons e events ih =>
    obtain ⟨q, hq, hsound, hadvances⟩ := h.step sendId hok.1
    obtain ⟨r, hr, hend, hrest, hwork⟩ := ih hsound (hok.2 q hq)
    refine ⟨r, (exec_cons_ok hq).trans hr, hend, hadvances.trans hrest, ?_⟩
    rw [hadvances.bufferSize] at hwork
    exact List.forall_mem_append.mpr ⟨hok.1, hwork⟩

end FillPacker

/-- A packer with two empty stores. -/
theorem sound_start (location : UInt8) (n : ℕ) :
    ({ location, bufferSize := n } : FillPacker code).Sound :=
  ⟨⟨fun _ => rfl, fun _ => Nat.zero_le _, rfl, fun h => absurd rfl h, nofun, nofun⟩, nofun, nofun⟩

/-- In every run in which the work that comes in can be sent, the packer goes on: no entry
stops it, and what waits is packed after a number of messages. -/
theorem survives_of_run (code : ChannelCode) (sendId : Bool) (location : UInt8) (n : ℕ)
    (events : List (PackerEvent code))
    (hok : Allowed (packerStep sendId) Sendable { location, bufferSize := n } events) :
    ∃ p, exec (packerStep sendId) { location, bufferSize := n } events = .ok p ∧
      Survives sendId p (events.flatMap PackerEvent.brings) := by
  obtain ⟨p, hp, hsound, hadvances, hwork⟩ := (sound_start location n).run hok
  have hsize : p.bufferSize = n := hadvances.bufferSize
  have hsets : sendable p.bufferSize (events.flatMap PackerEvent.brings) =
      p.packed ++ p.workQueue.map PackUnit.set := by
    rw [sendable_eq_map (hsize ▸ hwork)]
    exact hadvances.inOrder.symm
  refine ⟨p, hp, hadvances.waiting, ?_, hsound.stored.fill, ?_, p.waits, fun sizes hcount => ?_⟩
  · rw [sendable_eq_map hsound.canBeSent, hsets]
  · rintro ⟨hchoked, hempty⟩
    exact hsound.notStuck hchoked (hsound.stored.filling_eq_nil.mpr hempty)
  · obtain ⟨q, hq, hrest, hnil⟩ := hsound.messages sendId hcount
    refine ⟨q, hq, ?_⟩
    have hall := hrest.inOrder
    rw [hnil, List.map_nil, List.append_nil, List.append_nil] at hall
    rw [hall, hsets]

/-! ### Two runs -/

/-- Messages of any bytes, with a type and an entry number in front. -/
def anyCode : ChannelCode where
  Packs _ d := 3 ≤ d.length
  unPackData _ n _ := n
  header _ _ h := h
  takes _ _ _ _ := rfl

/-- A message of `n` bytes and three more, on channel 5. -/
def anyUnit (valid : Bool) (n : ℕ) : PackUnit anyCode where
  set := ⟨⟨1, 5⟩, List.replicate (n + 3) 0⟩
  valid := valid
  packs := Nat.le_trans (Nat.le_add_left 3 n) (Nat.le_of_eq List.length_replicate.symm)

/-- Two stores are filled and sent in three pieces. -/
def twoStores : List (PackerEvent anyCode) :=
  [.notification (anyUnit true 200), .notification (anyUnit true 100), .packWork,
    .stuffMessage 100, .notification (anyUnit true 7), .stuffMessage 200, .stuffMessage 20]

instance (p : FillPacker code) (e : PackerEvent code) : Decidable (Sendable p e) :=
  inferInstanceAs (Decidable (∀ u ∈ e.brings, u.CanBeSent p.bufferSize))

theorem survives_twoStores :
    ∃ p, exec (packerStep true) { location := 1, bufferSize := 256 } twoStores = .ok p ∧
      Survives true p (twoStores.flatMap PackerEvent.brings) :=
  survives_of_run anyCode true 1 256 twoStores
    (allowed_of_checks (fun _ _ h => of_decide_eq_true h) (by decide +kernel))

/-- A set of 310 bytes is thrown out, and leaves its store empty and choked. -/
theorem not_survives_too_large :
    ¬ ∀ (code : ChannelCode) (sendId : Bool) (location : UInt8) (n : ℕ)
        (events : List (PackerEvent code)),
      ∃ p, exec (packerStep sendId) { location, bufferSize := n } events = .ok p ∧
        Survives sendId p (events.flatMap PackerEvent.brings) := by
  intro hall
  obtain ⟨p, hp, hsurvives⟩ := hall anyCode true 1 256
    [.notification (anyUnit true 300), .notification (anyUnit true 7), .stuffMessage 1000]
  obtain ⟨q, hq, htest⟩ := exists_of_endsIn (packerStep true)
    ({ location := 1, bufferSize := 256 } : FillPacker anyCode)
    [.notification (anyUnit true 300), .notification (anyUnit true 7), .stuffMessage 1000]
    (fun p => p.fill.choked && p.fill.getSize = 0) (by decide +kernel)
  obtain rfl : p = q := Except.ok.inj (hp.symm.trans hq)
  exact hsurvives.notStuck (by simpa [FillPacker.Stuck] using htest)

/-! ### A set that is too large -/

/-- A set that is too large for an empty store is thrown out, and leaves the store choked. -/
theorem stuck_of_tooLarge {u : PackUnit code} {us : List (PackUnit code)}
    (hvalid : u.valid = true) (hchoked : p.fill.choked = false) (hempty : p.fill.getSize = 0)
    (hlarge : p.fill.capacity < u.set.size) (h : packUnits p (u :: us) = .ok q) :
    q.Stuck ∧ q.packed = p.packed ∧ q.tooLarge = p.tooLarge ++ [u.set] := by
  unfold packUnits at h
  rw [hchoked] at h
  simp only [Bool.false_eq_true, if_false] at h
  split at h
  · rename_i a ha
    have hroom := (packOneSet_eq_ok ha).2.1
    omega
  · rename_i a ha
    rw [if_pos hempty] at h
    cases h
    have hkept := packOneSet_boundary ha
    refine ⟨⟨?_, ?_⟩, rfl, rfl⟩
    · simpa [FillPacker.fill, FillPacker.setFill, AmorphStore.setSize] using hkept.2.2
    · have hsize : (a.setSize p.fill.getSize).getSize = 0 :=
        (congrArg List.length hkept.1).trans hempty
      simpa [FillPacker.fill, FillPacker.setFill] using hsize
  · rename_i a ha
    cases packOneSet_valid hvalid ha

theorem FillPacker.Stuck.packUnits {us : List (PackUnit code)} (hp : p.Stuck)
    (h : packUnits p us = .ok q) : q.Stuck ∧ q.packed = p.packed := by
  cases us with
  | nil =>
    cases h
    exact ⟨hp, rfl⟩
  | cons u us =>
    unfold Fill.packUnits at h
    rw [if_pos hp.1] at h
    cases h
    exact ⟨hp, rfl⟩

theorem FillPacker.Stuck.startStore (hp : p.Stuck) : p.startStore = p := by
  rw [FillPacker.startStore, if_neg fun h => h.2 hp.2]

/-- From then on nothing is packed, whatever work comes in. -/
theorem packed_of_stuck {events : List (PackerEvent code)} (h : p.Stuck)
    (hexec : exec (packerStep sendId) p events = .ok q) : q.Stuck ∧ q.packed = p.packed := by
  refine Reaches.invariant (I := fun r => r.Stuck ∧ r.packed = p.packed)
    (fun r e r' hr hstep => ?_) ⟨h, rfl⟩ ⟨events, hexec⟩
  obtain ⟨hstuck, hsame⟩ := hr
  cases e with
  | notification u =>
    cases hstep
    exact ⟨hstuck, hsame⟩
  | packWork =>
    obtain ⟨hstuck', hsame'⟩ := hstuck.packUnits hstep
    exact ⟨hstuck', hsame'.trans hsame⟩
  | stuffMessage size =>
    cases hpack : r.packWork with
    | error e => simp [packerStep, FillPacker.stuffMessage, hpack] at hstep
    | ok r₁ =>
      obtain ⟨hstuck₁, hsame₁⟩ := hstuck.packUnits hpack
      obtain ⟨r₂, hr₂, hcase⟩ := FillPacker.packerStep_stuffMessage sendId hpack size
      obtain rfl : r₂ = r' := Except.ok.inj (hr₂.symm.trans hstep)
      rw [hstuck₁.startStore] at hcase
      obtain ⟨rfl, -⟩ | ⟨rfl, -⟩ := hcase <;> exact ⟨hstuck₁, hsame₁.trans hsame⟩

/-- A set that is too large comes to an empty store. Nothing is packed from then on. -/
theorem packed_of_tooLarge {u : PackUnit code} {us : List (PackUnit code)}
    {events : List (PackerEvent code)} (hqueue : p.workQueue = u :: us) (hvalid : u.valid = true)
    (hchoked : p.fill.choked = false) (hempty : p.fill.getSize = 0)
    (hlarge : p.fill.capacity < u.set.size)
    (hexec : exec (packerStep sendId) p (.packWork :: events) = .ok q) :
    q.Stuck ∧ q.packed = p.packed := by
  obtain ⟨r, hr, hexec⟩ := exec_cons_eq_ok.mp hexec
  rw [packerStep, FillPacker.packWork, hqueue] at hr
  obtain ⟨hstuck, hsame, -⟩ := stuck_of_tooLarge hvalid hchoked hempty hlarge hr
  obtain ⟨hstuck', hsame'⟩ := packed_of_stuck hstuck hexec
  exact ⟨hstuck', hsame'.trans hsame⟩

theorem packed_of_tooLarge_small :
    ∃ q : FillPacker anyCode, q.workQueue.length = 1 ∧ q.Stuck ∧ q.packed = [] := by
  let p : FillPacker anyCode := { location := 1, bufferSize := 256, workQueue := [anyUnit true 300] }
  obtain ⟨q, hq, htest⟩ := exists_of_endsIn (packerStep true) p
    [.packWork, .notification (anyUnit true 7), .stuffMessage 1000]
    (fun q => q.workQueue.length = 1) (by decide +kernel)
  exact ⟨q, of_decide_eq_true htest,
    packed_of_tooLarge (p := p) rfl rfl rfl rfl (by decide +kernel) hq⟩

end Dueca.Fill
