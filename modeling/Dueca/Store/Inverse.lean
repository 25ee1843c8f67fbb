import Dueca.Store.Store

/-!
# Unpacking what has been packed

What is packed in a store is read back in the same order. The encodings of the items lie one behind
the other below the index, a call that throws changes nothing, and after it all calls throw until
the store is used again.

Marks are the exception. A mark of two bytes is peeked at with the conversion for four bytes, which
gives zero on a little-endian machine. `finishMark` throws for a size that the mark cannot hold,
and leaves the store open. `endMark` cuts off such a size. There is one place for the marks of
`startMark` and `startBigMark` together, which is lost when another one is started or ended.
-/

namespace Dueca.Store

open Dueca.Lib

/-! ### A store as it ought to be -/

/-- The bytes of an entry. -/
def Entry.bytes (stor : Bytes) (e : Entry) : Bytes :=
  e.item.encoding.getD (window stor e.pos e.item.size)

/-- The items are read back. -/
def ReadsBack (host : Host) : List Entry → AmorphReStore → Prop
  | [], r => r.index = r.stor.length
  | e :: log, r => ∃ v r', e.item.op.call host r = (.ok v, r') ∧ e.item.ReadsAs v ∧
      ReadsBack host log r'

/-- The data behind a mark are skipped, and their size is seen. -/
structure Skips (host : Host) (data : Bytes) (pos : ℕ) (ty : MarkType) (n : ℕ) : Prop where
  gobble : ty.size = 2 → gobble host ⟨data, pos, false⟩ = (.ok n, ⟨data, pos + 2 + n, false⟩)
  gobbleBig : ty.size = 4 →
    gobbleBig host ⟨data, pos, false⟩ = (.ok n, ⟨data, pos + 4 + n, false⟩)
  peekMark : ty.size = 2 → peekMark host ⟨data, pos, false⟩ = (.ok n, ⟨data, pos, false⟩)
  peekBigMark : ty.size = 4 → peekBigMark host ⟨data, pos, false⟩ = (.ok n, ⟨data, pos, false⟩)

/-- What has been packed is read back. -/
structure Inverse (host : Host) (p : Packing) : Prop where
  contents : p.store.stor.take p.store.index =
    (p.log.map (Entry.bytes p.store.stor)).flatten
  reads : ReadsBack host p.log (.start (p.store.stor.take p.store.index))
  marks : ∀ e ∈ p.log, ∀ ty n, e.item = .mark ty (some n) →
    Skips host (p.store.stor.take p.store.index) e.pos ty n

/-- A call that throws changes nothing, and after one that threw there are no others. -/
structure CallClean (host : Host) (p : Packing) (op : PackOp) : Prop where
  unchanged : ∀ s, op.run host p.store = .ok (true, s) →
    s.index = p.store.index ∧ s.stor.take s.index = p.store.stor.take p.store.index
  throws : p.threw = true → op ≠ .reUse → ∃ s, op.run host p.store = .ok (true, s)

/-! ### Calls that are as they ought to be -/

/-- The check for room does not pass because of a sum that is cut off to 32 bits. -/
def Room (p : Packing) (size : ℕ) : Prop :=
  p.store.lacksRoom size = true ∨ p.store.index + size < 2 ^ 32

/-- A mark can hold the size. With two bytes it is only peeked at correctly on a big-endian machine,
or if it is zero. -/
def Sized (host : Host) (ty : MarkType) (n : ℕ) : Prop :=
  n ≤ ty.max ∧ (ty.size = 2 → host = .big ∨ n = 0)

/-- A mark is finished before anything throws; it is one that has been made, or the last one
that has been started, and of the right type. Sums fit in 32 bits. -/
def CarefulCall (host : Host) (p : Packing) : PackOp → Prop
  | .scalar ty _ => Room p ty.size
  | .bool _ => Room p 1
  | .vstring str => Room p (4 + str.length)
  | .string c => Room p ((c.takeWhile (· ≠ 0)).length + 1)
  | .chars c => Room p c.length
  | .createMark ty => Room p ty.size
  | .finishMark ty place => p.threw = false ∧
      (∃ e ∈ p.log, e.pos = place ∧ e.item.IsMark ty) ∧ Sized host ty (behind p.log place)
  | .startMark => Room p 2
  | .endMark => p.threw = false ∧ p.started = some .uint16 ∧
      Sized host .uint16 (behind p.log p.store.markPoint)
  | .startBigMark => Room p 4
  | .endBigMark => p.threw = false ∧ p.started = some .uint32 ∧
      Sized host .uint32 (behind p.log p.store.markPoint)
  | .reUse => True

instance (p : Packing) (size : ℕ) : Decidable (Room p size) := inferInstanceAs (Decidable (_ ∨ _))

instance (host : Host) (ty : MarkType) (n : ℕ) : Decidable (Sized host ty n) :=
  inferInstanceAs (Decidable (_ ∧ _))

instance (host : Host) (p : Packing) : DecidablePred (CarefulCall host p)
  | .scalar _ _ | .bool _ | .vstring _ | .string _ | .chars _ | .createMark _ | .startMark
  | .startBigMark => inferInstanceAs (Decidable (Room p _))
  | .finishMark _ _ | .endMark | .endBigMark => inferInstanceAs (Decidable (_ ∧ _ ∧ _))
  | .reUse => inferInstanceAs (Decidable True)

/-! ### How the items lie -/

/-- The entries lie one behind the other. -/
def Contiguous : ℕ → List Entry → ℕ → Prop
  | x, [], y => x = y
  | x, e :: log, y => e.pos = x ∧ Contiguous (x + e.item.size) log y

/-- An item that can be read back: a text ends with its only zero, a mark holds its number. -/
def Item.Good : Item → Prop
  | .text bs => ∃ text, bs = text ++ [0] ∧ 0 ∉ text
  | .mark ty (some n) => n ≤ ty.max
  | _ => True

/-- What holds between the calls. -/
structure Inv (host : Host) (p : Packing) : Prop where
  index_le : p.store.index ≤ p.store.stor.length
  small : p.store.stor.length < 2 ^ 32
  contiguous : Contiguous 0 p.log p.store.index
  holds : ∀ e ∈ p.log, ∀ bs, e.item.encoding = some bs →
    window p.store.stor e.pos e.item.size = bs
  good : ∀ e ∈ p.log, e.item.Good
  marks : ∀ e ∈ p.log, ∀ ty n, e.item = .mark ty (some n) →
    e.pos + ty.size + n ≤ p.store.index ∧ (ty.size = 2 → host = .big ∨ n = 0)
  choked : p.store.choked = p.threw
  started : ∀ ty, p.started = some ty →
    ∃ e ∈ p.log, e.pos = p.store.markPoint ∧ e.item.IsMark ty

variable {host : Host} {p : Packing} {e : Entry} {log log' : List Entry} {x y z m n : ℕ}

theorem contiguous_append :
    Contiguous x (log ++ log') y ↔ ∃ z, Contiguous x log z ∧ Contiguous z log' y := by
  induction log generalizing x with
  | nil => simp only [List.nil_append, Contiguous, exists_eq_left']
  | cons e log ih =>
    simp only [List.cons_append, Contiguous, ih]
    constructor
    · rintro ⟨hpos, z, hlog, hlog'⟩
      exact ⟨z, ⟨hpos, hlog⟩, hlog'⟩
    · rintro ⟨z, ⟨hpos, hlog⟩, hlog'⟩
      exact ⟨hpos, z, hlog, hlog'⟩

theorem Contiguous.le (h : Contiguous x log y) : x ≤ y := by
  induction log generalizing x with
  | nil => exact h.le
  | cons e log ih => exact (Nat.le_add_right ..).trans (ih h.2)

theorem Contiguous.bounds (h : Contiguous x log y) (he : e ∈ log) :
    x ≤ e.pos ∧ e.pos + e.item.size ≤ y := by
  induction log generalizing x with
  | nil => cases he
  | cons f log ih =>
    obtain ⟨hpos, hrest⟩ := h
    rcases List.mem_cons.mp he with rfl | he
    · exact ⟨hpos.ge, hpos ▸ hrest.le⟩
    · obtain ⟨hx, hy⟩ := ih hrest he
      exact ⟨(Nat.le_add_right ..).trans hx, hy⟩

/-- Different entries do not overlap. -/
theorem Contiguous.apart (h : Contiguous x log y) {f : Entry} (he : e ∈ log) (hf : f ∈ log)
    (hne : e ≠ f) : e.pos + e.item.size ≤ f.pos ∨ f.pos + f.item.size ≤ e.pos := by
  obtain ⟨as, bs, rfl⟩ := List.append_of_mem hf
  obtain ⟨z, has, hpos, hbs⟩ := contiguous_append.mp h
  rcases List.mem_append.mp he with he | he
  · exact .inl (hpos ▸ (has.bounds he).2)
  · rcases List.mem_cons.mp he with rfl | he
    · exact absurd rfl hne
    · exact .inr (hpos ▸ (hbs.bounds he).1)

theorem Contiguous.sum_eq (h : Contiguous x log y) :
    x + (log.map fun e => e.item.size).sum = y := by
  induction log generalizing x with
  | nil => exact h
  | cons e log ih =>
    rw [List.map_cons, List.sum_cons, ← Nat.add_assoc]
    exact ih h.2

theorem MarkType.size_pos (ty : MarkType) : 0 < ty.size := by cases ty <;> decide

theorem Item.IsMark.size_eq {item : Item} {ty : MarkType} (h : item.IsMark ty) :
    item.size = ty.size := by
  cases item with
  | mark ty' n => exact congrArg MarkType.size h
  | scalar | bool | vstring | text | chars => exact h.elim

/-- What is behind a mark goes up to the index. -/
theorem Contiguous.behind_eq (h : Contiguous x log y) {ty : MarkType} (he : e ∈ log)
    (hmark : e.item.IsMark ty) : e.pos + ty.size + behind log e.pos = y := by
  obtain ⟨as, bs, rfl⟩ := List.append_of_mem he
  obtain ⟨_, has, rfl, hbs⟩ := contiguous_append.mp h
  have hsize := hmark.size_eq
  have hbefore : as.filter (fun f => decide (e.pos < f.pos)) = [] := by
    refine List.filter_eq_nil_iff.mpr fun f hf => ?_
    have hle := (has.bounds hf).2
    rw [decide_eq_true_eq]
    omega
  have hself : decide (e.pos < e.pos) = false := decide_eq_false (lt_irrefl _)
  have hafter : bs.filter (fun f => decide (e.pos < f.pos)) = bs := by
    refine List.filter_eq_self.mpr fun f hf => decide_eq_true ?_
    have hle := (hbs.bounds hf).1
    have hty := ty.size_pos
    omega
  have hsum := hbs.sum_eq
  simp only [behind, List.filter_append, hbefore, List.nil_append, List.filter_cons, hself,
    Bool.false_eq_true, if_false, hafter, ← hsize]
  exact hsum

/-! ### Packing -/

theorem native_convert (host : Host) (ty : Scalar) (n : ℕ) :
    native host ty.size (ty.convert host n) = bigEndian ty.size n := by
  cases ty with
  | char | int8 | uint8 => cases host <;> rfl
  | int16 | uint16 => exact native_hton host 2 n
  | float | int32 | uint32 => exact native_hton host 4 n
  | double | int64 | uint64 => exact native_htonll host n

/-- In range a check is one of numbers without a bound. -/
theorem lacksRoom_iff {s : AmorphStore} {size : ℕ}
    (hroom : s.lacksRoom size = true ∨ s.index + size < 2 ^ 32) :
    s.lacksRoom size = true ↔ s.choked = true ∨ s.stor.length < s.index + size := by
  have hmod := Nat.mod_le (s.index + size) (2 ^ 32)
  simp only [AmorphStore.lacksRoom, Bool.or_eq_true, decide_eq_true_eq, gt_iff_lt] at hroom ⊢
  rcases hroom with (hchoked | hfull) | hlt
  · simp only [hchoked, true_or]
  · exact iff_of_true (.inr hfull) (.inr (by omega))
  · rw [Nat.mod_eq_of_lt hlt]

theorem lacksRoom_congr {s : AmorphStore} (h : (s.index + m) % 2 ^ 32 = (s.index + n) % 2 ^ 32) :
    s.lacksRoom m = s.lacksRoom n := by
  rw [AmorphStore.lacksRoom, h, AmorphStore.lacksRoom]

theorem pack_of_lacksRoom {s : AmorphStore} {size : ℕ} (h : s.lacksRoom size = true)
    (bs : Bytes) : s.pack size bs = .ok (true, { s with choked := true }) := by
  rw [AmorphStore.pack, if_pos h]

theorem pack_eq {s : AmorphStore} {bs : Bytes} (hsmall : s.stor.length < 2 ^ 32)
    (hroom : s.lacksRoom bs.length = true ∨ s.index + bs.length < 2 ^ 32) :
    s.pack bs.length bs =
      if s.choked = true ∨ s.stor.length < s.index + bs.length then
        .ok (true, { s with choked := true })
      else .ok (false,
        { s with stor := overwrite s.stor s.index bs, index := s.index + bs.length }) := by
  simp only [AmorphStore.pack, lacksRoom_iff hroom]
  split_ifs with hfull
  · rfl
  · have hle := not_lt.mp (not_or.mp hfull).2
    simp only [AmorphStore.memcpy, hle, if_true, Nat.mod_eq_of_lt (hle.trans_lt hsmall)]

theorem reserve_eq {s : AmorphStore} {size : ℕ} (hsmall : s.stor.length < 2 ^ 32)
    (hroom : s.lacksRoom size = true ∨ s.index + size < 2 ^ 32) :
    s.reserve size =
      if s.choked = true ∨ s.stor.length < s.index + size then
        .ok (true, { s with choked := true })
      else .ok (false, { s with index := s.index + size }) := by
  simp only [AmorphStore.reserve, lacksRoom_iff hroom]
  split_ifs with hfull
  · rfl
  · have hle := not_lt.mp (not_or.mp hfull).2
    rw [Nat.mod_eq_of_lt (hle.trans_lt hsmall)]

theorem startMark_eq {s : AmorphStore} {ty : MarkType} (hsmall : s.stor.length < 2 ^ 32)
    (hroom : s.lacksRoom ty.size = true ∨ s.index + ty.size < 2 ^ 32) :
    s.startMark ty =
      if s.choked = true ∨ s.stor.length < s.index + ty.size then
        .ok (true, { s with choked := true })
      else .ok (false, { s with index := s.index + ty.size, markPoint := s.index }) := by
  rw [AmorphStore.startMark, reserve_eq hsmall hroom]
  split_ifs <;> rfl

/-- The value that a call packs. -/
def PackOp.item? : PackOp → Option Item
  | .scalar ty v => some (.scalar ty v)
  | .bool b => some (.bool b)
  | .vstring str => some (.vstring str)
  | .string c => some (.text (c.takeWhile (· ≠ 0) ++ [0]))
  | .chars c => some (.chars c)
  | _ => none

variable {op : PackOp} {item : Item}

theorem run_chars (host : Host) {c : Bytes} (hroom : Room p c.length) :
    PackOp.run host p.store (.chars c) = p.store.pack c.length c := by
  rcases hroom with hfull | hlt
  · rw [pack_of_lacksRoom hfull]
    refine pack_of_lacksRoom (hfull ▸ lacksRoom_congr ?_) _
    omega
  · have hmod : c.length % 2 ^ 32 = c.length := Nat.mod_eq_of_lt (by omega)
    simp only [PackOp.run, hmod, List.take_length]

/-- A value is packed as its encoding. A length that is cut off does not matter when there is no
room. -/
theorem run_item (hitem : op.item? = some item) (hcareful : CarefulCall host p op) :
    Room p item.size ∧ ∃ bs, item.encoding = some bs ∧ bs.length = item.size ∧
      op.run host p.store = p.store.pack bs.length bs := by
  cases op with
  | scalar ty v =>
    cases hitem
    refine ⟨hcareful, _, rfl, length_bigEndian .., ?_⟩
    rw [length_bigEndian, ← native_convert host]
    rfl
  | bool b =>
    cases hitem
    exact ⟨hcareful, _, rfl, rfl, rfl⟩
  | vstring str =>
    cases hitem
    have hlen : (bigEndian 4 str.length ++ str).length = 4 + str.length := by
      rw [List.length_append, length_bigEndian]
    refine ⟨hcareful, _, rfl, hlen, ?_⟩
    rcases hcareful with hfull | hlt
    · rw [hlen, pack_of_lacksRoom hfull]
      refine pack_of_lacksRoom (hfull ▸ lacksRoom_congr ?_) _
      omega
    · have hmod : str.length % 2 ^ 32 = str.length := Nat.mod_eq_of_lt (by omega)
      have hsum : (str.length + 4) % 2 ^ 32 = 4 + str.length := by omega
      simp only [PackOp.run, hmod, hsum, native_hton, List.take_length, hlen]
  | string c =>
    cases hitem
    have hroom : Room p (c.takeWhile (· ≠ 0) ++ [0]).length := by
      rw [List.length_append]
      exact hcareful
    refine ⟨hroom, _, rfl, rfl, ?_⟩
    exact run_chars host hroom
  | chars c =>
    cases hitem
    exact ⟨hcareful, _, rfl, rfl, run_chars host hcareful⟩
  | createMark | finishMark | startMark | endMark | startBigMark | endBigMark | reUse =>
    cases hitem

/-- A text up to its zero can be read back. -/
theorem good_item (hitem : op.item? = some item) :
    item.Good ∧ ∀ ty n, item ≠ .mark ty n := by
  cases op with
  | string c =>
    cases hitem
    refine ⟨⟨_, rfl, fun hmem => ?_⟩, nofun⟩
    have hne := List.mem_takeWhile_imp hmem
    exact absurd rfl (of_decide_eq_true hne)
  | scalar | bool | vstring | chars =>
    cases hitem
    exact ⟨trivial, nofun⟩
  | createMark | finishMark | startMark | endMark | startBigMark | endBigMark | reUse =>
    cases hitem

/-- After an exception the store is choked. -/
theorem Inv.thrown (h : Inv host p) :
    Inv host { p with store := { p.store with choked := true }, threw := true } :=
  { h with choked := rfl }

/-- The store with one more item. -/
theorem Inv.added (h : Inv host p) {stor : Bytes} {markPoint : ℕ} {started : Option MarkType}
    (hroom : p.store.index + item.size ≤ p.store.stor.length)
    (hlen : stor.length = p.store.stor.length)
    (hsame : ∀ j n, j + n ≤ p.store.index → window stor j n = window p.store.stor j n)
    (hitem : ∀ bs, item.encoding = some bs → window stor p.store.index item.size = bs)
    (hgood : item.Good) (hopen : ∀ ty n, item ≠ .mark ty (some n))
    (hstarted : ∀ ty, started = some ty → p.started = some ty ∧ markPoint = p.store.markPoint ∨
      markPoint = p.store.index ∧ item.IsMark ty) :
    Inv host
      { store := ⟨stor, p.store.index + item.size, p.store.choked, markPoint⟩
        log := p.log ++ [⟨p.store.index, item⟩]
        threw := p.threw
        started := started } where
  index_le := hlen ▸ hroom
  small := hlen ▸ h.small
  contiguous := contiguous_append.mpr ⟨_, h.contiguous, rfl, rfl⟩
  holds := by
    intro e he bs hbs
    rcases List.mem_append.mp he with he | he
    · exact (hsame _ _ (h.contiguous.bounds he).2).trans (h.holds e he bs hbs)
    · rw [List.mem_singleton.mp he] at hbs ⊢
      exact hitem bs hbs
  good := by
    intro e he
    rcases List.mem_append.mp he with he | he
    · exact h.good e he
    · exact List.mem_singleton.mp he ▸ hgood
  marks := by
    intro e he ty n hmark
    rcases List.mem_append.mp he with he | he
    · obtain ⟨hle, hsized⟩ := h.marks e he ty n hmark
      exact ⟨hle.trans (Nat.le_add_right ..), hsized⟩
    · rw [List.mem_singleton.mp he] at hmark
      exact absurd hmark (hopen ty n)
  choked := h.choked
  started := by
    intro ty hty
    rcases hstarted ty hty with ⟨hold, rfl⟩ | ⟨rfl, hmark⟩
    · obtain ⟨e, he, hpos, hmark⟩ := h.started ty hold
      exact ⟨e, List.mem_append_left _ he, hpos, hmark⟩
    · exact ⟨_, List.mem_append_right _ (List.mem_singleton_self _), rfl, hmark⟩

/-- A call that checks for room is clean. -/
theorem callClean_of_room {size : ℕ} {s' : AmorphStore} (h : Inv host p)
    (hrun : op.run host p.store =
      if p.store.choked = true ∨ p.store.stor.length < p.store.index + size then
        .ok (true, { p.store with choked := true })
      else .ok (false, s')) : CallClean host p op where
  unchanged := by
    intro s hs
    rw [hrun] at hs
    split_ifs at hs
    · cases hs
      exact ⟨rfl, rfl⟩
    · cases hs
  throws := by
    intro hthrew _
    rw [hrun, if_pos (.inl (h.choked.trans hthrew))]
    exact ⟨_, rfl⟩

/-- A value is packed, or there is no room for it. -/
theorem Inv.value (h : Inv host p) (hitem : op.item? = some item)
    (hcareful : CarefulCall host p op) :
    CallClean host p op ∧ ∃ p', p.step host op = .ok p' ∧ Inv host p' := by
  obtain ⟨hroom, bs, henc, hlen, hrun⟩ := run_item hitem hcareful
  have hpack : p.store.pack bs.length bs = _ := pack_eq h.small (hlen ▸ hroom)
  rw [← hrun, hlen] at hpack
  refine ⟨callClean_of_room h hpack, ?_⟩
  have hnote : p.note op = p.add item := by
    cases op <;> cases hitem <;> rfl
  rw [Packing.step, hpack]
  by_cases hfull : p.store.choked = true ∨ p.store.stor.length < p.store.index + item.size
  · rw [if_pos hfull]
    exact ⟨_, rfl, h.thrown⟩
  · rw [if_neg hfull]
    have hle : p.store.index + bs.length ≤ p.store.stor.length := by
      rw [hlen]
      exact not_lt.mp (not_or.mp hfull).2
    refine ⟨_, rfl, ?_⟩
    rw [hnote]
    refine h.added (hlen ▸ hle) (length_overwrite hle)
      (fun j n hj => window_overwrite_apart hle (.inl hj)) ?_ (good_item hitem).1
      (fun ty n => (good_item hitem).2 ty (some n)) (fun ty hty => .inl ⟨hty, rfl⟩)
    intro bs' hbs'
    obtain rfl := Option.some.inj (henc.symm.trans hbs')
    rw [← hlen]
    exact window_overwrite_self hle

/-- Room is reserved for a mark. -/
theorem Inv.reserved (h : Inv host p) (ty : MarkType) {markPoint : ℕ}
    {started : Option MarkType}
    (hrun : op.run host p.store =
      if p.store.choked = true ∨ p.store.stor.length < p.store.index + ty.size then
        .ok (true, { p.store with choked := true })
      else .ok (false, { p.store with index := p.store.index + ty.size, markPoint := markPoint }))
    (hstarted : ∀ ty', started = some ty' →
      p.started = some ty' ∧ markPoint = p.store.markPoint ∨
        markPoint = p.store.index ∧ ty = ty')
    (hnote : p.note op = { p.add (.mark ty none) with started := started }) :
    CallClean host p op ∧ ∃ p', p.step host op = .ok p' ∧ Inv host p' := by
  refine ⟨callClean_of_room h hrun, ?_⟩
  rw [Packing.step, hrun]
  by_cases hfull : p.store.choked = true ∨ p.store.stor.length < p.store.index + ty.size
  · rw [if_pos hfull]
    exact ⟨_, rfl, h.thrown⟩
  · rw [if_neg hfull]
    refine ⟨_, rfl, ?_⟩
    rw [hnote]
    exact @Inv.added host p (.mark ty none) h _ _ _ (not_lt.mp (not_or.mp hfull).2) rfl
      (fun _ _ _ => rfl) nofun trivial nofun hstarted

/-! ### Marks that are finished -/

theorem MarkType.max_lt (ty : MarkType) : ty.max < 256 ^ ty.size := by cases ty <;> decide

theorem netconvert_eq (host : Host) (ty : MarkType) (n : ℕ) :
    ty.netconvert host n = bigEndian ty.size n := native_convert host ty.scalar n

/-- An entry after a mark has been finished is the mark with its size, or another one that was
there before. -/
theorem mem_finish {ty : MarkType} {place : ℕ} {f : Entry} (h : f ∈ finish log ty place) :
    f = ⟨place, .mark ty (some (behind log place))⟩ ∨
      f ∈ log ∧ ¬ (f.pos = place ∧ f.item.IsMark ty) := by
  obtain ⟨e, he, rfl⟩ := List.mem_map.mp h
  by_cases hmark : e.pos = place ∧ e.item.IsMark ty
  · rw [if_pos hmark, hmark.1]
    exact .inl rfl
  · rw [if_neg hmark]
    exact .inr ⟨he, hmark⟩

/-- A mark is still a mark. -/
theorem exists_mem_finish {ty ty' : MarkType} {place : ℕ} (he : e ∈ log)
    (hmark : e.item.IsMark ty') :
    ∃ f ∈ finish log ty place, f.pos = e.pos ∧ f.item.IsMark ty' := by
  refine ⟨_, List.mem_map_of_mem he, ?_⟩
  by_cases hthis : e.pos = place ∧ e.item.IsMark ty
  · rw [if_pos hthis]
    refine ⟨rfl, ?_⟩
    cases hitem : e.item with
    | mark ty₀ n =>
      rw [hitem] at hmark hthis
      exact hthis.2.symm.trans hmark
    | scalar | bool | vstring | text | chars =>
      rw [hitem] at hmark
      exact hmark.elim
  · rw [if_neg hthis]
    exact ⟨rfl, hmark⟩

theorem contiguous_finish {ty : MarkType} {place : ℕ} (h : Contiguous x log y) (n : ℕ) :
    Contiguous x (log.map fun e =>
      if e.pos = place ∧ e.item.IsMark ty then ⟨e.pos, .mark ty (some n)⟩ else e) y := by
  induction log generalizing x with
  | nil => exact h
  | cons e log ih =>
    by_cases hmark : e.pos = place ∧ e.item.IsMark ty
    · simp only [List.map_cons, if_pos hmark]
      have hrest := h.2
      rw [hmark.2.size_eq] at hrest
      exact ⟨h.1, ih hrest⟩
    · simp only [List.map_cons, if_neg hmark]
      exact ⟨h.1, ih h.2⟩

/-- A mark is finished. -/
theorem Inv.finished (h : Inv host p) {ty : MarkType} (he : e ∈ p.log)
    (hmark : e.item.IsMark ty) (hsized : Sized host ty (behind p.log e.pos)) {markPoint : ℕ}
    {started : Option MarkType}
    (hstarted : ∀ ty, started = some ty → p.started = some ty ∧ markPoint = p.store.markPoint) :
    Inv host
      { store := ⟨overwrite p.store.stor e.pos (bigEndian ty.size (behind p.log e.pos)),
          p.store.index, p.store.choked, markPoint⟩
        log := finish p.log ty e.pos
        threw := p.threw
        started := started } := by
  have hbehind := h.contiguous.behind_eq he hmark
  have hle : e.pos + (bigEndian ty.size (behind p.log e.pos)).length ≤ p.store.stor.length := by
    rw [length_bigEndian]
    exact (hbehind ▸ Nat.le_add_right ..).trans h.index_le
  refine
    { index_le := (length_overwrite hle).symm ▸ h.index_le
      small := (length_overwrite hle).symm ▸ h.small
      contiguous := contiguous_finish h.contiguous _
      holds := ?_
      good := ?_
      marks := ?_
      choked := h.choked
      started := ?_ }
  · intro f hf bs hbs
    rcases mem_finish hf with rfl | ⟨hf, hother⟩
    · cases hbs
      have hself := window_overwrite_self hle
      rwa [length_bigEndian] at hself
    · have hne : f ≠ e := by
        rintro rfl
        exact hother ⟨rfl, hmark⟩
      rw [← h.holds f hf bs hbs]
      refine window_overwrite_apart hle ?_
      rw [length_bigEndian, ← hmark.size_eq]
      exact h.contiguous.apart hf he hne
  · intro f hf
    rcases mem_finish hf with rfl | ⟨hf, -⟩
    · exact hsized.1
    · exact h.good f hf
  · intro f hf ty' n hn
    rcases mem_finish hf with rfl | ⟨hf, -⟩
    · cases hn
      exact ⟨hbehind.le, hsized.2⟩
    · exact h.marks f hf ty' n hn
  · intro ty' hty
    obtain ⟨hold, rfl⟩ := hstarted ty' hty
    obtain ⟨f, hf, hpos, hmark'⟩ := h.started ty' hold
    obtain ⟨g, hg, hgpos, hgmark⟩ := exists_mem_finish hf hmark'
    exact ⟨g, hg, hgpos.trans hpos, hgmark⟩

/-- The bytes of a mark are in the buffer. -/
theorem Inv.memcpy_mark (h : Inv host p) {ty : MarkType} (he : e ∈ p.log)
    (hmark : e.item.IsMark ty) (n : ℕ) :
    p.store.memcpy e.pos (ty.netconvert host n) =
      .ok { p.store with stor := overwrite p.store.stor e.pos (bigEndian ty.size n) } := by
  have hbehind := h.contiguous.behind_eq he hmark
  have hindex := h.index_le
  rw [AmorphStore.memcpy, netconvert_eq, length_bigEndian, if_pos (by omega)]

theorem Inv.run_finishMark (h : Inv host p) {ty : MarkType} (he : e ∈ p.log)
    (hmark : e.item.IsMark ty) (hsized : Sized host ty (behind p.log e.pos)) :
    p.store.finishMark host ty e.pos = .ok (false, { p.store with
      stor := overwrite p.store.stor e.pos (bigEndian ty.size (behind p.log e.pos)) }) := by
  have hbehind := h.contiguous.behind_eq he hmark
  have hindex := h.index_le
  have hsmall := h.small
  have hmax := hsized.1
  have hgross : ((p.store.index - e.pos : ℤ) % 2 ^ 32).toNat = ty.size + behind p.log e.pos := by
    omega
  have hnet : ty.size + behind p.log e.pos - ty.size = behind p.log e.pos := by omega
  simp only [AmorphStore.finishMark, hgross, hnet]
  rw [if_neg (by omega), h.memcpy_mark he hmark]

theorem Inv.run_endMark (h : Inv host p) {ty : MarkType} (he : e ∈ p.log)
    (hpos : e.pos = p.store.markPoint) (hmark : e.item.IsMark ty)
    (hsized : Sized host ty (behind p.log e.pos)) :
    p.store.endMark host ty = .ok (false, { p.store with
      stor := overwrite p.store.stor e.pos (bigEndian ty.size (behind p.log e.pos))
      markPoint := 0 }) := by
  have hbehind := h.contiguous.behind_eq he hmark
  have hlt := hsized.1.trans_lt ty.max_lt
  have hsize : ((p.store.index - p.store.markPoint - ty.size : ℤ) % 256 ^ ty.size).toNat =
      behind p.log e.pos := by
    rw [← hpos, show (p.store.index - e.pos - ty.size : ℤ) = behind p.log e.pos by omega]
    exact_mod_cast Nat.mod_eq_of_lt hlt
  simp only [AmorphStore.endMark, hsize]
  rw [← hpos, h.memcpy_mark he hmark]

/-- A call that returns, before anything has thrown, is clean. -/
theorem callClean_of_returns {s' : AmorphStore} (hthrew : p.threw = false)
    (hrun : op.run host p.store = .ok (false, s')) : CallClean host p op where
  unchanged := by
    intro s hs
    rw [hrun] at hs
    cases hs
  throws := by
    intro h
    rw [hthrew] at h
    cases h

/-- A careful call is clean. -/
theorem Inv.step (h : Inv host p) (hcareful : CarefulCall host p op) :
    CallClean host p op ∧ ∃ p', p.step host op = .ok p' ∧ Inv host p' := by
  cases op with
  | scalar | bool | vstring | string | chars => exact h.value rfl hcareful
  | createMark ty =>
    have hrun := reserve_eq h.small hcareful
    exact h.reserved ty hrun (fun _ hty => .inl ⟨hty, rfl⟩) rfl
  | startMark =>
    have hrun := @startMark_eq p.store .uint16 h.small hcareful
    exact h.reserved .uint16 hrun (fun _ hty => .inr ⟨rfl, Option.some.inj hty⟩) rfl
  | startBigMark =>
    have hrun := @startMark_eq p.store .uint32 h.small hcareful
    exact h.reserved .uint32 hrun (fun _ hty => .inr ⟨rfl, Option.some.inj hty⟩) rfl
  | finishMark ty place =>
    obtain ⟨hthrew, ⟨e, he, rfl, hmark⟩, hsized⟩ := hcareful
    have hrun := h.run_finishMark he hmark hsized
    refine ⟨callClean_of_returns hthrew hrun, ?_⟩
    rw [Packing.step, PackOp.run, hrun]
    exact ⟨_, rfl, h.finished he hmark hsized fun _ hty => ⟨hty, rfl⟩⟩
  | endMark =>
    obtain ⟨hthrew, hstarted, hsized⟩ := hcareful
    obtain ⟨e, he, hpos, hmark⟩ := h.started _ hstarted
    rw [← hpos] at hsized
    have hrun := h.run_endMark he hpos hmark hsized
    refine ⟨callClean_of_returns hthrew hrun, ?_⟩
    rw [Packing.step, PackOp.run, hrun]
    refine ⟨_, rfl, ?_⟩
    rw [Packing.note, ← hpos]
    exact h.finished he hmark hsized nofun
  | endBigMark =>
    obtain ⟨hthrew, hstarted, hsized⟩ := hcareful
    obtain ⟨e, he, hpos, hmark⟩ := h.started _ hstarted
    rw [← hpos] at hsized
    have hrun := h.run_endMark he hpos hmark hsized
    refine ⟨callClean_of_returns hthrew hrun, ?_⟩
    rw [Packing.step, PackOp.run, hrun]
    refine ⟨_, rfl, ?_⟩
    rw [Packing.note, ← hpos]
    exact h.finished he hmark hsized nofun
  | reUse =>
    refine ⟨⟨nofun, fun _ hne => absurd rfl hne⟩, _, rfl, ?_⟩
    exact ⟨Nat.zero_le _, h.small, rfl, nofun, nofun, nofun, rfl, nofun⟩


/-! ### Reading -/

theorem convert_ofNative (host : Host) (ty : Scalar) {bs : Bytes} (h : bs.length = ty.size) :
    ty.convert host (ofNative host bs) = ofBigEndian bs := by
  cases ty with
  | char | int8 | uint8 =>
    obtain ⟨b, rfl⟩ := List.length_eq_one_iff.mp h
    cases host <;> rfl
  | int16 | uint16 | float | int32 | uint32 =>
    have hconvert := hton_ofNative host bs
    rwa [h] at hconvert
  | double | int64 | uint64 => exact htonll_ofNative host h

variable {data : Bytes} {α : Type}

/-- In the data, what is checked for is there. -/
theorem run_fetch_data (f : Bytes → α) (hle : x + n ≤ data.length) (hsmall : data.length < 2 ^ 32) :
    (do
      checkDataAvailable n
      let bs ← memory 0 n
      advance n
      return f bs : Unpack α) ⟨data, x, false⟩ =
      (.ok (f (window data x n)), ⟨data, x + n, false⟩) := by
  have hmod : (x + n) % 2 ^ 32 = x + n := Nat.mod_eq_of_lt (by omega)
  rw [run_fetch]
  simp only [hmod, hle, not_lt.mpr hle, if_false, if_true]
  rfl

theorem run_unPackScalar_data (host : Host) (ty : Scalar) {v : ℕ} (hle : x + ty.size ≤ data.length)
    (hsmall : data.length < 2 ^ 32) (hv : v < 256 ^ ty.size)
    (hdata : window data x ty.size = bigEndian ty.size v) :
    unPackScalar host ty ⟨data, x, false⟩ =
      (.ok (BitVec.ofNat _ v), ⟨data, x + ty.size, false⟩) := by
  refine (run_fetch_data _ hle hsmall).trans ?_
  rw [hdata, convert_ofNative host ty (length_bigEndian ..), ofBigEndian_bigEndian hv]

/-- The number in the next bytes. -/
theorem field_data (host : Host) {k : ℕ} (hn : n < 256 ^ k)
    (hdata : window data x k = bigEndian k n) :
    hton host k (ofNative host (window data x k)) = n := by
  have hconvert := hton_ofNative host (bigEndian k n)
  rw [hdata]
  rwa [length_bigEndian, ofBigEndian_bigEndian hn] at hconvert

theorem run_unPackVstring_data {str : Bytes} (hle : x + (4 + str.length) ≤ data.length)
    (hsmall : data.length < 2 ^ 32)
    (hdata : window data x (4 + str.length) = bigEndian 4 str.length ++ str) :
    unPackVstring host ⟨data, x, false⟩ = (.ok str, ⟨data, x + (4 + str.length), false⟩) := by
  rw [window_add] at hdata
  obtain ⟨hlength, hstr⟩ := List.append_inj hdata (by
    rw [length_window (by omega), length_bigEndian])
  have hfield := field_data host (show str.length < 256 ^ 4 by omega) hlength
  unfold window at hfield hstr
  have h4 : (x + 4) % 2 ^ 32 = x + 4 := Nat.mod_eq_of_lt (by omega)
  have hl : (str.length + 4) % 2 ^ 32 = str.length + 4 := Nat.mod_eq_of_lt (by omega)
  have hend : (x + (str.length + 4)) % 2 ^ 32 = x + (str.length + 4) := Nat.mod_eq_of_lt (by omega)
  have hle4 : x + 4 ≤ data.length := by omega
  have hle' : x + (str.length + 4) ≤ data.length := by omega
  have hle'' : x + 4 + str.length ≤ data.length := by omega
  unfold unPackVstring
  simp only [run_bind, run_checkDataAvailable, run_memory, Nat.add_zero, h4, hle4, not_lt.mpr hle4,
    gt_iff_lt, if_false, if_true, hfield, hl, hend, not_lt.mpr hle', hle'', run_advance, run_pure,
    hstr, Nat.add_comm 4]

/-- A text is found up to its zero. -/
theorem run_unPackString_data {text : Bytes} (hle : x + (text.length + 1) ≤ data.length)
    (hsmall : data.length < 2 ^ 32) (hzero : 0 ∉ text)
    (hdata : window data x (text.length + 1) = text ++ [0]) :
    unPackString ⟨data, x, false⟩ = (.ok (text ++ [0]), ⟨data, x + (text.length + 1), false⟩) := by
  have hsplit : data.drop x = text ++ 0 :: (data.drop x).drop (text.length + 1) := by
    have happ := List.take_append_drop (text.length + 1) (data.drop x)
    rw [← window, hdata, List.append_assoc] at happ
    exact happ.symm
  have htext : (data.drop x).takeWhile (· ≠ 0) = text := by
    rw [hsplit, List.takeWhile_append_of_pos]
    · rw [List.takeWhile_cons_of_neg (by decide), List.append_nil]
    · intro b hb
      refine decide_eq_true ?_
      rintro rfl
      exact hzero hb
  have hlt : x + text.length < data.length := by omega
  unfold unPackString
  rw [run_bind, run_strlen]
  simp only [htext, if_pos hlt]
  rw [← hdata]
  exact run_fetch_data _ hle hsmall

/-- What has been packed is read. -/
theorem reads_item (host : Host) {item : Item} (hle : x + item.size ≤ data.length)
    (hsmall : data.length < 2 ^ 32)
    (hdata : ∀ bs, item.encoding = some bs → window data x item.size = bs) (hgood : item.Good) :
    ∃ v, item.op.call host ⟨data, x, false⟩ = (.ok v, ⟨data, x + item.size, false⟩) ∧
      item.ReadsAs v := by
  cases item with
  | scalar ty v =>
    have hv : v.toNat < 256 ^ ty.size := by
      rw [show 256 = 2 ^ 8 from rfl, ← Nat.pow_mul]
      exact v.isLt
    have hrun := run_unPackScalar_data host ty hle hsmall hv (hdata _ rfl)
    refine ⟨.scalar ty v, ?_, rfl⟩
    rw [BitVec.ofNat_toNat, BitVec.setWidth_eq] at hrun
    rw [Item.op, Op.call, run_map, hrun]
    rfl
  | bool b =>
    have hbyte : window data x 1 = [if b then 255 else 0] := hdata _ rfl
    have hrun : unPackBool ⟨data, x, false⟩ = _ := run_fetch_data _ hle hsmall
    rw [hbyte] at hrun
    refine ⟨.bool b, ?_, rfl⟩
    rw [Item.op, Op.call, run_map, hrun]
    cases b <;> rfl
  | vstring str =>
    refine ⟨.str str, ?_, rfl⟩
    rw [Item.op, Op.call, run_map, run_unPackVstring_data hle hsmall (hdata _ rfl)]
    rfl
  | text bs =>
    obtain ⟨text, rfl, hzero⟩ := hgood
    have hlen : (text ++ [0]).length = text.length + 1 := List.length_append
    rw [Item.size, hlen] at hle hdata
    refine ⟨.str (text ++ [0]), ?_, rfl⟩
    rw [Item.op, Op.call, run_map, run_unPackString_data hle hsmall hzero (hdata _ rfl),
      Item.size, hlen]
  | chars bs =>
    have hlt : bs.length < 2 ^ 32 := lt_of_le_of_lt (Nat.le_of_add_left_le hle) hsmall
    have hbytes : window data x bs.length = bs := hdata _ rfl
    have hrun : unPackChars bs.length ⟨data, x, false⟩ = _ := run_fetch_data _ hle hsmall
    rw [hbytes] at hrun
    refine ⟨.str bs, ?_, rfl⟩
    rw [Item.op, Op.call, run_map, BitVec.toNat_ofNat, Nat.mod_eq_of_lt hlt, hrun]
    rfl
  | mark ty size =>
    cases size with
    | none =>
      obtain ⟨v, hrun⟩ : ∃ v, unPackScalar host ty.scalar ⟨data, x, false⟩ =
          (.ok v, ⟨data, x + ty.size, false⟩) := ⟨_, run_fetch_data _ hle hsmall⟩
      refine ⟨.scalar ty.scalar v, ?_, trivial⟩
      rw [Item.op, Op.call, run_map, hrun]
      rfl
    | some n =>
      have hn : n < 256 ^ ty.size := lt_of_le_of_lt hgood ty.max_lt
      have hrun := run_unPackScalar_data host ty.scalar hle hsmall hn (hdata _ rfl)
      refine ⟨_, ?_, rfl⟩
      rw [Item.op, Op.call, run_map, hrun]
      rfl

theorem readsBack_of_contiguous (hlog : Contiguous x log data.length)
    (hsmall : data.length < 2 ^ 32)
    (hdata : ∀ e ∈ log, ∀ bs, e.item.encoding = some bs → window data e.pos e.item.size = bs)
    (hgood : ∀ e ∈ log, e.item.Good) : ReadsBack host log ⟨data, x, false⟩ := by
  induction log generalizing x with
  | nil => exact hlog
  | cons e log ih =>
    have hle := (hlog.bounds List.mem_cons_self).2
    obtain ⟨rfl, hrest⟩ := hlog
    obtain ⟨v, hrun, hv⟩ := reads_item host hle hsmall
      (hdata e List.mem_cons_self) (hgood e List.mem_cons_self)
    exact ⟨v, _, hrun, hv, ih hrest (fun f hf => hdata f (List.mem_cons_of_mem _ hf))
      fun f hf => hgood f (List.mem_cons_of_mem _ hf)⟩

/-- The encodings lie one behind the other. -/
theorem contents_of_contiguous {stor : Bytes} (hlog : Contiguous x log y)
    (hdata : ∀ e ∈ log, ∀ bs, e.item.encoding = some bs → window stor e.pos e.item.size = bs) :
    window stor x (y - x) = (log.map (Entry.bytes stor)).flatten := by
  induction log generalizing x with
  | nil => rw [hlog, Nat.sub_self, window_zero]; rfl
  | cons e log ih =>
    have hle := (hlog.bounds List.mem_cons_self).2
    obtain ⟨rfl, hrest⟩ := hlog
    have hbytes : Entry.bytes stor e = window stor e.pos e.item.size := by
      rw [Entry.bytes]
      cases henc : e.item.encoding with
      | none => rfl
      | some bs => exact (hdata e List.mem_cons_self bs henc).symm
    have hsplit : y - e.pos = e.item.size + (y - (e.pos + e.item.size)) := by omega
    rw [hsplit, window_add, ih hrest fun f hf => hdata f (List.mem_cons_of_mem _ hf),
      List.map_cons, List.flatten_cons, hbytes]

theorem run_gobbleMark_data {k : ℕ} (hle : x + k + n ≤ data.length)
    (hsmall : data.length < 2 ^ 32) (hn : n < 256 ^ k)
    (hdata : window data x k = bigEndian k n) :
    gobbleMark host k ⟨data, x, false⟩ = (.ok n, ⟨data, x + k + n, false⟩) := by
  have hfield := field_data host hn hdata
  unfold window at hfield
  have hk : (x + k) % 2 ^ 32 = x + k := Nat.mod_eq_of_lt (by omega)
  have hend : (x + k + n) % 2 ^ 32 = x + k + n := Nat.mod_eq_of_lt (by omega)
  have hle' : x + k ≤ data.length := by omega
  unfold gobbleMark
  simp only [run_bind, run_checkDataAvailable, run_memory, Nat.add_zero, hk, hle',
    not_lt.mpr hle', gt_iff_lt, if_false, if_true, hfield, run_advance, hend, not_lt.mpr hle,
    run_pure]

theorem run_peek_data {k : ℕ} (f : Bytes → ℕ) (hle : x + k ≤ data.length)
    (hsmall : data.length < 2 ^ 32) :
    (do
      checkDataAvailable k
      let c ← memory 0 k
      return f c : Unpack ℕ) ⟨data, x, false⟩ = (.ok (f (window data x k)), ⟨data, x, false⟩) := by
  have hk : (x + k) % 2 ^ 32 = x + k := Nat.mod_eq_of_lt (by omega)
  simp only [run_bind, run_checkDataAvailable, run_memory, Nat.add_zero, hk, not_lt.mpr hle,
    if_false, hle, if_true, run_pure]
  rfl

/-- A conversion of four bytes shows a mark of two bytes on a big-endian machine, and zero on all
machines. -/
theorem peekMark_value (hn : n < 256 ^ 2) (h : host = .big ∨ n = 0) :
    hton host 4 (ofNative host (bigEndian 2 n)) % 2 ^ 16 = n := by
  rcases h with rfl | rfl
  · change ofBigEndian (bigEndian 2 n) % 2 ^ 16 = n
    rw [ofBigEndian_bigEndian hn]
    exact Nat.mod_eq_of_lt hn
  · cases host <;> rfl

/-- The data behind a finished mark are skipped. -/
theorem skips_of_mark {ty : MarkType} (hle : x + ty.size + n ≤ data.length)
    (hsmall : data.length < 2 ^ 32) (hn : n ≤ ty.max)
    (hpeek : ty.size = 2 → host = .big ∨ n = 0)
    (hdata : window data x ty.size = bigEndian ty.size n) : Skips host data x ty n := by
  have hlt := hn.trans_lt ty.max_lt
  constructor <;> intro hsize <;> rw [hsize] at hle hdata hlt
  · exact run_gobbleMark_data hle hsmall hlt hdata
  · exact run_gobbleMark_data hle hsmall hlt hdata
  · refine (run_peek_data _ (by omega) hsmall).trans ?_
    rw [hdata, peekMark_value hlt (hpeek hsize)]
  · refine (run_peek_data _ (by omega) hsmall).trans ?_
    rw [field_data host hlt hdata]

/-- The store is as it ought to be. -/
theorem Inv.inverse (h : Inv host p) : Inverse host p := by
  have hlen : (p.store.stor.take p.store.index).length = p.store.index :=
    List.length_take_of_le h.index_le
  have hsmall : (p.store.stor.take p.store.index).length < 2 ^ 32 :=
    hlen.symm ▸ h.index_le.trans_lt h.small
  have hdata : ∀ e ∈ p.log, ∀ bs, e.item.encoding = some bs →
      window (p.store.stor.take p.store.index) e.pos e.item.size = bs := by
    intro e he bs hbs
    rw [window_take (h.contiguous.bounds he).2]
    exact h.holds e he bs hbs
  have hcontiguous : Contiguous 0 p.log (p.store.stor.take p.store.index).length :=
    hlen.symm ▸ h.contiguous
  refine
    { contents := ?_
      reads := readsBack_of_contiguous hcontiguous hsmall hdata h.good
      marks := ?_ }
  · rw [take_eq_window]
    exact contents_of_contiguous h.contiguous h.holds
  · intro e he ty n hmark
    obtain ⟨hle, hpeek⟩ := h.marks e he ty n hmark
    have hn := h.good e he
    have hbytes := hdata e he
    rw [hmark] at hn hbytes
    exact skips_of_mark (hlen.symm ▸ hle) hsmall hn hpeek (hbytes _ rfl)

/-! ### Runs -/

/-- An empty store. -/
def Packing.init (stor : Bytes) (markPoint : ℕ) : Packing := { store := .init stor markPoint }

theorem inv_init {stor : Bytes} (h : stor.length < 2 ^ 32) (markPoint : ℕ) :
    Inv host (.init stor markPoint) :=
  ⟨Nat.zero_le _, h, rfl, nofun, nofun, nofun, rfl, nofun⟩

/-- If the sums that are compared with the capacity fit, and marks are ended as they ought to be
with sizes that they can hold, then a store and the reading of it are inverse, and overflow is
clean. -/
theorem inverse_of_run (host : Host) (stor : Bytes) (markPoint : ℕ) (ops : List PackOp)
    (hsmall : stor.length < 2 ^ 32)
    (h : Allowed (Packing.step host) (CarefulCall host) (.init stor markPoint) ops) :
    (∃ p, exec (Packing.step host) (.init stor markPoint) ops = .ok p ∧ Inverse host p) ∧
      Allowed (Packing.step host) (CallClean host) (.init stor markPoint) ops := by
  have hinit : Inv host (.init stor markPoint) := inv_init hsmall markPoint
  constructor
  · obtain ⟨p, hp, hinv⟩ := exec_progress (fun _ _ hp hop => (hp.step hop).2) hinit h
    exact ⟨p, hp, hinv.inverse⟩
  · refine h.imp ?_ (fun _ _ hp hop => (hp.step hop).1) hinit
    intro p op p' hp hop hstep
    obtain ⟨_, hp', hinv⟩ := (hp.step hop).2
    exact Except.ok.inj (hp'.symm.trans hstep) ▸ hinv

/-- A mark of four bytes around a number and a text; the last number does not fit. -/
theorem inverse_of_run_nested :
    (∃ p, exec (Packing.step .little) (.init (List.replicate 20 0) 0)
        [.createMark .uint32, .startBigMark, .scalar .uint16 0x102, .endBigMark, .string [72, 105],
          .bool true, .finishMark .uint32 0, .scalar .int64 1] = .ok p ∧ Inverse .little p) ∧
      Allowed (Packing.step .little) (CallClean .little) (.init (List.replicate 20 0) 0)
        [.createMark .uint32, .startBigMark, .scalar .uint16 0x102, .endBigMark, .string [72, 105],
          .bool true, .finishMark .uint32 0, .scalar .int64 1] :=
  inverse_of_run .little _ 0 _ (by decide)
    ((@allowed_of_checks _ _ _ _ _ _ _ (fun p op => decide (CarefulCall .little p op)))
      (fun _ _ h => of_decide_eq_true h) (by decide +kernel))

/-- On a little-endian machine the size of a mark of two bytes is not seen. -/
theorem not_inverse_peekMark :
    ¬ ∀ (host : Host) (stor : Bytes) (markPoint : ℕ) (ops : List PackOp), stor.length < 2 ^ 32 →
      (∃ p, exec (Packing.step host) (.init stor markPoint) ops = .ok p ∧ Inverse host p) ∧
        Allowed (Packing.step host) (CallClean host) (.init stor markPoint) ops := by
  intro h
  obtain ⟨p, hp, hinv⟩ := (h .little (List.replicate 3 0) 0
    [.createMark .uint16, .scalar .uint8 7, .finishMark .uint16 0] (by decide)).1
  obtain ⟨q, hq, hpeek⟩ := exists_of_endsIn (Packing.step .little) (.init (List.replicate 3 0) 0)
    [.createMark .uint16, .scalar .uint8 7, .finishMark .uint16 0]
    (fun p => decide (⟨0, .mark .uint16 (some 1)⟩ ∈ p.log ∧
      (peekMark .little ⟨p.store.stor.take p.store.index, 0, false⟩).1 = .ok 0)) (by decide +kernel)
  obtain rfl := Except.ok.inj (hp.symm.trans hq)
  obtain ⟨hmem, hzero⟩ := of_decide_eq_true hpeek
  have hone := (hinv.marks _ hmem .uint16 1 rfl).peekMark rfl
  rw [hone] at hzero
  cases hzero

end Dueca.Store
