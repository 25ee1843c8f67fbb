import Dueca.Ddff.Layout

/-!
# Writing streams in Python

`DDFFStream.write` packs the objects of a stream in a `DDFFBuffer`, and takes from it the blocks
that are full. As the buffer waits until it holds the size of a whole block, control block
included, a few bytes more than the data area of a block can be waiting in it.
-/

namespace Dueca.Ddff

open Dueca.Lib

/-- Exceptions while writing. -/
inductive WriteFault
  | typeError
  | structError
  | fuel
  deriving DecidableEq, Repr

/-- The buffer of a stream: all that has been written, how many blocks have been taken from it,
where the next one goes in the file, and the offset of the first object in that. -/
structure DDFFBuffer where
  streamId : ℕ
  blockSize : ℕ
  offset : ℕ
  data : Bytes
  blockcount : ℕ
  objectOffset : ℕ
  deriving DecidableEq, Repr

/-- The numbers fit in the formats of `struct.pack`. -/
def packable (b : Block) : Prop :=
  b.streamId < 2 ^ 16 ∧ b.blockSize < 2 ^ 32 ∧ b.blockFill < 2 ^ 32 ∧ b.objectOffset < 2 ^ 32 ∧
    b.blockNum < 2 ^ 32 ∧ -2 ^ 63 ≤ b.nextOffset ∧ b.nextOffset < 2 ^ 63

instance (b : Block) : Decidable (packable b) := by
  unfold packable
  infer_instance

namespace DDFFBuffer

/-- The data area of a block. -/
def room (b : DDFFBuffer) : ℕ := b.blockSize - controlBlockSize

/-- `write`. -/
def write (b : DDFFBuffer) (bs : Bytes) : DDFFBuffer :=
  { b with
    objectOffset := if b.objectOffset = 0 then b.data.length % b.room + controlBlockSize
      else b.objectOffset
    data := b.data ++ bs }

/-- `size`: what has not been taken yet. -/
def size (b : DDFFBuffer) : ℕ := b.data.length - b.blockcount * b.room

/-- The rest of a last block is filled with zeros. -/
def pad (b : DDFFBuffer) : DDFFBuffer :=
  if b.size + controlBlockSize < b.blockSize
  then b.write (List.replicate (b.blockSize - b.size - controlBlockSize) 0) else b

/-- The header and the data of the next block, which is filled up to `fill`. -/
def block (b : DDFFBuffer) (fill : ℕ) : Block where
  nextOffset := if b.blockSize < b.size then (b.offset + b.blockSize : ℕ) else -1
  streamId := b.streamId
  blockSize := b.blockSize
  blockFill := fill
  objectOffset := b.objectOffset
  blockNum := b.blockcount
  content := (b.data.drop (b.blockcount * b.room)).take b.room

/-- After a block has been taken. -/
def advance (b : DDFFBuffer) : DDFFBuffer :=
  { b with offset := b.offset + b.blockSize, objectOffset := 0, blockcount := b.blockcount + 1 }

/-- `getblock`: all blocks that can be taken. With `flush`, also the last one, whatever is in
it. -/
def getblock (flush : Bool) : ℕ → DDFFBuffer → Except WriteFault (List Block × DDFFBuffer)
  | 0, _ => .error .fuel
  | n + 1, b =>
    if b.blockSize ≤ b.size ∨ flush = true ∧ 0 < b.size then
      let fill := if flush = true ∧ b.size + controlBlockSize < b.blockSize
        then b.size + controlBlockSize else b.blockSize
      let b := if flush then b.pad else b
      if packable (b.block fill) then do
        let (bs, last) ← getblock flush n b.advance
        return (b.block fill :: bs, last)
      else .error .structError
    else .ok ([], b)

end DDFFBuffer

section Streams

variable {α : Type} (encode : α → Bytes)

/-- Pack objects one after the other, and take the full blocks after each. -/
def packLoop : List α → DDFFBuffer → Except WriteFault (List Block × DDFFBuffer)
  | [], b => .ok ([], b)
  | a :: as, b => do
    let b := b.write (encode a)
    let (bs, b) ← b.getblock false (b.data.length + 1)
    let (cs, b) ← packLoop as b
    return (bs ++ cs, b)

/-- `DDFFStream.write`: the blocks written for a stream, at a position in the file. -/
def streamWrite (streamId blockSize pos : ℕ) (objs : List α) : Except WriteFault (List Block) := do
  let (bs, b) ← packLoop encode objs ⟨streamId, blockSize, pos, [], 0, 0⟩
  let (cs, _) ← b.getblock true (b.data.length + 1)
  return bs ++ cs

/-- `DDFF.write` calls `DDFFStream.write` with a block size as a further argument, which that
does not have. -/
def ddffWrite (streams : List (ℕ × List α)) : Except WriteFault (List Block) :=
  if streams = [] then .ok [] else .error .typeError

/-- Write the streams with `DDFFStream.write`, one after the other; each has a block size. -/
def writeEach : ℕ → List (ℕ × List α) → List Block → Except WriteFault (List Block)
  | _, [], bs => .ok bs
  | streamId, (blockSize, objs) :: streams, bs => do
    let cs ← streamWrite encode streamId blockSize (extent bs) objs
    writeEach (streamId + 1) streams (bs ++ cs)

end Streams

/-! ### Taking blocks -/

/-- What is waiting after the full blocks have been taken. -/
def settle (blockSize p : ℕ) : ℕ :=
  if p < blockSize then p
  else controlBlockSize + (p - controlBlockSize) % (blockSize - controlBlockSize)

/-- No block is taken at the moment that exactly its size is waiting: such a block gets no link,
although some bytes remain. -/
def Uncut (blockSize p : ℕ) : Prop :=
  p < blockSize ∨ (p - controlBlockSize) % (blockSize - controlBlockSize) ≠ 0

/-- Every block but the last gets a link, for objects of these lengths when `p` bytes are
waiting: no block is taken when exactly its size is waiting, and in the end there is not more
than what fits in one block. -/
def LinksKept (blockSize : ℕ) : ℕ → List ℕ → Prop
  | p, [] => p ≤ blockSize - controlBlockSize
  | p, n :: ns => Uncut blockSize (p + n) ∧ LinksKept blockSize (settle blockSize (p + n)) ns

instance (blockSize p : ℕ) : Decidable (Uncut blockSize p) := inferInstanceAs (Decidable (_ ∨ _))

instance decidableLinksKept (blockSize : ℕ) : ∀ p ns, Decidable (LinksKept blockSize p ns)
  | _, [] => inferInstanceAs (Decidable (_ ≤ _))
  | p, n :: ns =>
    have := decidableLinksKept blockSize (settle blockSize (p + n)) ns
    inferInstanceAs (Decidable (_ ∧ _))

/-- The blocks that have been taken from a buffer. -/
structure Taken (start : ℕ) (es : List Block) (b : DDFFBuffer) : Prop where
  size : controlBlockSize < b.blockSize
  count : b.blockcount = es.length
  offset : b.offset = start + es.length * b.blockSize
  le : es.length * b.room ≤ b.data.length
  tails : (es.map Block.tail).flatten = b.data.take (es.length * b.room)
  fits : ∀ e ∈ es, e.Fits ∧ e.streamId = b.streamId ∧ e.blockSize = b.blockSize
  links : ∀ e ∈ placed start es, e.2.nextOffset = (e.1 + b.blockSize : ℕ)

namespace Taken

variable {start : ℕ} {es : List Block} {b : DDFFBuffer}

theorem extent_eq (h : Taken start es b) : extent es = es.length * b.blockSize := by
  have hall := h.fits
  clear h
  induction es with
  | nil => simp
  | cons e es ih =>
    rw [extent_cons, ih fun f hf => hall f (List.mem_cons_of_mem e hf),
      (hall e List.mem_cons_self).2.2, List.length_cons]
    ring

theorem size_add (h : Taken start es b) : b.size + es.length * b.room = b.data.length := by
  rw [DDFFBuffer.size, h.count]
  exact Nat.sub_add_cancel h.le

/-- Writing in the buffer does not change the blocks taken. -/
theorem write (h : Taken start es b) (bs : Bytes) : Taken start es (b.write bs) where
  size := h.size
  count := h.count
  offset := h.offset
  le := h.le.trans (by simp [DDFFBuffer.write])
  tails := by
    refine h.tails.trans ?_
    exact (List.take_append_of_le_length h.le).symm
  fits := h.fits
  links := h.links

/-- The next block, when its data area is full. -/
theorem block_fits (h : Taken start es b) (hroom : b.room ≤ b.size) {fill : ℕ}
    (hlow : controlBlockSize ≤ fill) (hhigh : fill ≤ b.blockSize)
    (hpack : packable (b.block fill)) : (b.block fill).Fits := by
  obtain ⟨hid, hsize, -, hobject, hnum, hnext⟩ := hpack
  have hadd := h.size_add
  have hcount := h.count
  have hpos := h.size
  refine ⟨?_, ⟨hlow, hhigh⟩, hnext, hid, hsize, hobject, hnum⟩
  change ((b.data.drop (b.blockcount * b.room)).take b.room).length + _ = b.blockSize
  rw [List.length_take, List.length_drop, hcount]
  simp only [DDFFBuffer.room] at hroom hadd ⊢
  omega

/-- The data in the next block, when its data area is full. -/
theorem block_tail (b : DDFFBuffer) :
    (b.block b.blockSize).tail = (b.data.drop (b.blockcount * b.room)).take b.room := by
  change ((b.data.drop (b.blockcount * b.room)).take b.room).take
    (b.blockSize - controlBlockSize) = _
  exact List.take_of_length_le (List.length_take_le _ _)

/-- A full block is taken, with more data waiting behind it. -/
theorem advance (h : Taken start es b) (hmore : b.blockSize < b.size)
    (hpack : packable (b.block b.blockSize)) :
    Taken start (es ++ [b.block b.blockSize]) b.advance := by
  have hroom : b.room ≤ b.size := (Nat.sub_le _ _).trans hmore.le
  have hadd := h.size_add
  have hmul : (es.length + 1) * b.room = es.length * b.room + b.room := Nat.succ_mul _ _
  refine ⟨h.size, ?_, ?_, ?_, ?_, ?_, ?_⟩
  · rw [List.length_append, List.length_singleton]
    exact congrArg (· + 1) h.count
  · rw [List.length_append, List.length_singleton]
    change b.offset + b.blockSize = start + (es.length + 1) * b.blockSize
    rw [h.offset]
    ring
  · rw [List.length_append, List.length_singleton]
    change (es.length + 1) * b.room ≤ b.data.length
    omega
  · rw [List.map_append, List.flatten_append, h.tails, List.length_append, List.length_singleton]
    change _ ++ ((b.block b.blockSize).tail ++ []) = b.data.take ((es.length + 1) * b.room)
    rw [List.append_nil, block_tail, h.count, hmul, List.take_add]
  · intro e he
    obtain he | he := List.mem_append.mp he
    · exact h.fits e he
    · obtain rfl := List.mem_singleton.mp he
      exact ⟨h.block_fits hroom h.size.le le_rfl hpack, rfl, rfl⟩
  · intro e he
    rw [placed_append] at he
    obtain he | he := List.mem_append.mp he
    · exact h.links e he
    · obtain rfl := List.mem_singleton.mp he
      change (if b.blockSize < b.size then ((b.offset + b.blockSize : ℕ) : ℤ) else -1) = _
      rw [if_pos hmore, h.offset, h.extent_eq]
      rfl

end Taken

theorem DDFFBuffer.advance_size (b : DDFFBuffer) : b.advance.size = b.size - b.room := by
  change b.data.length - (b.blockcount + 1) * b.room = _
  rw [DDFFBuffer.size, Nat.succ_mul, Nat.sub_add_eq]

theorem settle_sub {blockSize p : ℕ} (hsize : controlBlockSize < blockSize) (hp : blockSize < p) :
    settle blockSize (p - (blockSize - controlBlockSize)) = settle blockSize p := by
  have hmod : (p - controlBlockSize) % (blockSize - controlBlockSize) =
      (p - (blockSize - controlBlockSize) - controlBlockSize) % (blockSize - controlBlockSize) := by
    rw [Nat.mod_eq_sub_mod (by omega)]
    congr 1
    omega
  unfold settle
  rw [if_neg (by omega : ¬ p < blockSize), hmod]
  split
  · rw [Nat.mod_eq_of_lt (by omega)]
    omega
  · rfl

theorem uncut_sub {blockSize p : ℕ} (hsize : controlBlockSize < blockSize) (hp : blockSize ≤ p)
    (h : Uncut blockSize p) :
    blockSize < p ∧ Uncut blockSize (p - (blockSize - controlBlockSize)) := by
  obtain h | h := h
  · omega
  · have hmod : (p - controlBlockSize) % (blockSize - controlBlockSize) =
        (p - (blockSize - controlBlockSize) - controlBlockSize) %
          (blockSize - controlBlockSize) := by
      rw [Nat.mod_eq_sub_mod (by omega)]
      congr 1
      omega
    refine ⟨hp.lt_of_ne fun heq => h ?_, .inr (hmod ▸ h)⟩
    rw [← heq, Nat.mod_self]

/-- The full blocks are taken, and each gets a link. -/
theorem Taken.getblock {start : ℕ} {es : List Block} {b : DDFFBuffer} (h : Taken start es b)
    (hcut : Uncut b.blockSize b.size) {n : ℕ} {cs : List Block} {b' : DDFFBuffer}
    (hrun : b.getblock false n = .ok (cs, b')) :
    Taken start (es ++ cs) b' ∧ b'.data = b.data ∧ b'.streamId = b.streamId ∧
      b'.blockSize = b.blockSize ∧ b'.size = settle b.blockSize b.size ∧
      cs.map Block.objectOffset ++ [b'.objectOffset] =
        b.objectOffset :: List.replicate cs.length 0 ∧
      (cs = [] ↔ b.size < b.blockSize) := by
  induction n generalizing b es cs with
  | zero => cases hrun
  | succ n ih =>
    unfold DDFFBuffer.getblock at hrun
    by_cases hfull : b.blockSize ≤ b.size
    · obtain ⟨hmore, hcut'⟩ := uncut_sub h.size hfull hcut
      simp only [hfull, true_or, if_true, Bool.false_eq_true, false_and, if_false] at hrun
      split at hrun
      · rename_i hpack
        obtain ⟨⟨ds, last⟩, hrest, hok⟩ := bind_eq_ok.mp hrun
        cases hok
        have hsize := b.advance_size
        have hadv := h.advance hmore hpack
        obtain ⟨htaken, hdata, hid, hbs, hwait, hoffsets, -⟩ := ih hadv (by rwa [hsize]) hrest
        refine ⟨?_, hdata, hid, hbs, ?_, ?_, ?_⟩
        · rwa [List.append_assoc] at htaken
        · rw [hwait, hsize]
          exact settle_sub h.size hmore
        · rw [List.map_cons, List.cons_append, hoffsets]
          rfl
        · simp [hfull]
      · cases hrun
    · simp only [hfull, Bool.false_eq_true, false_and, or_false, if_false] at hrun
      cases hrun
      refine ⟨by rwa [List.append_nil], rfl, rfl, rfl, ?_, rfl, by simpa using hfull⟩
      rw [settle, if_pos (Nat.not_le.mp hfull)]

/-! ### Where objects start -/

/-- The offset in block number `j` of the first object that starts there, or 0, when the
objects start at these places in the data. -/
def startIn (room : ℕ) (starts : List ℕ) (j : ℕ) : ℕ :=
  match starts.find? fun s => s / room = j with
  | some s => s % room + controlBlockSize
  | none => 0

/-- The buffer sees the start of every object in the block it is in, for objects of these
lengths when `p` bytes are waiting; `seen` tells that an object starts in the next block. An
object is never written when a full block is still waiting, and one starts in the last block,
if that is not full. -/
def StartsSeen (blockSize : ℕ) : ℕ → Bool → List ℕ → Prop
  | p, seen, [] => p = 0 ∨ p = blockSize - controlBlockSize ∨ seen = true
  | p, _, n :: ns => p < blockSize - controlBlockSize ∧
    StartsSeen blockSize (settle blockSize (p + n)) (decide (p + n < blockSize)) ns

/-- The offsets in the blocks taken and in the next one are those of the first objects. -/
structure Starts (starts : List ℕ) (es : List Block) (b : DDFFBuffer) : Prop where
  offsets : es.map Block.objectOffset ++ [b.objectOffset] =
    (List.range (es.length + 1)).map (startIn b.room starts)
  le : ∀ s ∈ starts, s / b.room ≤ es.length

theorem startIn_append_of_ne {room s j : ℕ} {starts : List ℕ} (h : s / room ≠ j) :
    startIn room (starts ++ [s]) j = startIn room starts j := by
  unfold startIn
  rw [List.find?_append]
  cases starts.find? fun s => s / room = j with
  | some t => rfl
  | none => simp [h]

theorem startIn_append_self (room s : ℕ) (starts : List ℕ) :
    startIn room (starts ++ [s]) (s / room) =
      if startIn room starts (s / room) = 0 then s % room + controlBlockSize
      else startIn room starts (s / room) := by
  unfold startIn
  rw [List.find?_append]
  cases starts.find? fun t => t / room = s / room with
  | some t => simp [controlBlockSize]
  | none => simp

theorem startIn_of_forall_lt {room j : ℕ} {starts : List ℕ} (h : ∀ s ∈ starts, s / room < j) :
    startIn room starts j = 0 := by
  unfold startIn
  rw [List.find?_eq_none.mpr fun s hs => by simpa using (h s hs).ne]

namespace Starts

variable {start : ℕ} {es : List Block} {b : DDFFBuffer} {starts : List ℕ}

/-- An object is written. -/
theorem write (h : Starts starts es b) (ht : Taken start es b) (hroom : b.size < b.room)
    (bs : Bytes) : Starts (starts ++ [b.data.length]) es (b.write bs) := by
  have hadd := ht.size_add
  have hpos : 0 < b.room := Nat.zero_lt_of_lt hroom
  have hdiv : b.data.length / b.room = es.length := by
    rw [← hadd, Nat.add_mul_div_right _ _ hpos, Nat.div_eq_of_lt hroom, Nat.zero_add]
  have hlast : b.objectOffset = startIn b.room starts es.length := by
    have hoffsets := h.offsets
    rw [List.range_succ, List.map_append] at hoffsets
    exact List.singleton_inj.mp (List.append_inj_right' hoffsets rfl)
  have hinit : es.map Block.objectOffset =
      (List.range es.length).map (startIn b.room starts) := by
    have hoffsets := h.offsets
    rw [List.range_succ, List.map_append] at hoffsets
    exact List.append_inj_left' hoffsets rfl
  refine ⟨?_, fun s hs => ?_⟩
  · change es.map Block.objectOffset ++ [if b.objectOffset = 0 then _ else b.objectOffset] =
      (List.range (es.length + 1)).map (startIn b.room (starts ++ [b.data.length]))
    rw [List.range_succ, List.map_append, hinit, hlast]
    congr 1
    · refine List.map_congr_left fun j hj => (startIn_append_of_ne ?_).symm
      rw [hdiv]
      exact (List.mem_range.mp hj).ne'
    · rw [List.map_singleton, ← hdiv, startIn_append_self]
  · change s / b.room ≤ es.length
    obtain hs | hs := List.mem_append.mp hs
    · exact h.le s hs
    · obtain rfl := List.mem_singleton.mp hs
      exact hdiv.le

/-- Blocks are taken. -/
theorem take (h : Starts starts es b) {cs : List Block} {b' : DDFFBuffer}
    (hsize : b'.blockSize = b.blockSize)
    (hoffsets : cs.map Block.objectOffset ++ [b'.objectOffset] =
      b.objectOffset :: List.replicate cs.length 0) : Starts starts (es ++ cs) b' := by
  have hroom : b'.room = b.room := congrArg (· - controlBlockSize) hsize
  refine ⟨?_, fun s hs => ?_⟩
  · have hrange : List.range (es.length + cs.length + 1) =
        List.range (es.length + 1) ++ (List.range cs.length).map (es.length + 1 + ·) := by
      rw [← List.range_add, Nat.add_right_comm]
    rw [List.map_append, List.append_assoc, hoffsets, ← List.singleton_append, ← List.append_assoc,
      h.offsets, List.length_append, hroom, hrange, List.map_append]
    congr 1
    refine (List.eq_replicate_iff.mpr ⟨by simp, fun x hx => ?_⟩).symm
    obtain ⟨j, hj, rfl⟩ := List.mem_map.mp hx
    obtain ⟨i, -, rfl⟩ := List.mem_map.mp hj
    exact startIn_of_forall_lt fun s hs => (h.le s hs).trans_lt (by omega)
  · rw [hroom, List.length_append]
    exact (h.le s hs).trans (Nat.le_add_right _ _)

end Starts

/-! ### The blocks of a stream -/

/-- Where objects of these lengths start, the first at `pos`. -/
def startsOf : ℕ → List ℕ → List ℕ
  | _, [] => []
  | pos, n :: ns => pos :: startsOf (pos + n) ns

section Streams

variable {α : Type} {encode : α → Bytes} {start : ℕ} {es : List Block} {b : DDFFBuffer}

theorem DDFFBuffer.size_write (b : DDFFBuffer) (bs : Bytes)
    (h : b.blockcount * b.room ≤ b.data.length) : (b.write bs).size = b.size + bs.length := by
  change (b.data ++ bs).length - b.blockcount * b.room = _
  rw [List.length_append, DDFFBuffer.size, Nat.sub_add_comm h]

theorem settle_pos {blockSize p : ℕ} (h : blockSize ≤ p) : 0 < settle blockSize p := by
  rw [settle, if_neg (Nat.not_lt.mpr h)]
  exact Nat.lt_add_right _ (by decide)

/-- All objects are packed. -/
theorem Taken.packLoop (h : Taken start es b) (hne : es = [] ∨ 0 < b.size) {objs : List α}
    (hkept : LinksKept b.blockSize b.size (objs.map fun a => (encode a).length))
    {cs : List Block} {b' : DDFFBuffer} (hrun : packLoop encode objs b = .ok (cs, b')) :
    Taken start (es ++ cs) b' ∧ (es ++ cs = [] ∨ 0 < b'.size) ∧ b'.size ≤ b'.room ∧
      b'.data = b.data ++ objs.flatMap encode ∧ b'.streamId = b.streamId ∧
      b'.blockSize = b.blockSize ∧
      ∀ starts seen, Starts starts es b → (seen = true → b.objectOffset ≠ 0) →
        StartsSeen b.blockSize b.size seen (objs.map fun a => (encode a).length) →
        Starts (starts ++ startsOf b.data.length (objs.map fun a => (encode a).length))
          (es ++ cs) b' ∧ (b'.size = 0 ∨ b'.size = b'.room ∨ b'.objectOffset ≠ 0) := by
  induction objs generalizing es b cs with
  | nil =>
    cases hrun
    rw [List.append_nil]
    refine ⟨h, hne, hkept, by simp, rfl, rfl, fun starts seen hs hseen hall => ⟨?_, ?_⟩⟩
    · simpa [startsOf] using hs
    · exact hall.imp_right (Or.imp_right hseen)
  | cons a objs ih =>
    obtain ⟨⟨ds, b₁⟩, hget, hrest⟩ := bind_eq_ok.mp hrun
    obtain ⟨⟨ds', b₂⟩, hloop, hok⟩ := bind_eq_ok.mp hrest
    cases hok
    have hle : b.blockcount * b.room ≤ b.data.length := by
      rw [h.count]
      exact h.le
    have hsize := b.size_write (encode a) hle
    obtain ⟨hcut, hkept'⟩ := hkept
    obtain ⟨ht₁, hdata₁, hid₁, hbs₁, hsize₁, hoffsets₁, hnone₁⟩ :=
      (h.write (encode a)).getblock (by rwa [hsize]) hget
    change b₁.data = b.data ++ encode a at hdata₁
    change b₁.streamId = b.streamId at hid₁
    change b₁.blockSize = b.blockSize at hbs₁
    change b₁.size = settle b.blockSize (b.write (encode a)).size at hsize₁
    change ds = [] ↔ (b.write (encode a)).size < b.blockSize at hnone₁
    rw [hsize] at hsize₁ hnone₁
    have hne₁ : es ++ ds = [] ∨ 0 < b₁.size := by
      by_cases hfull : b.blockSize ≤ b.size + (encode a).length
      · exact .inr (hsize₁ ▸ settle_pos hfull)
      · have hds := hnone₁.mpr (Nat.not_le.mp hfull)
        rw [hds, List.append_nil, hsize₁, settle, if_pos (Nat.not_le.mp hfull)]
        exact hne.imp_right fun hpos => Nat.add_pos_left hpos _
    obtain ⟨ht₂, hne₂, hroom₂, hdata₂, hid₂, hbs₂, hstarts₂⟩ :=
      ih ht₁ hne₁ (by rw [hbs₁, hsize₁]; exact hkept') hloop
    rw [List.append_assoc] at ht₂ hne₂ hstarts₂
    refine ⟨ht₂, hne₂, hroom₂, ?_, hid₂.trans hid₁, hbs₂.trans hbs₁,
      fun starts seen hs hseen hall => ?_⟩
    · rw [hdata₂, hdata₁, List.flatMap_cons, List.append_assoc]
    · obtain ⟨hlt, hall'⟩ := hall
      have htake := (hs.write h hlt (encode a)).take hbs₁ hoffsets₁
      have hseen₁ : decide (b.size + (encode a).length < b.blockSize) = true →
          b₁.objectOffset ≠ 0 := by
        intro hroom
        rw [hnone₁.mpr (of_decide_eq_true hroom)] at hoffsets₁
        rw [List.singleton_inj.mp hoffsets₁]
        change (if b.objectOffset = 0 then b.data.length % b.room + controlBlockSize
          else b.objectOffset) ≠ 0
        split
        · exact Nat.succ_ne_zero _
        · assumption
      obtain ⟨hfinal, hlast⟩ := hstarts₂ _ _ htake hseen₁ (by rw [hbs₁, hsize₁]; exact hall')
      refine ⟨?_, hlast⟩
      rw [hdata₁, List.length_append, List.append_assoc] at hfinal
      exact hfinal

/-- Blocks that each hold the position behind them, and a last one with a mark, are linked. -/
theorem links_of_forall {size pos : ℕ} {es : List Block} {last : Block}
    (hsize : ∀ e ∈ es, e.blockSize = size)
    (hnext : ∀ e ∈ placed pos es, e.2.nextOffset = (e.1 + size : ℕ))
    (hlast : isLastMark last.nextOffset) : Links (placed pos (es ++ [last])) := by
  induction es generalizing pos with
  | nil => exact hlast
  | cons e es ih =>
    have hnext' : ∀ f ∈ placed (pos + e.blockSize) es, f.2.nextOffset = (f.1 + size : ℕ) :=
      fun f hf => hnext f (List.mem_cons_of_mem _ hf)
    have htail := ih (fun f hf => hsize f (List.mem_cons_of_mem e hf)) hnext'
    have he := hnext (pos, e) List.mem_cons_self
    rw [← hsize e List.mem_cons_self] at he
    cases es with
    | nil => exact ⟨he, htail⟩
    | cons f es => exact ⟨he, htail⟩

theorem DDFFBuffer.pad_size {b : DDFFBuffer} (hsize : controlBlockSize < b.blockSize)
    (hle : b.blockcount * b.room ≤ b.data.length) (hroom : b.size ≤ b.room) :
    b.pad.size = b.room := by
  unfold DDFFBuffer.pad
  unfold DDFFBuffer.room at hroom
  split
  · rw [DDFFBuffer.size_write b _ hle, List.length_replicate, DDFFBuffer.room]
    omega
  · rw [DDFFBuffer.room]
    omega

/-- The padding adds data. It changes the offset of the first object only when there is none. -/
theorem DDFFBuffer.pad_eq (b : DDFFBuffer) :
    ∃ zs, b.pad = { b with data := b.data ++ zs, objectOffset := b.pad.objectOffset } ∧
      (b.size = b.room ∨ b.objectOffset ≠ 0 → b.pad.objectOffset = b.objectOffset) := by
  unfold DDFFBuffer.pad
  split
  · rename_i hlt
    refine ⟨_, rfl, fun h => ?_⟩
    obtain h | h := h
    · unfold DDFFBuffer.room at h
      omega
    · exact if_neg h
  · exact ⟨[], by rw [List.append_nil], fun _ => rfl⟩

theorem Taken.pad (h : Taken start es b) : Taken start es b.pad := by
  unfold DDFFBuffer.pad
  split
  · exact h.write _
  · exact h

theorem DDFFBuffer.getblock_empty {b : DDFFBuffer} (hsize : 0 < b.blockSize) (hzero : b.size = 0)
    {n : ℕ} {cs : List Block} {b' : DDFFBuffer} (h : b.getblock true n = .ok (cs, b')) :
    cs = [] := by
  cases n with
  | zero => cases h
  | succ n =>
    unfold DDFFBuffer.getblock at h
    rw [if_neg (by simp [hzero, hsize.ne'])] at h
    cases h
    rfl

/-- What is left is written in a last block. -/
theorem Taken.flush (h : Taken start es b) (hne : es = [] ∨ 0 < b.size) (hroom : b.size ≤ b.room)
    {n : ℕ} {cs : List Block} {b' : DDFFBuffer} (hrun : b.getblock true n = .ok (cs, b')) :
    ((es ++ cs).map Block.tail).flatten = b.data ∧ Links (placed start (es ++ cs)) ∧
      (∀ e, (es ++ cs).getLast? = some e → e.nextOffset = -1) ∧
      (∀ e ∈ es ++ cs, e.Fits ∧ e.streamId = b.streamId ∧ e.blockSize = b.blockSize) ∧
      (es ++ cs = [] → b.data = []) ∧
      ∀ starts, Starts starts es b → (b.size = 0 ∨ b.size = b.room ∨ b.objectOffset ≠ 0) →
        (es ++ cs).map Block.objectOffset =
          (List.range (es ++ cs).length).map (startIn b.room starts) := by
  have hadd := h.size_add
  have hbs := h.size
  have hlt : ¬ b.blockSize ≤ b.size := by
    simp only [DDFFBuffer.room, controlBlockSize] at hroom hbs
    omega
  cases n with
  | zero => cases hrun
  | succ n =>
    unfold DDFFBuffer.getblock at hrun
    by_cases hzero : b.size = 0
    · rw [if_neg (not_or.mpr ⟨hlt, fun h0 => hzero.not_gt h0.2⟩)] at hrun
      cases hrun
      have hempty : es = [] := hne.resolve_right (Nat.not_lt.mpr hzero.le)
      subst hempty
      have hdata : b.data = [] := List.length_eq_zero_iff.mp (by simpa [hzero] using hadd.symm)
      simp [hdata, placed, Links]
    · have hpos : 0 < b.size := Nat.pos_of_ne_zero hzero
      have hle : b.blockcount * b.room ≤ b.data.length := by
        rw [h.count]
        exact h.le
      have hpad := DDFFBuffer.pad_size hbs hle hroom
      -- the block is filled up to what was waiting
      have hfill : (if b.size + controlBlockSize < b.blockSize
          then b.size + controlBlockSize else b.blockSize) = b.size + controlBlockSize := by
        have hroom' : b.size ≤ b.blockSize - controlBlockSize := hroom
        split <;> omega
      rw [if_pos (.inr ⟨rfl, hpos⟩)] at hrun
      simp only [true_and, hfill, if_true] at hrun
      by_cases hpack : packable (b.pad.block (b.size + controlBlockSize))
      · rw [if_pos hpack] at hrun
        obtain ⟨⟨ds, last⟩, hrest, hok⟩ := bind_eq_ok.mp hrun
        cases hok
        obtain ⟨zs, hpadeq, hobject⟩ := b.pad_eq
        have hdata : b.pad.data = b.data ++ zs := congrArg DDFFBuffer.data hpadeq
        have hbs' : b.pad.blockSize = b.blockSize :=
          (congrArg DDFFBuffer.blockSize hpadeq).trans rfl
        have hroom' : b.pad.room = b.room := congrArg (· - controlBlockSize) hbs'
        have hcount' : b.pad.blockcount = es.length := h.pad.count
        have hds : ds = [] := by
          refine DDFFBuffer.getblock_empty ?_ ?_ hrest
          · exact (Nat.zero_lt_of_lt hbs).trans_eq hbs'.symm
          · rw [DDFFBuffer.advance_size, hpad, hroom', Nat.sub_self]
        subst hds
        have hle' : b.size + controlBlockSize ≤ b.blockSize := by
          have hroom' : b.size ≤ b.blockSize - controlBlockSize := hroom
          omega
        have hfits : (b.pad.block (b.size + controlBlockSize)).Fits :=
          h.pad.block_fits (by rw [hpad, hroom']) (Nat.le_add_left _ _) (by rwa [hbs']) hpack
        have htail : (b.pad.block (b.size + controlBlockSize)).tail =
            b.data.drop (es.length * b.room) := by
          have hdrop : (b.data.drop (es.length * b.room)).length = b.size := by
            rw [List.length_drop]
            omega
          change ((b.pad.data.drop (b.pad.blockcount * b.pad.room)).take b.pad.room).take
            (b.size + controlBlockSize - controlBlockSize) = _
          rw [hdata, hcount', hroom', Nat.add_sub_cancel, List.take_take, Nat.min_eq_left hroom,
            List.drop_append_of_le_length h.le, List.take_left' hdrop]
        have hmark : (b.pad.block (b.size + controlBlockSize)).nextOffset = -1 := by
          change (if b.pad.blockSize < b.pad.size then _ else (-1 : ℤ)) = -1
          rw [hpad, hbs']
          exact if_neg (Nat.not_lt.mpr (Nat.sub_le _ _))
        refine ⟨?_, ?_, fun e he => ?_, fun e he => ?_, fun hnil => ?_, fun starts hs hlast => ?_⟩
        · rw [List.map_append, List.flatten_append, h.tails, List.map_singleton, htail]
          simp
        · exact links_of_forall (fun e he => (h.fits e he).2.2) h.links (.inr hmark)
        · rw [List.getLast?_append_of_ne_nil _ (List.cons_ne_nil _ _)] at he
          obtain rfl := Option.some.inj he
          exact hmark
        · obtain he | he := List.mem_append.mp he
          · exact h.fits e he
          · obtain rfl := List.mem_singleton.mp he
            exact ⟨hfits, (congrArg DDFFBuffer.streamId hpadeq).trans rfl, hbs'⟩
        · simp at hnil
        · have hoffset := hobject (hlast.resolve_left hzero)
          rw [List.map_append, List.map_singleton, List.length_append, List.length_singleton,
            ← hs.offsets]
          exact congrArg (_ ++ [·]) hoffset
      · rw [if_neg hpack] at hrun
        cases hrun

/-- The blocks of a stream, when every block but the last gets a link. -/
theorem streamWrite_spec {streamId blockSize pos : ℕ} {objs : List α}
    (hsize : controlBlockSize < blockSize)
    (hkept : LinksKept blockSize 0 (objs.map fun a => (encode a).length)) {es : List Block}
    (hrun : streamWrite encode streamId blockSize pos objs = .ok es) :
    (es.map Block.tail).flatten = objs.flatMap encode ∧ Links (placed pos es) ∧
      (∀ e, es.getLast? = some e → e.nextOffset = -1) ∧
      (∀ e ∈ es, e.Fits ∧ e.streamId = streamId ∧ e.blockSize = blockSize) ∧
      (es = [] → objs.flatMap encode = []) ∧
      (StartsSeen blockSize 0 false (objs.map fun a => (encode a).length) →
        es.map Block.objectOffset = (List.range es.length).map (startIn
          (blockSize - controlBlockSize) (startsOf 0 (objs.map fun a => (encode a).length)))) := by
  obtain ⟨⟨cs, b⟩, hloop, hrest⟩ := bind_eq_ok.mp hrun
  obtain ⟨⟨ds, b'⟩, hflush, hok⟩ := bind_eq_ok.mp hrest
  cases hok
  have hstart : Taken pos [] (⟨streamId, blockSize, pos, [], 0, 0⟩ : DDFFBuffer) :=
    ⟨hsize, rfl, by simp, by simp, by simp, by simp, by simp [placed]⟩
  have hzero : (⟨streamId, blockSize, pos, [], 0, 0⟩ : DDFFBuffer).size = 0 := Nat.zero_sub _
  obtain ⟨htaken, hne, hroom, hdata, hid, hbs, hstarts⟩ :=
    hstart.packLoop (.inl rfl) (by rw [hzero]; exact hkept) hloop
  change b.blockSize = blockSize at hbs
  change b.streamId = streamId at hid
  change b.data = objs.flatMap encode at hdata
  obtain ⟨htails, hlinks, hlast, hfits, hempty, hoffsets⟩ := htaken.flush hne hroom hflush
  rw [hid, hbs] at hfits
  rw [hdata] at htails hempty
  refine ⟨htails, hlinks, hlast, hfits, hempty, fun hseen => ?_⟩
  have hbroom : b.room = blockSize - controlBlockSize := congrArg (· - controlBlockSize) hbs
  obtain ⟨hs, hend⟩ := hstarts [] false ⟨rfl, by simp⟩ (fun h => by cases h)
    (by rw [hzero]; exact hseen)
  rw [← hbroom]
  exact hoffsets _ hs hend

/-- Each stream is written behind the ones before it. -/
theorem writeEach_view {streams : List (ℕ × List α)} (hsize : ∀ x ∈ streams, controlBlockSize < x.1)
    (hkept : ∀ x ∈ streams, LinksKept x.1 0 (x.2.map fun a => (encode a).length))
    {streamId : ℕ} {bs ls : List Block} (hbs : ∀ b ∈ bs, b.Fits ∧ b.streamId < streamId)
    (hrun : writeEach encode streamId streams bs = .ok ls) :
    (∀ b ∈ ls, b.Fits) ∧ (∀ s < streamId, view s ls = view s bs) ∧
      ∀ k x, streams[k]? = some x → ∃ pos es,
        streamWrite encode (streamId + k) x.1 pos x.2 = .ok es ∧
          view (streamId + k) ls = placed pos es := by
  induction streams generalizing streamId bs with
  | nil =>
    cases hrun
    exact ⟨fun b hb => (hbs b hb).1, fun _ _ => rfl, fun k x hx => nomatch hx⟩
  | cons x streams ih =>
    obtain ⟨cs, hwrite, hrest⟩ := bind_eq_ok.mp hrun
    obtain ⟨-, -, -, hcs, -⟩ := streamWrite_spec (hsize x List.mem_cons_self)
      (hkept x List.mem_cons_self) hwrite
    have hall : ∀ b ∈ bs ++ cs, b.Fits ∧ b.streamId < streamId + 1 := by
      intro b hb
      obtain hb | hb := List.mem_append.mp hb
      · exact ⟨(hbs b hb).1, (hbs b hb).2.trans (Nat.lt_succ_self _)⟩
      · exact ⟨(hcs b hb).1, (hcs b hb).2.1 ▸ Nat.lt_succ_self _⟩
    obtain ⟨hfits, hbefore, hafter⟩ := ih (fun y hy => hsize y (List.mem_cons_of_mem x hy))
      (fun y hy => hkept y (List.mem_cons_of_mem x hy)) hall hrest
    have hview (s : ℕ) : view s (bs ++ cs) =
        view s bs ++ (placed (extent bs) cs).filter fun e => e.2.streamId = s := view_append s bs cs
    have hmem {e : ℕ × Block} (he : e ∈ placed (extent bs) cs) : e.2.streamId = streamId := by
      obtain ⟨ds, ds', rfl, -⟩ := exists_split_of_placed he
      exact (hcs e.2 (by simp)).2.1
    refine ⟨hfits, fun s hs => ?_, fun k y hy => ?_⟩
    · rw [hbefore s (hs.trans (Nat.lt_succ_self _)), hview,
        List.filter_eq_nil_iff.mpr fun e he => by simp [hmem he, hs.ne'], List.append_nil]
    · cases k with
      | zero =>
        obtain rfl : x = y := Option.some.inj hy
        refine ⟨extent bs, cs, hwrite, ?_⟩
        have hnone : view streamId bs = [] := List.filter_eq_nil_iff.mpr fun e he => by
          obtain ⟨ds, ds', hsplit, -⟩ := exists_split_of_placed he
          have hlt := (hbs e.2 (hsplit ▸ by simp)).2
          simp [hlt.ne]
        rw [Nat.add_zero, hbefore streamId (Nat.lt_succ_self _), hview, hnone, List.nil_append]
        exact List.filter_eq_self.mpr fun e he => decide_eq_true (hmem he)
      | succ k =>
        have hk : streamId + (k + 1) = streamId + 1 + k := by omega
        rw [hk]
        exact hafter k y hy

end Streams

section Reading

variable {α : Type} {F : Framing α UInt8}

/-- Something is written for each object. -/
theorem encode_ne_nil {a : α} (h : F.good a) : F.encode a ≠ [] := by
  intro hnil
  have hnext := F.next_encode a [] h
  rw [hnil, List.nil_append, F.next_nil] at hnext
  cases hnext

/-- The file that is written for streams. The blocks of each stream are linked, with the mark -1
in the last. The scan finds the first one, and the reader gives the objects that were written
when the decoder gets all of the data. The object offsets are those of the first objects. -/
theorem writeEach_reads (U : Unpacker F) (crc : Bytes → UInt16) {streams : List (ℕ × List α)}
    (hsize : ∀ x ∈ streams, controlBlockSize < x.1) (hgood : ∀ x ∈ streams, ∀ a ∈ x.2, F.good a)
    (hkept : ∀ x ∈ streams, LinksKept x.1 0 (x.2.map fun a => (F.encode a).length))
    {ls : List Block} (hrun : writeEach F.encode 0 streams [] = .ok ls)
    (hlen : (fileBytes crc ls).length < 2 ^ 63) {k blockSize : ℕ} {objs : List α}
    (hk : streams[k]? = some (blockSize, objs)) :
    Links (view k ls) ∧
      (∀ e, (view k ls).getLast? = some e → e.2.nextOffset = -1) ∧
      (view k ls = [] ↔ objs = []) ∧
      (∀ e es, view k ls = e :: es →
        (∃ found, scanStreams crc (fileBytes crc ls) (ls.length + 1) 0 [] = .ok found ∧
          streamOf found k = some (e.2.parsed e.1)) ∧
        (Yields crc (fileBytes crc ls) U (e.2.parsed e.1) objs ↔
          Feeds U.tell ((view k ls).map fun f => f.2.tail))) ∧
      (StartsSeen blockSize 0 false (objs.map fun a => (F.encode a).length) →
        (view k ls).map (fun f => f.2.objectOffset) =
          (List.range (view k ls).length).map (startIn (blockSize - controlBlockSize)
            (startsOf 0 (objs.map fun a => (F.encode a).length)))) := by
  have hmem : (blockSize, objs) ∈ streams := List.mem_of_getElem? hk
  obtain ⟨hfits, -, hview⟩ :=
    writeEach_view hsize hkept (fun b hb => absurd hb List.not_mem_nil) hrun
  obtain ⟨pos, es, hwrite, hplaced⟩ := hview k _ hk
  rw [Nat.zero_add] at hwrite hplaced
  obtain ⟨htails, hlinks, hlast, -, hempty, hoffsets⟩ :=
    streamWrite_spec (hsize _ hmem) (hkept _ hmem) hwrite
  change (es.map Block.tail).flatten = F.encodeAll objs at htails
  change es = [] → F.encodeAll objs = [] at hempty
  have hsnd : (view k ls).map Prod.snd = es := by rw [hplaced, map_snd_placed]
  have hflat : ((view k ls).map fun f => f.2.tail).flatten = F.encodeAll objs := by
    rw [← htails, ← hsnd, List.map_map]
    rfl
  refine ⟨hplaced ▸ hlinks, fun e he => ?_, ⟨fun hnil => ?_, fun hnil => ?_⟩,
    fun e es' he => ⟨?_, ?_⟩, fun hseen => ?_⟩
  · refine hlast e.2 ?_
    rw [← hsnd, List.getLast?_map, he]
    rfl
  · have hnone := hempty (by rw [← hsnd, hnil]; rfl)
    cases objs with
    | nil => rfl
    | cons a objs =>
      exact absurd (List.append_eq_nil_iff.mp hnone).1
        (encode_ne_nil (hgood _ hmem a List.mem_cons_self))
  · subst hnil
    have hes : es = [] := by
      obtain ⟨⟨cs, b⟩, hloop, hrest⟩ := bind_eq_ok.mp hwrite
      cases hloop
      obtain ⟨⟨ds, b'⟩, hflush, hok⟩ := bind_eq_ok.mp hrest
      cases hok
      exact DDFFBuffer.getblock_empty (Nat.zero_lt_of_lt (hsize _ hmem)) (Nat.zero_sub _) hflush
    rw [hplaced, hes]
    rfl
  · obtain ⟨found, hfound, hstreams⟩ := scanStreams_eq crc hfits (Nat.lt_succ_self _)
    refine ⟨found, hfound, ?_⟩
    rw [hstreams, he]
    rfl
  · have hsub : ∀ f ∈ e :: es', f ∈ placed 0 ls := fun f hf =>
      List.mem_of_mem_filter (he.symm ▸ hf)
    have hchain := chain_of_links hfits hlen hsub (he ▸ hplaced ▸ hlinks)
    rw [he] at hflat ⊢
    exact yields_iff hchain (hgood _ hmem) hflat
  · have hobjects := hoffsets hseen
    rw [← hsnd, List.map_map, List.length_map] at hobjects
    exact hobjects

/-- A stream with one object, and one without any. -/
def sampleStreams : List (ℕ × List Bytes) := [(64, [List.replicate 68 7]), (32, [])]

def sampleBlocks : List Block :=
  [⟨64, 0, 64, 64, 28, 0, 0xc4 :: 68 :: List.replicate 34 7⟩,
    ⟨-1, 0, 64, 62, 62, 1, List.replicate 34 7 ++ [0, 0]⟩]

set_option maxRecDepth 2000 in
/-- An object that does not fit in one block. -/
theorem writeEach_reads_sample :
    writeEach binFraming.encode 0 sampleStreams [] = .ok sampleBlocks ∧
    ∃ found, scanStreams (fun _ => 0) (fileBytes (fun _ => 0) sampleBlocks) 3 0 [] = .ok found ∧
      streamOf found 0 = some (Block.parsed
        ⟨64, 0, 64, 64, 28, 0, 0xc4 :: 68 :: List.replicate 34 7⟩ 0) ∧
      Yields (fun _ => 0) (fileBytes (fun _ => 0) sampleBlocks) (unpackerOf binFraming)
        (Block.parsed ⟨64, 0, 64, 64, 28, 0, 0xc4 :: 68 :: List.replicate 34 7⟩ 0)
        [List.replicate 68 7] := by
  have hgood : ∀ x ∈ sampleStreams, ∀ a ∈ x.2, binFraming.good a := by
    change ∀ x ∈ sampleStreams, ∀ a ∈ x.2, a.length < 256
    decide
  have hrun : writeEach binFraming.encode 0 sampleStreams [] = .ok sampleBlocks := by decide
  have hstream : sampleStreams[0]? = some (64, [List.replicate 68 7]) := rfl
  obtain ⟨-, -, -, hread, -⟩ := writeEach_reads (unpackerOf binFraming) (fun _ => 0) (by decide)
    hgood (by decide) hrun (by decide) hstream
  obtain ⟨⟨found, hfound, hfirst⟩, hyields⟩ := hread _ _ rfl
  exact ⟨hrun, found, hfound, hfirst, hyields.mpr (feeds_of_lt _ (by decide))⟩

/-- The last block holds a mark that is not zero, and the Python class for files writes no
stream at all. -/
theorem writeEach_last_not_zero :
    writeEach binFraming.encode 0 [(64, [[5]])] [] =
        .ok [⟨-1, 0, 64, 31, 28, 0, 0xc4 :: 1 :: 5 :: List.replicate 33 0⟩] ∧
      ddffWrite [(64, [([5] : Bytes)])] = .error .typeError := by
  decide

end Reading

end Dueca.Ddff
