import Dueca.Lib.Run
import Dueca.Lib.Framing
import Mathlib.Tactic.Ring

/-!
# Blocks of a ddff file

A ddff file consists of blocks. Each begins with a control block of 28 bytes: where the next
block of the same stream is, a checksum, the stream, the size of the block, how far it is
filled, where the first object in it starts, and its number. The checksum does not cover the
first field, so that the link to the next block can be written later.

The checksum function is a parameter, `crc`.
-/

namespace Dueca.Ddff

open Dueca.Lib

abbrev Bytes := List UInt8

/-- Size of the control blocks. -/
def controlBlockSize : ℕ := 28

/-! ### Numbers -/

/-- A signed number in 64 bits. -/
def packInt64 (x : ℤ) : Bytes := bigEndian 8 (BitVec.ofInt 64 x).toNat

def unpackInt64 (bs : Bytes) : ℤ := (BitVec.ofNat 64 (ofBigEndian bs)).toInt

theorem unpackInt64_packInt64 {x : ℤ} (hlow : -2 ^ 63 ≤ x) (hhigh : x < 2 ^ 63) :
    unpackInt64 (packInt64 x) = x := by
  have hlt : (BitVec.ofInt 64 x).toNat < 256 ^ 8 := (BitVec.ofInt 64 x).isLt
  rw [unpackInt64, packInt64, ofBigEndian_bigEndian hlt, BitVec.ofNat_toNat, BitVec.setWidth_eq,
    BitVec.toInt_ofInt]
  exact Int.bmod_eq_of_le_mul_two (by omega) (by omega)

@[simp] theorem length_packInt64 (x : ℤ) : (packInt64 x).length = 8 := length_bigEndian _ _

/-! ### Blocks -/

/-- The fields of a control block. -/
structure ControlBlock where
  nextOffset : ℤ
  checksum : ℕ
  streamId : ℕ
  blockSize : ℕ
  blockFill : ℕ
  objectOffset : ℕ
  blockNum : ℕ
  deriving DecidableEq, Repr

/-- The fields from the first bytes of a block. -/
def unpackControlBlock (header : Bytes) : ControlBlock where
  nextOffset := unpackInt64 (header.take 8)
  checksum := ofBigEndian ((header.drop 8).take 2)
  streamId := ofBigEndian ((header.drop 10).take 2)
  blockSize := ofBigEndian ((header.drop 12).take 4)
  blockFill := ofBigEndian ((header.drop 16).take 4)
  objectOffset := ofBigEndian ((header.drop 20).take 4)
  blockNum := ofBigEndian ((header.drop 24).take 4)

/-- A block. Its content is all of its data area, also what is not filled. -/
structure Block where
  nextOffset : ℤ
  streamId : ℕ
  blockSize : ℕ
  blockFill : ℕ
  objectOffset : ℕ
  blockNum : ℕ
  content : Bytes
  deriving DecidableEq, Repr

namespace Block

variable (crc : Bytes → UInt16) (b : Block)

/-- The fields that the checksum covers. -/
def header1 : Bytes :=
  bigEndian 2 b.streamId ++ bigEndian 4 b.blockSize ++ bigEndian 4 b.blockFill ++
    bigEndian 4 b.objectOffset ++ bigEndian 4 b.blockNum

def checksum : UInt16 := crc (b.header1 ++ b.content)

/-- What is on file for a block. -/
def bytes : Bytes :=
  packInt64 b.nextOffset ++ (bigEndian 2 (b.checksum crc).toNat ++ (b.header1 ++ b.content))

/-- The data in a block: its content up to where it is filled. -/
def tail : Bytes := b.content.take (b.blockFill - controlBlockSize)

/-- The content has the size of the block, and the fields hold their values. -/
structure Fits : Prop where
  size : b.content.length + controlBlockSize = b.blockSize
  fill : controlBlockSize ≤ b.blockFill ∧ b.blockFill ≤ b.blockSize
  nextOffset : -2 ^ 63 ≤ b.nextOffset ∧ b.nextOffset < 2 ^ 63
  streamId : b.streamId < 2 ^ 16
  blockSize : b.blockSize < 2 ^ 32
  objectOffset : b.objectOffset < 2 ^ 32
  blockNum : b.blockNum < 2 ^ 32

@[simp] theorem length_header1 : b.header1.length = 18 := by
  simp only [header1, List.length_append, length_bigEndian]

theorem length_bytes : (b.bytes crc).length = controlBlockSize + b.content.length := by
  simp only [bytes, List.length_append, length_packInt64, length_bigEndian, length_header1,
    controlBlockSize]
  omega

/-- The control block. -/
def header : Bytes :=
  packInt64 b.nextOffset ++ (bigEndian 2 (b.checksum crc).toNat ++ b.header1)

@[simp] theorem length_header : (b.header crc).length = controlBlockSize := by
  simp only [header, List.length_append, length_packInt64, length_bigEndian, length_header1,
    controlBlockSize]

theorem bytes_eq : b.bytes crc = b.header crc ++ b.content := by
  simp only [bytes, header, List.append_assoc]

variable {b}

theorem Fits.length_bytes (h : b.Fits) : (b.bytes crc).length = b.blockSize := by
  rw [Block.length_bytes, ← h.size, Nat.add_comm]

theorem Fits.length_tail (h : b.Fits) : b.tail.length + controlBlockSize = b.blockFill := by
  have hsize := h.size
  have hfill := h.fill
  rw [tail, List.length_take]
  omega

end Block

/-- What is behind a field. -/
theorem drop_field {l a b : Bytes} {m k : ℕ} (h : l.drop m = a ++ b) (ha : a.length = k) :
    l.drop (m + k) = b := by
  rw [← List.drop_drop, h, List.drop_left' ha]

/-- A field. -/
theorem take_field {l a b : Bytes} {k : ℕ} (h : l = a ++ b) (ha : a.length = k) :
    l.take k = a := by
  rw [h, List.take_left' ha]

/-- The fields of a block are read back from its control block. -/
theorem unpackControlBlock_header (crc : Bytes → UInt16) {b : Block} (h : b.Fits) :
    unpackControlBlock (b.header crc) =
      ⟨b.nextOffset, (b.checksum crc).toNat, b.streamId, b.blockSize, b.blockFill,
        b.objectOffset, b.blockNum⟩ := by
  have hfill : b.blockFill < 256 ^ 4 := h.fill.2.trans_lt h.blockSize
  have hcrc : (b.checksum crc).toNat < 256 ^ 2 := (b.checksum crc).toNat_lt
  have hhead : b.header crc =
      packInt64 b.nextOffset ++ (bigEndian 2 (b.checksum crc).toNat ++
        (bigEndian 2 b.streamId ++ (bigEndian 4 b.blockSize ++ (bigEndian 4 b.blockFill ++
          (bigEndian 4 b.objectOffset ++ bigEndian 4 b.blockNum))))) := by
    simp only [Block.header, Block.header1, List.append_assoc]
  have h2 (n : ℕ) := length_bigEndian 2 n
  have h4 (n : ℕ) := length_bigEndian 4 n
  have h8 := length_packInt64 b.nextOffset
  rw [hhead]
  generalize hl : packInt64 b.nextOffset ++ _ = l
  have d8 : l.drop 8 = _ := drop_field (m := 0) hl.symm h8
  have d10 : l.drop 10 = _ := drop_field d8 (h2 _)
  have d12 : l.drop 12 = _ := drop_field d10 (h2 _)
  have d16 : l.drop 16 = _ := drop_field d12 (h4 _)
  have d20 : l.drop 20 = _ := drop_field d16 (h4 _)
  have d24 : l.drop 24 = _ := drop_field d20 (h4 _)
  rw [unpackControlBlock, take_field hl.symm h8, take_field d8 (h2 _), take_field d10 (h2 _),
    take_field d12 (h4 _), take_field d16 (h4 _), take_field d20 (h4 _),
    take_field (d24.trans (List.append_nil _).symm) (h4 _),
    unpackInt64_packInt64 h.nextOffset.1 h.nextOffset.2, ofBigEndian_bigEndian hcrc,
    ofBigEndian_bigEndian h.streamId, ofBigEndian_bigEndian h.blockSize,
    ofBigEndian_bigEndian hfill, ofBigEndian_bigEndian h.objectOffset,
    ofBigEndian_bigEndian h.blockNum]

/-! ### Reading a block in Python -/

/-- Exceptions while reading, and the end of the fuel. -/
inductive ReadFault
  | ended
  | structError
  | crcFailure
  | negativeSeek
  | fuel
  deriving DecidableEq, Repr

/-- The slice of a list up to an index, which counts from the end when it is negative. -/
def sliceTo (bs : Bytes) (i : ℤ) : Bytes :=
  if 0 ≤ i then bs.take i.toNat else bs.take (bs.length - (-i).toNat)

/-- A block that has been read. -/
structure DDFFBlock where
  offset : ℕ
  nextOffset : ℤ
  streamId : ℕ
  blockSize : ℕ
  blockFill : ℕ
  objectOffset : ℕ
  blockNum : ℕ
  tail : Bytes
  deriving DecidableEq, Repr

/-- `read` of a number of bytes at a position; of all bytes when the number is negative. -/
def fileRead (file : Bytes) (pos : ℕ) (n : ℤ) : Bytes :=
  if 0 ≤ n then (file.drop pos).take n.toNat else file.drop pos

/-- The constructor of `DDFFBlock` reads at the current position of the file. The result is the
block, and the position behind it. -/
def DDFFBlock.read (crc : Bytes → UInt16) (file : Bytes) (pos : ℕ) :
    Except ReadFault (DDFFBlock × ℕ) := do
  let header := fileRead file pos controlBlockSize
  if header = [] then throw .ended
  else if header.length ≠ controlBlockSize then throw .structError
  else
    let c := unpackControlBlock header
    -- a missing object offset in the first block is corrected
    let objectOffset := if c.blockNum = 0 ∧ c.blockFill ≠ 0 ∧ c.objectOffset = 0
      then controlBlockSize else c.objectOffset
    let tail := if c.blockSize ≠ 0
      then fileRead file (pos + controlBlockSize) (c.blockSize - controlBlockSize) else []
    if c.checksum ≠ (crc (header.drop 10 ++ tail)).toNat then throw .crcFailure
    else
      let behind := pos + controlBlockSize + tail.length
      let tail := if c.blockFill < c.blockSize
        then sliceTo tail (c.blockFill - controlBlockSize) else tail
      return (⟨pos, c.nextOffset, c.streamId, c.blockSize, c.blockFill, objectOffset, c.blockNum,
        tail⟩, behind)

/-- What is read for a block at a position. -/
def Block.parsed (b : Block) (pos : ℕ) : DDFFBlock where
  offset := pos
  nextOffset := b.nextOffset
  streamId := b.streamId
  blockSize := b.blockSize
  blockFill := b.blockFill
  objectOffset := if b.blockNum = 0 ∧ b.blockFill ≠ 0 ∧ b.objectOffset = 0
    then controlBlockSize else b.objectOffset
  blockNum := b.blockNum
  tail := b.tail

/-- A block on file is read. -/
theorem DDFFBlock.read_bytes (crc : Bytes → UInt16) {file before rest : Bytes} {b : Block}
    (hfile : file = before ++ (b.bytes crc ++ rest)) (hb : b.Fits) :
    DDFFBlock.read crc file before.length =
      .ok (b.parsed before.length, before.length + b.blockSize) := by
  have hsize := hb.size
  have hfill := hb.fill
  have hhead : file.drop before.length = b.header crc ++ (b.content ++ rest) := by
    rw [hfile, List.drop_left, b.bytes_eq, List.append_assoc]
  have hbehind : file.drop (before.length + controlBlockSize) = b.content ++ rest :=
    drop_field hhead (b.length_header crc)
  have hheader : fileRead file before.length controlBlockSize = b.header crc := by
    rw [fileRead, if_pos (Int.natCast_nonneg _)]
    exact take_field hhead (b.length_header crc)
  have htail : fileRead file (before.length + controlBlockSize)
      (b.blockSize - controlBlockSize) = b.content := by
    rw [fileRead, if_pos (by omega)]
    exact take_field hbehind (by omega)
  have hsum : (b.header crc).drop 10 = b.header1 :=
    drop_field (a := bigEndian 2 (b.checksum crc).toNat) (m := 8)
      (List.drop_left' (length_packInt64 _)) (length_bigEndian 2 _)
  have hne : b.header crc ≠ [] := List.ne_nil_of_length_pos (by rw [b.length_header]; decide)
  have hslice : (if b.blockFill < b.blockSize
      then sliceTo b.content (b.blockFill - controlBlockSize) else b.content) = b.tail := by
    split
    · rw [sliceTo, if_pos (by omega), Block.tail]
      congr 1
      omega
    · rw [Block.tail, List.take_of_length_le (by omega)]
  have hpos : b.blockSize ≠ 0 := by
    rw [← hsize]
    exact Nat.succ_ne_zero _
  have hlen : before.length + controlBlockSize + b.content.length =
      before.length + b.blockSize := by omega
  rw [DDFFBlock.read, hheader, unpackControlBlock_header crc hb]
  simp only [hne, b.length_header, hpos, htail, hsum, hslice, hlen, if_false, if_true, ne_eq,
    not_true, not_false_iff, Block.checksum]
  rfl

end Dueca.Ddff
