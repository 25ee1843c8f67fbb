import Mathlib.Data.Nat.Bitwise
import Mathlib.Data.List.Basic

/-!
# Messages in shared memory

A message is packed as a head of two 16-bit numbers (the channel and the size of the data), the
data itself, filled up to whole words, and a checksum over these words. The numbers are in network
byte order; the hosts are little-endian.
-/

namespace Dueca.Reflect

/-! ### Bytes and words -/

/-- Exchange the bytes of a 16-bit number. -/
def ntohs (x : ℕ) : ℕ := x % 256 * 256 + x / 256 % 256

/-- Reverse the bytes of a 32-bit number. -/
def htonl (x : ℕ) : ℕ :=
  x % 256 * 16777216 + x / 256 % 256 * 65536 + x / 65536 % 256 * 256 + x / 16777216 % 256

/-- Four bytes, read as a word. -/
def wordOf (b₀ b₁ b₂ b₃ : UInt8) : ℕ :=
  b₀.toNat + b₁.toNat * 256 + b₂.toNat * 65536 + b₃.toNat * 16777216

/-- The bytes of a word. -/
def bytesOf (w : ℕ) : List UInt8 :=
  [.ofNat w, .ofNat (w / 256), .ofNat (w / 65536), .ofNat (w / 16777216)]

def wordsOf : List UInt8 → List ℕ
  | b₀ :: b₁ :: b₂ :: b₃ :: bs => wordOf b₀ b₁ b₂ b₃ :: wordsOf bs
  | _ => []

/-- A 16-bit number as it is packed. -/
def packed16 (x : ℕ) : List UInt8 := [.ofNat (x / 256), .ofNat x]

/-- The bytes of a 32-bit number, from its digits. -/
theorem digits_eq {a b c d : ℕ} (ha : a < 256) (hb : b < 256) (hc : c < 256) (hd : d < 256) :
    (a + b * 256 + c * 65536 + d * 16777216) % 256 = a ∧
      (a + b * 256 + c * 65536 + d * 16777216) / 256 % 256 = b ∧
      (a + b * 256 + c * 65536 + d * 16777216) / 65536 % 256 = c ∧
      (a + b * 256 + c * 65536 + d * 16777216) / 16777216 % 256 = d := by
  omega

theorem eq_digits {x : ℕ} (h : x < 2 ^ 32) :
    x % 256 + x / 256 % 256 * 256 + x / 65536 % 256 * 65536 + x / 16777216 % 256 * 16777216 = x := by
  have h₁ : x / 65536 = x / 256 / 256 := by rw [Nat.div_div_eq_div_mul]
  have h₂ : x / 16777216 = x / 256 / 256 / 256 := by
    rw [Nat.div_div_eq_div_mul, Nat.div_div_eq_div_mul]
  omega

theorem htonl_htonl {x : ℕ} (h : x < 2 ^ 32) : htonl (htonl x) = x := by
  have hmod (y : ℕ) : y % 256 < 256 := Nat.mod_lt y (by decide)
  have hflip : htonl x = x / 16777216 % 256 + x / 65536 % 256 * 256 + x / 256 % 256 * 65536 +
      x % 256 * 16777216 := by
    rw [htonl]
    omega
  obtain ⟨h₀, h₁, h₂, h₃⟩ := digits_eq (hmod (x / 16777216)) (hmod (x / 65536)) (hmod (x / 256))
    (hmod x)
  rw [hflip, htonl, h₀, h₁, h₂, h₃]
  conv_rhs => rw [← eq_digits h]
  ac_rfl

theorem bytesOf_wordOf (b₀ b₁ b₂ b₃ : UInt8) : bytesOf (wordOf b₀ b₁ b₂ b₃) = [b₀, b₁, b₂, b₃] := by
  have h₀ := b₀.toNat_lt
  have h₁ := b₁.toNat_lt
  have h₂ := b₂.toNat_lt
  have h₃ := b₃.toNat_lt
  simp only [bytesOf, wordOf, List.cons.injEq, and_true, ← UInt8.toNat_inj, UInt8.toNat_ofNat']
  omega

theorem length_wordsOf : ∀ bs : List UInt8, (wordsOf bs).length = bs.length / 4
  | b₀ :: b₁ :: b₂ :: b₃ :: bs => by
    simp only [wordsOf, List.length_cons, length_wordsOf bs]
    omega
  | [] => by simp [wordsOf]
  | [_] => by simp [wordsOf]
  | [_, _] => by simp [wordsOf]
  | [_, _, _] => by simp [wordsOf]

theorem flatMap_bytesOf : ∀ bs : List UInt8, bs.length % 4 = 0 → (wordsOf bs).flatMap bytesOf = bs
  | b₀ :: b₁ :: b₂ :: b₃ :: bs, h => by
    have hrest : bs.length % 4 = 0 := by
      simp only [List.length_cons] at h
      omega
    simp only [wordsOf, List.flatMap_cons, bytesOf_wordOf, flatMap_bytesOf bs hrest]
    rfl
  | [], _ => rfl
  | [_], h => by cases h
  | [_, _], h => by cases h
  | [_, _, _], h => by cases h

/-! ### The checksum -/

def rotateRight (c : ℕ) : ℕ := if c % 2 = 1 then c / 2 + 0x80000000 else c / 2

/-- Take a word into the checksum. -/
def amalgi (d i : ℕ) : ℕ := rotateRight i ^^^ d

def checksum (ws : List ℕ) : ℕ := ws.foldl (fun i d => amalgi d i) 0

theorem wordOf_lt (b₀ b₁ b₂ b₃ : UInt8) : wordOf b₀ b₁ b₂ b₃ < 2 ^ 32 := by
  have h₀ := b₀.toNat_lt
  have h₁ := b₁.toNat_lt
  have h₂ := b₂.toNat_lt
  have h₃ := b₃.toNat_lt
  unfold wordOf
  omega

theorem wordsOf_lt : ∀ bs : List UInt8, ∀ w ∈ wordsOf bs, w < 2 ^ 32
  | b₀ :: b₁ :: b₂ :: b₃ :: bs, w, hw => by
    rcases List.mem_cons.mp hw with rfl | hw
    · exact wordOf_lt b₀ b₁ b₂ b₃
    · exact wordsOf_lt bs w hw

theorem amalgi_lt {d i : ℕ} (hd : d < 2 ^ 32) (hi : i < 2 ^ 32) : amalgi d i < 2 ^ 32 := by
  refine Nat.xor_lt_two_pow ?_ hd
  unfold rotateRight
  split <;> omega

theorem foldl_amalgi_lt {ws : List ℕ} (hws : ∀ w ∈ ws, w < 2 ^ 32) {i : ℕ} (hi : i < 2 ^ 32) :
    ws.foldl (fun i d => amalgi d i) i < 2 ^ 32 := by
  induction ws generalizing i with
  | nil => exact hi
  | cons w ws ih =>
    obtain ⟨hw, hws⟩ := List.forall_mem_cons.mp hws
    exact ih hws (amalgi_lt hw hi)

theorem checksum_lt {ws : List ℕ} (hws : ∀ w ∈ ws, w < 2 ^ 32) : checksum ws < 2 ^ 32 :=
  foldl_amalgi_lt hws (by decide)

/-! ### Messages -/

/-- A message for a channel. The data starts with the code of what it is. -/
structure Message where
  channel : ℕ
  code : UInt8
  rest : List UInt8
  deriving DecidableEq

namespace Message

def payload (m : Message) : List UInt8 := m.code :: m.rest

/-- The head and the data, as they are packed. -/
def content (m : Message) : List UInt8 :=
  packed16 (m.channel % 0x8000 + 0x8000) ++ packed16 m.payload.length ++ m.payload

end Message

/-- Bytes that are needed to fill up to whole words; these stand in the buffer already. -/
def padding (stale : ℕ → UInt8) (at_ n : ℕ) : List UInt8 :=
  (List.range ((4 - n % 4) % 4)).map fun i => stale (at_ + n + i)

/-- The words of a message that is packed at byte `at_` of the buffer. -/
def packMessage (stale : ℕ → UInt8) (at_ : ℕ) (m : Message) : List ℕ :=
  let words := wordsOf (m.content ++ padding stale at_ m.content.length)
  words ++ [htonl (checksum words)]

/-- What the reader knows of a message. -/
structure HeadInfo where
  channel : ℕ
  index : ℕ
  size : ℕ
  entry : ℕ
  deriving DecidableEq

/-- Read the first word of a message, that stands at `index`. -/
def headInfo (areaSize word index : ℕ) : HeadInfo :=
  let w1 := ntohs (word % 65536)
  let w2 := ntohs (word / 65536)
  if w1 / 0x8000 % 2 = 1 then
    { channel := w1 % 0x8000, index := (index + 1) % areaSize, size := w2, entry := 0 }
  else { channel := w1 % 0x8000, index := (index + 1) % areaSize, size := 0, entry := w2 }

/-- The words are a head, which tells channel and size, data that starts with the payload, and
the checksum. -/
structure Encodes (m : Message) (ws : List ℕ) (head : ℕ) (data : List ℕ) : Prop where
  words : ws = head :: data ++ [htonl (checksum (head :: data))]
  info : ∀ areaSize index, headInfo areaSize head index =
    { channel := m.channel, index := (index + 1) % areaSize, size := m.payload.length, entry := 0 }
  length : data.length = (m.payload.length + 3) / 4
  bytes : (data.flatMap bytesOf).take m.payload.length = m.payload
  checked : htonl (htonl (checksum (head :: data))) = checksum (head :: data)

theorem ntohs_low (b₀ b₁ b₂ b₃ : UInt8) :
    ntohs (wordOf b₀ b₁ b₂ b₃ % 65536) = b₀.toNat * 256 + b₁.toNat := by
  have h₀ := b₀.toNat_lt
  have h₁ := b₁.toNat_lt
  have hlow : wordOf b₀ b₁ b₂ b₃ % 65536 = b₀.toNat + b₁.toNat * 256 := by
    unfold wordOf
    omega
  rw [hlow, ntohs]
  omega

theorem ntohs_high (b₀ b₁ b₂ b₃ : UInt8) :
    ntohs (wordOf b₀ b₁ b₂ b₃ / 65536) = b₂.toNat * 256 + b₃.toNat := by
  have h₀ := b₀.toNat_lt
  have h₁ := b₁.toNat_lt
  have h₂ := b₂.toNat_lt
  have h₃ := b₃.toNat_lt
  have hhigh : wordOf b₀ b₁ b₂ b₃ / 65536 = b₂.toNat + b₃.toNat * 256 := by
    unfold wordOf
    omega
  rw [hhigh, ntohs]
  omega

theorem toNat_packed16 {x : ℕ} (h : x < 0x10000) :
    (UInt8.ofNat (x / 256)).toNat * 256 + (UInt8.ofNat x).toNat = x := by
  simp only [UInt8.toNat_ofNat']
  omega

theorem headInfo_head {areaSize index channel size : ℕ} (hc : channel < 0x8000)
    (hs : size < 0x10000) :
    headInfo areaSize
        (wordOf (.ofNat ((channel % 0x8000 + 0x8000) / 256)) (.ofNat (channel % 0x8000 + 0x8000))
          (.ofNat (size / 256)) (.ofNat size)) index =
      { channel, index := (index + 1) % areaSize, size, entry := 0 } := by
  have hw1 : channel % 0x8000 + 0x8000 = channel + 0x8000 := by omega
  have hflag : (channel + 0x8000) / 0x8000 % 2 = 1 := by omega
  have hchannel : (channel + 0x8000) % 0x8000 = channel := by omega
  simp only [headInfo, ntohs_low, ntohs_high, toNat_packed16 hs, hw1,
    toNat_packed16 (by omega : channel + 0x8000 < 0x10000), hflag, hchannel, if_true]

/-- What is packed encodes the message, if its channel and its size fit the head. -/
theorem packMessage_encodes (stale : ℕ → UInt8) (at_ : ℕ) {m : Message}
    (hchannel : m.channel < 0x8000) (hsize : m.payload.length < 0x10000) :
    ∃ head data, Encodes m (packMessage stale at_ m) head data := by
  set pad := padding stale at_ m.content.length with hpad
  have hcontent : m.content.length = m.payload.length + 4 := by
    simp only [Message.content, packed16, List.length_append, List.length_cons, List.length_nil]
    omega
  have hlen : pad.length = (4 - m.content.length % 4) % 4 := by
    simp only [hpad, padding, List.length_map, List.length_range]
  -- the first word is the head, the others are data
  have hsplit : wordsOf (m.content ++ pad) =
      wordOf (.ofNat ((m.channel % 0x8000 + 0x8000) / 256)) (.ofNat (m.channel % 0x8000 + 0x8000))
        (.ofNat (m.payload.length / 256)) (.ofNat m.payload.length) ::
        wordsOf (m.payload ++ pad) := rfl
  have hfull : (m.payload ++ pad).length % 4 = 0 := by
    rw [List.length_append]
    omega
  refine ⟨_, wordsOf (m.payload ++ pad), ?_, fun areaSize index => headInfo_head hchannel hsize,
    ?_, ?_, ?_⟩
  · rw [packMessage, ← hpad, hsplit]
  · rw [length_wordsOf, List.length_append]
    omega
  · rw [flatMap_bytesOf _ hfull, List.take_left]
  · rw [← hsplit]
    exact htonl_htonl (checksum_lt (wordsOf_lt _))

theorem Encodes.length_words {m : Message} {ws : List ℕ} {head : ℕ} {data : List ℕ}
    (h : Encodes m ws head data) : ws.length = (m.payload.length + 3) / 4 + 2 := by
  rw [h.words, List.length_append, List.length_cons, h.length]
  rfl

end Dueca.Reflect
