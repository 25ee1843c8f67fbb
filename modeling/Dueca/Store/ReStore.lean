import Dueca.Lib.ByteOrder
import Dueca.Lib.Run
import Mathlib.Data.List.TakeWhile

/-!
# Unpacking from a store

An `AmorphReStore` keeps data received over a network and the place up to which it has been
unpacked. All its functions compare this place and the size of what they read with the fill
level, in unsigned numbers of 32 bits. A function that reads beyond the fill level ends in
`Problem.outside`; what it does then is not defined.

Values are bits: signed numbers are in two's complement, floats in their own format.
-/

namespace Dueca.Store

open Dueca.Lib

abbrev Bytes := List UInt8

/-- The data received, and where the reader is. The fill level is the number of the bytes. -/
structure AmorphReStore where
  stor : Bytes
  index : ℕ
  exhausted : Bool
  deriving DecidableEq

/-- Why a function gives no value: `AmorphReStoreEmpty`, or a byte outside the data is used. -/
inductive Problem
  | empty
  | outside
  deriving DecidableEq

/-- Work on a store, which also changes it when it fails. -/
abbrev Unpack (α : Type) := ExceptT Problem (StateM AmorphReStore) α

/-- A store after `reUse`, for data of this size. -/
def AmorphReStore.start (stor : Bytes) : AmorphReStore := ⟨stor, 0, false⟩

/-! ### What all functions do -/

/-- `checkDataAvailable`. The sum is one of unsigned numbers. -/
def checkDataAvailable (size : ℕ) : Unpack Unit := do
  let s ← get
  if (s.index + size) % 2 ^ 32 > s.stor.length then
    set { s with exhausted := true }
    throw .empty

/-- The `k` bytes from `&stor[index + offset]` on. -/
def memory (offset k : ℕ) : Unpack Bytes := do
  let s ← get
  if s.index + offset + k ≤ s.stor.length then
    return (s.stor.drop (s.index + offset)).take k
  else throw .outside

/-- `index += k`. -/
def advance (k : ℕ) : Unpack Unit :=
  modify fun s => { s with index := (s.index + k) % 2 ^ 32 }

/-! ### Values -/

/-- The types with a fixed size. -/
inductive Scalar
  | float | double | char | int8 | int16 | int32 | int64 | uint8 | uint16 | uint32 | uint64
  deriving DecidableEq, Repr

/-- `sizeof`. -/
def Scalar.size : Scalar → ℕ
  | .char | .int8 | .uint8 => 1
  | .int16 | .uint16 => 2
  | .float | .int32 | .uint32 => 4
  | .double | .int64 | .uint64 => 8

/-- The conversion from and to network order: none, `ntohs`, `ntohl` or `ntohll`. -/
def Scalar.convert (host : Host) : Scalar → ℕ → ℕ
  | .char, n | .int8, n | .uint8, n => n
  | .int16, n | .uint16, n => hton host 2 n
  | .float, n | .int32, n | .uint32, n => hton host 4 n
  | .double, n | .int64, n | .uint64, n => htonll host n

/-- What a function returns. -/
inductive Value
  | scalar (ty : Scalar) (v : BitVec (8 * ty.size))
  | bool (b : Bool)
  | str (bs : Bytes)
  | timeval (sec usec : BitVec 32)
  | size (n : ℕ)
  deriving DecidableEq

section Functions

variable (host : Host)

def unPackScalar (ty : Scalar) : Unpack (BitVec (8 * ty.size)) := do
  checkDataAvailable ty.size
  let bs ← memory 0 ty.size
  advance ty.size
  return BitVec.ofNat _ (ty.convert host (ofNative host bs))

def unPackBool : Unpack Bool := do
  checkDataAvailable 1
  let bs ← memory 0 1
  advance 1
  return decide (bs ≠ [0])

/-- A string with its length. The sum of the length and its own size is cut off to 32 bits when it
is passed on, and when it is added. -/
def unPackVstring : Unpack Bytes := do
  checkDataAvailable 4
  let c ← memory 0 4
  let l := hton host 4 (ofNative host c)
  checkDataAvailable ((l + 4) % 2 ^ 32)
  let str ← memory 4 l
  advance (l + 4)
  return str

/-- `strlen(&stor[index])`, which reads up to the first zero. -/
def strlen : Unpack ℕ := do
  let s ← get
  let text := (s.stor.drop s.index).takeWhile (· ≠ 0)
  if s.index + text.length < s.stor.length then return text.length else throw .outside

/-- A string that ends with a zero. -/
def unPackString : Unpack Bytes := do
  let l := (← strlen) + 1
  checkDataAvailable l
  let c ← memory 0 l
  advance l
  return c

/-- A string of known length. -/
def unPackChars (length : ℕ) : Unpack Bytes := do
  checkDataAvailable length
  let c ← memory 0 length
  advance length
  return c

def unPackTimeval : Unpack (BitVec 32 × BitVec 32) := do
  let sec ← unPackScalar host .uint32
  let usec ← unPackScalar host .uint32
  return (sec, usec)

/-- `gobble` and `gobbleBig`, for marks of `k` bytes. -/
def gobbleMark (k : ℕ) : Unpack ℕ := do
  checkDataAvailable k
  let c ← memory 0 k
  let n := hton host k (ofNative host c)
  advance k
  checkDataAvailable n
  advance n
  return n

def gobble : Unpack ℕ := gobbleMark host 2

def gobbleBig : Unpack ℕ := gobbleMark host 4

def gobbleBigMark : Unpack ℕ := do
  checkDataAvailable 4
  advance 4
  return 4

def peekBigMark : Unpack ℕ := do
  checkDataAvailable 4
  let c ← memory 0 4
  return hton host 4 (ofNative host c)

/-- The mark has 16 bits, but is converted as a number of 32 bits. -/
def peekMark : Unpack ℕ := do
  checkDataAvailable 2
  let c ← memory 0 2
  return hton host 4 (ofNative host c) % 2 ^ 16

end Functions

/-! ### Runs -/

/-- The calls. The length of a string is an unsigned number. -/
inductive Op
  | scalar (ty : Scalar)
  | bool
  | vstring
  | string
  | chars (length : BitVec 32)
  | timeval
  | gobble
  | gobbleBig
  | gobbleBigMark
  | peekMark
  | peekBigMark
  deriving DecidableEq

/-- What a call does. -/
def Op.call (host : Host) : Op → Unpack Value
  | .scalar ty => Value.scalar ty <$> unPackScalar host ty
  | .bool => Value.bool <$> unPackBool
  | .vstring => Value.str <$> unPackVstring host
  | .string => Value.str <$> unPackString
  | .chars length => Value.str <$> unPackChars length.toNat
  | .timeval => (fun tv => Value.timeval tv.1 tv.2) <$> unPackTimeval host
  | .gobble => Value.size <$> Store.gobble host
  | .gobbleBig => Value.size <$> Store.gobbleBig host
  | .gobbleBigMark => Value.size <$> Store.gobbleBigMark
  | .peekMark => Value.size <$> Store.peekMark host
  | .peekBigMark => Value.size <$> Store.peekBigMark host

/-- How many bytes a call consumes that returns this value. -/
def Op.consumed : Op → Value → ℕ
  | .scalar ty, _ => ty.size
  | .bool, _ => 1
  | .vstring, .str bs => 4 + bs.length
  | .string, .str bs | .chars _, .str bs => bs.length
  | .timeval, _ => 8
  | .gobble, .size n => 2 + n
  | .gobbleBig, .size n => 4 + n
  | .gobbleBigMark, .size n => n
  | _, _ => 0

/-- One call. After a use of bytes outside the data nothing is defined; an exception leaves the
store as it is by then. -/
def step (host : Host) (s : AmorphReStore) (op : Op) : Except Unit AmorphReStore :=
  match op.call host s with
  | (.error .outside, _) => .error ()
  | (_, t) => .ok t

/-- Work on a store keeps to the data. Either it throws, with no byte outside the data used, or it
uses bytes of the data only, and the index grows by just the bytes that are consumed. -/
def Keeps {α : Type} (x : Unpack α) (consumed : α → ℕ) (s : AmorphReStore) : Prop :=
  match x s with
  | (.error .outside, _) => False
  | (.error .empty, t) => s.index ≤ t.index ∧ t.index ≤ s.stor.length
  | (.ok a, t) => t.index = s.index + consumed a ∧ t.index ≤ s.stor.length

/-- A call keeps to the data. -/
def KeepsToData (host : Host) (s : AmorphReStore) (op : Op) : Prop :=
  Keeps (op.call host) op.consumed s

/-! ### When sums fit -/

/-- The number in the next `k` bytes. -/
def AmorphReStore.field (s : AmorphReStore) (k : ℕ) : ℕ :=
  ofBigEndian ((s.stor.drop s.index).take k)

/-- The place after the next `k` bytes is a number of 32 bits. -/
def AmorphReStore.Fits (s : AmorphReStore) (k : ℕ) : Prop := s.index + k < 2 ^ 32

/-- After a length of `k` bytes, so is the place after as many bytes as the length says. -/
def AmorphReStore.FieldFits (s : AmorphReStore) (k : ℕ) : Prop :=
  s.Fits k ∧ (s.index + k ≤ s.stor.length → s.Fits (k + s.field k))

/-- No sum that is compared with the fill level exceeds 32 bits, and a text ends in the data. -/
def InRange (s : AmorphReStore) : Op → Prop
  | .scalar ty => s.Fits ty.size
  | .bool => s.Fits 1
  | .vstring => s.FieldFits 4
  | .string => 0 ∈ s.stor.drop s.index
  | .chars length => s.Fits length.toNat
  | .timeval => s.Fits 4 ∧ (s.index + 4 ≤ s.stor.length → s.Fits 8)
  | .gobble => s.FieldFits 2
  | .gobbleBig => s.FieldFits 4
  | .gobbleBigMark | .peekBigMark => s.Fits 4
  | .peekMark => s.Fits 2

instance (s : AmorphReStore) (k : ℕ) : Decidable (s.Fits k) :=
  inferInstanceAs (Decidable (_ < _))

instance (s : AmorphReStore) (k : ℕ) : Decidable (s.FieldFits k) :=
  inferInstanceAs (Decidable (_ ∧ _))

instance (s : AmorphReStore) : DecidablePred (InRange s)
  | .scalar _ | .bool | .chars _ | .gobbleBigMark | .peekMark | .peekBigMark =>
    inferInstanceAs (Decidable (s.Fits _))
  | .vstring | .gobble | .gobbleBig => inferInstanceAs (Decidable (s.FieldFits _))
  | .string => inferInstanceAs (Decidable (0 ∈ s.stor.drop s.index))
  | .timeval => inferInstanceAs (Decidable (_ ∧ (_ → _)))

/-- The index is in the data, and the fill level an unsigned number. -/
def AmorphReStore.Sound (s : AmorphReStore) : Prop :=
  s.index ≤ s.stor.length ∧ s.stor.length < 2 ^ 32

variable {α β : Type} {s t : AmorphReStore} {host : Host}

/-! ### Work in steps -/

theorem run_bind (x : Unpack α) (f : α → Unpack β) (s : AmorphReStore) :
    (x >>= f) s = match x s with
      | (.ok a, t) => f a t
      | (.error e, t) => (.error e, t) := by
  change (ExceptT.bind x f) s = _
  simp only [ExceptT.bind, ExceptT.mk, bind, StateT.bind, ExceptT.bindCont]
  rcases x s with ⟨_ | a, t⟩ <;> rfl

theorem run_map (f : α → β) (x : Unpack α) (s : AmorphReStore) :
    (f <$> x) s = match x s with
      | (.ok a, t) => (.ok (f a), t)
      | (.error e, t) => (.error e, t) := by
  rw [map_eq_pure_bind, run_bind]
  rfl

theorem run_pure (a : α) (s : AmorphReStore) : (pure a : Unpack α) s = (.ok a, s) := rfl

theorem run_checkDataAvailable (size : ℕ) (s : AmorphReStore) :
    checkDataAvailable size s =
      if (s.index + size) % 2 ^ 32 > s.stor.length then
        (.error .empty, { s with exhausted := true })
      else (.ok (), s) := by
  change (if (s.index + size) % 2 ^ 32 > s.stor.length then _ else _ : Unpack Unit) s = _
  split <;> rfl

theorem run_memory (offset k : ℕ) (s : AmorphReStore) :
    memory offset k s =
      if s.index + offset + k ≤ s.stor.length then
        (.ok ((s.stor.drop (s.index + offset)).take k), s)
      else (.error .outside, s) := by
  change (if s.index + offset + k ≤ s.stor.length then _ else _ : Unpack Bytes) s = _
  split <;> rfl

theorem run_advance (k : ℕ) (s : AmorphReStore) :
    advance k s = (.ok (), { s with index := (s.index + k) % 2 ^ 32 }) := rfl

theorem keeps_map (f : α → β) (x : Unpack α) (consumed : β → ℕ) :
    Keeps (f <$> x) consumed s ↔ Keeps x (consumed ∘ f) s := by
  unfold Keeps
  rw [run_map]
  rcases x s with ⟨(_ | _) | a, t⟩ <;> rfl

/-! ### Each function -/

/-- The next `k` bytes are checked for, used and passed. -/
theorem run_fetch (k : ℕ) (f : Bytes → α) (s : AmorphReStore) :
    (do
      checkDataAvailable k
      let bs ← memory 0 k
      advance k
      return f bs : Unpack α) s =
      if (s.index + k) % 2 ^ 32 > s.stor.length then (.error .empty, { s with exhausted := true })
      else if s.index + k ≤ s.stor.length then
        (.ok (f ((s.stor.drop s.index).take k)), { s with index := (s.index + k) % 2 ^ 32 })
      else (.error .outside, s) := by
  simp only [run_bind, run_checkDataAvailable]
  split_ifs with hcheck hmem
  · rfl
  · simp only [run_memory, Nat.add_zero, if_pos hmem, run_advance, run_pure]
  · simp only [run_memory, Nat.add_zero, if_neg hmem]

theorem keeps_fetch (hs : s.Sound) {k : ℕ} (hk : k < 2 ^ 32) (f : Bytes → α) :
    Keeps (do
      checkDataAvailable k
      let bs ← memory 0 k
      advance k
      return f bs) (fun _ => k) s ↔ s.Fits k := by
  obtain ⟨hindex, hlen⟩ := hs
  simp only [Keeps, run_fetch]
  unfold AmorphReStore.Fits
  split_ifs with hcheck hmem
  · simp only
    omega
  · simp only
    omega
  · simp only [false_iff]
    omega

/-- The next `k` bytes are checked for and used. -/
theorem keeps_peek (hs : s.Sound) {k : ℕ} (hk : k < 2 ^ 32) (f : Bytes → α) :
    Keeps (do
      checkDataAvailable k
      let bs ← memory 0 k
      return f bs) (fun _ => 0) s ↔ s.Fits k := by
  obtain ⟨hindex, hlen⟩ := hs
  simp only [Keeps, run_bind, run_checkDataAvailable]
  unfold AmorphReStore.Fits
  by_cases hcheck : (s.index + k) % 2 ^ 32 > s.stor.length
  · simp only [hcheck, if_true]
    omega
  · simp only [hcheck, if_false, run_memory, Nat.add_zero]
    by_cases hmem : s.index + k ≤ s.stor.length
    · simp only [hmem, if_true, run_pure, true_and]
      omega
    · simp only [hmem, if_false, false_iff]
      omega

/-- The field that is read is the one in the data. -/
theorem field_eq (host : Host) {k : ℕ} (h : s.index + k ≤ s.stor.length) :
    hton host k (ofNative host ((s.stor.drop s.index).take k)) = s.field k := by
  have hlen : ((s.stor.drop s.index).take k).length = k := by
    rw [List.length_take, List.length_drop]
    omega
  rw [AmorphReStore.field, ← hton_ofNative host, hlen]

theorem keeps_gobbleMark (hs : s.Sound) {k : ℕ} (hk : k < 2 ^ 32) (hfield : s.field k < 2 ^ 32) :
    Keeps (gobbleMark host k) (fun n => k + n) s ↔ s.FieldFits k := by
  obtain ⟨hindex, hlen⟩ := hs
  unfold gobbleMark
  simp only [Keeps, run_bind, run_checkDataAvailable]
  unfold AmorphReStore.FieldFits AmorphReStore.Fits
  by_cases hcheck : (s.index + k) % 2 ^ 32 > s.stor.length
  · simp only [hcheck, if_true]
    omega
  · simp only [hcheck, if_false, run_memory, Nat.add_zero]
    by_cases hmem : s.index + k ≤ s.stor.length
    · simp only [hmem, if_true, run_advance, field_eq host hmem]
      have hmod : (s.index + k) % 2 ^ 32 = s.index + k := Nat.mod_eq_of_lt (by omega)
      rw [hmod]
      by_cases hskip : (s.index + k + s.field k) % 2 ^ 32 > s.stor.length
      · simp only [hskip, if_true, true_imp_iff]
        omega
      · simp only [hskip, if_false, run_pure, true_imp_iff]
        omega
    · simp only [hmem, if_false, false_iff]
      omega

theorem keeps_unPackScalar (hs : s.Sound) (ty : Scalar) :
    Keeps (unPackScalar host ty) (fun _ => ty.size) s ↔ s.Fits ty.size :=
  keeps_fetch hs (by cases ty <;> decide) _

theorem keeps_unPackChars (hs : s.Sound) {length : ℕ} (h : length < 2 ^ 32) :
    Keeps (unPackChars length) List.length s ↔ s.Fits length := by
  have hfetch := keeps_fetch hs h id
  unfold Keeps at hfetch ⊢
  rw [run_fetch] at hfetch
  unfold unPackChars
  rw [run_fetch length fun c => c]
  split_ifs at hfetch ⊢ with hcheck hmem
  · exact hfetch
  · have hlen : ((s.stor.drop s.index).take length).length = length := by
      rw [List.length_take, List.length_drop]
      omega
    simp only [hlen]
    exact hfetch
  · exact hfetch

theorem keeps_unPackVstring (hs : s.Sound) (hfield : s.field 4 < 2 ^ 32) :
    Keeps (unPackVstring host) (fun bs => 4 + bs.length) s ↔ s.FieldFits 4 := by
  obtain ⟨hindex, hlen⟩ := hs
  unfold unPackVstring
  simp only [Keeps, run_bind, run_checkDataAvailable]
  unfold AmorphReStore.FieldFits AmorphReStore.Fits
  by_cases hcheck : (s.index + 4) % 2 ^ 32 > s.stor.length
  · simp only [hcheck, if_true]
    omega
  · simp only [hcheck, if_false, run_memory, Nat.add_zero]
    by_cases hmem : s.index + 4 ≤ s.stor.length
    · simp only [hmem, if_true, field_eq host hmem, true_imp_iff]
      by_cases hstr : (s.index + (s.field 4 + 4) % 2 ^ 32) % 2 ^ 32 > s.stor.length
      · simp only [hstr, if_true]
        omega
      · simp only [hstr, if_false]
        by_cases hcopy : s.index + 4 + s.field 4 ≤ s.stor.length
        · simp only [hcopy, if_true, run_advance, run_pure, List.length_take, List.length_drop]
          omega
        · simp only [hcopy, if_false, false_iff]
          omega
    · simp only [hmem, if_false, false_iff]
      omega

/-- The text up to the first zero is followed by one. -/
theorem length_text_lt {bs : Bytes} :
    (bs.takeWhile (· ≠ 0)).length < bs.length ↔ 0 ∈ bs := by
  have hsplit := congrArg List.length (List.takeWhile_append_dropWhile (p := (· ≠ 0)) (l := bs))
  rw [List.length_append] at hsplit
  have hnil : bs.dropWhile (· ≠ 0) = [] ↔ 0 ∉ bs := by
    rw [List.dropWhile_eq_nil_iff]
    simp only [decide_eq_true_eq]
    exact ⟨fun h hmem => h 0 hmem rfl, fun h b hb hzero => h (hzero ▸ hb)⟩
  rw [← not_iff_not, ← hnil, ← List.length_eq_zero_iff]
  omega

theorem run_strlen (s : AmorphReStore) :
    strlen s =
      if s.index + ((s.stor.drop s.index).takeWhile (· ≠ 0)).length < s.stor.length then
        (.ok ((s.stor.drop s.index).takeWhile (· ≠ 0)).length, s)
      else (.error .outside, s) := by
  change (if s.index + ((s.stor.drop s.index).takeWhile (· ≠ 0)).length < s.stor.length
    then _ else _ : Unpack ℕ) s = _
  split <;> rfl

/-- A text is found if its zero is in the data. -/
theorem keeps_unPackString (hs : s.Sound) :
    Keeps unPackString List.length s ↔ 0 ∈ s.stor.drop s.index := by
  obtain ⟨hindex, hlen⟩ := hs
  have hlen : (s.stor.drop s.index).length = s.stor.length - s.index := List.length_drop
  rw [← length_text_lt, hlen]
  unfold unPackString
  simp only [Keeps, run_bind, run_strlen]
  by_cases htext : s.index + ((s.stor.drop s.index).takeWhile (· ≠ 0)).length < s.stor.length
  · generalize ((s.stor.drop s.index).takeWhile (· ≠ 0)).length = l at htext ⊢
    have hmod : (s.index + (l + 1)) % 2 ^ 32 = s.index + (l + 1) := Nat.mod_eq_of_lt (by omega)
    have hcheck : ¬ s.index + (l + 1) > s.stor.length := by omega
    have hmem : s.index + (l + 1) ≤ s.stor.length := by omega
    simp only [htext, if_true, run_checkDataAvailable, hmod, hcheck, if_false, run_memory,
      Nat.add_zero, hmem, run_advance, run_pure, List.length_take, List.length_drop, and_true]
    omega
  · simp only [htext, if_false, false_iff]
    omega

theorem keeps_unPackTimeval (hs : s.Sound) :
    Keeps (unPackTimeval host) (fun _ => 8) s ↔
      s.Fits 4 ∧ (s.index + 4 ≤ s.stor.length → s.Fits 8) := by
  obtain ⟨hindex, hlen⟩ := hs
  unfold unPackTimeval
  simp only [Keeps, run_bind (unPackScalar host .uint32)]
  unfold unPackScalar AmorphReStore.Fits
  simp only [run_fetch, Scalar.size]
  by_cases hcheck : (s.index + 4) % 2 ^ 32 > s.stor.length
  · simp only [hcheck, if_true]
    omega
  · simp only [hcheck, if_false]
    by_cases hmem : s.index + 4 ≤ s.stor.length
    · have hmod : (s.index + 4) % 2 ^ 32 = s.index + 4 := Nat.mod_eq_of_lt (by omega)
      simp only [hmem, if_true, true_imp_iff, hmod]
      by_cases hcheck' : (s.index + 4 + 4) % 2 ^ 32 > s.stor.length
      · simp only [hcheck', if_true]
        omega
      · simp only [hcheck', if_false]
        by_cases hmem' : s.index + 4 + 4 ≤ s.stor.length
        · simp only [hmem', if_true, run_pure]
          omega
        · simp only [hmem', if_false, false_iff]
          omega
    · simp only [hmem, if_false, false_iff]
      omega

theorem keeps_gobbleBigMark (hs : s.Sound) :
    Keeps gobbleBigMark id s ↔ s.Fits 4 := by
  obtain ⟨hindex, hlen⟩ := hs
  unfold gobbleBigMark
  simp only [Keeps, run_bind, run_checkDataAvailable]
  unfold AmorphReStore.Fits
  by_cases hcheck : (s.index + 4) % 2 ^ 32 > s.stor.length
  · simp only [hcheck, if_true]
    omega
  · simp only [hcheck, if_false, run_advance, run_pure, id_eq]
    omega

theorem field_lt (s : AmorphReStore) (k : ℕ) : s.field k < 256 ^ k :=
  lt_of_lt_of_le (ofBigEndian_lt _)
    (Nat.pow_le_pow_right (by decide) (List.length_take_le k _))

/-- A call keeps to the data just when its sums fit. -/
theorem keepsToData_iff (hs : s.Sound) (op : Op) : KeepsToData host s op ↔ InRange s op := by
  have hmark : s.field 2 < 2 ^ 32 := lt_trans (field_lt s 2) (by decide)
  have hfield : s.field 4 < 2 ^ 32 := field_lt s 4
  unfold KeepsToData
  cases op with
  | scalar ty => exact (keeps_map ..).trans (keeps_unPackScalar hs ty)
  | bool => exact (keeps_map ..).trans (keeps_fetch hs (by decide) _)
  | vstring => exact (keeps_map ..).trans (keeps_unPackVstring hs hfield)
  | string => exact (keeps_map ..).trans (keeps_unPackString hs)
  | chars length => exact (keeps_map ..).trans (keeps_unPackChars hs length.isLt)
  | timeval => exact (keeps_map ..).trans (keeps_unPackTimeval hs)
  | gobble => exact (keeps_map ..).trans (keeps_gobbleMark hs (by decide) hmark)
  | gobbleBig => exact (keeps_map ..).trans (keeps_gobbleMark hs (by decide) hfield)
  | gobbleBigMark => exact (keeps_map ..).trans (keeps_gobbleBigMark hs)
  | peekMark => exact (keeps_map ..).trans (keeps_peek hs (by decide) _)
  | peekBigMark => exact (keeps_map ..).trans (keeps_peek hs (by decide) _)

/-! ### Runs keep to the data -/

/-- No function changes the data. -/
def Preserves (x : Unpack α) : Prop := ∀ s, (x s).2.stor = s.stor

theorem Preserves.bind {x : Unpack α} {f : α → Unpack β} (hx : Preserves x)
    (hf : ∀ a, Preserves (f a)) : Preserves (x >>= f) := by
  intro s
  have hxs := hx s
  rw [run_bind]
  rcases hrun : x s with ⟨e | a, t⟩ <;> rw [hrun] at hxs
  · exact hxs
  · exact (hf a t).trans hxs

theorem Preserves.map {x : Unpack α} (hx : Preserves x) (f : α → β) : Preserves (f <$> x) := by
  rw [map_eq_pure_bind]
  exact hx.bind fun a s => rfl

theorem preserves_pure (a : α) : Preserves (pure a : Unpack α) := fun _ => rfl

theorem preserves_advance (k : ℕ) : Preserves (advance k) := fun _ => rfl

theorem preserves_checkDataAvailable (size : ℕ) : Preserves (checkDataAvailable size) := by
  intro s
  rw [run_checkDataAvailable]
  split <;> rfl

theorem preserves_memory (offset k : ℕ) : Preserves (memory offset k) := by
  intro s
  rw [run_memory]
  split <;> rfl

theorem preserves_strlen : Preserves strlen := by
  intro s
  rw [run_strlen]
  split <;> rfl

theorem preserves_unPackScalar (ty : Scalar) : Preserves (unPackScalar host ty) :=
  (preserves_checkDataAvailable _).bind fun _ => (preserves_memory _ _).bind fun _ =>
    (preserves_advance _).bind fun _ => preserves_pure _

theorem preserves_gobbleMark (k : ℕ) : Preserves (gobbleMark host k) :=
  (preserves_checkDataAvailable _).bind fun _ => (preserves_memory _ _).bind fun _ =>
    (preserves_advance _).bind fun _ => (preserves_checkDataAvailable _).bind fun _ =>
      (preserves_advance _).bind fun _ => preserves_pure _

theorem preserves_call (host : Host) (op : Op) : Preserves (op.call host) := by
  cases op with
  | scalar ty => exact (preserves_unPackScalar ty).map _
  | bool =>
    exact Preserves.map ((preserves_checkDataAvailable _).bind fun _ =>
      (preserves_memory _ _).bind fun _ => (preserves_advance _).bind fun _ => preserves_pure _) _
  | vstring =>
    exact Preserves.map ((preserves_checkDataAvailable _).bind fun _ =>
      (preserves_memory _ _).bind fun _ => (preserves_checkDataAvailable _).bind fun _ =>
        (preserves_memory _ _).bind fun _ => (preserves_advance _).bind fun _ => preserves_pure _) _
  | string =>
    exact Preserves.map (preserves_strlen.bind fun _ =>
      (preserves_checkDataAvailable _).bind fun _ => (preserves_memory _ _).bind fun _ =>
        (preserves_advance _).bind fun _ => preserves_pure _) _
  | chars length =>
    exact Preserves.map ((preserves_checkDataAvailable _).bind fun _ =>
      (preserves_memory _ _).bind fun _ => (preserves_advance _).bind fun _ => preserves_pure _) _
  | timeval =>
    exact Preserves.map ((preserves_unPackScalar _).bind fun _ =>
      (preserves_unPackScalar _).bind fun _ => preserves_pure _) _
  | gobble => exact (preserves_gobbleMark 2).map _
  | gobbleBig => exact (preserves_gobbleMark 4).map _
  | gobbleBigMark =>
    exact Preserves.map ((preserves_checkDataAvailable _).bind fun _ =>
      (preserves_advance _).bind fun _ => preserves_pure _) _
  | peekMark =>
    exact Preserves.map ((preserves_checkDataAvailable _).bind fun _ =>
      (preserves_memory _ _).bind fun _ => preserves_pure _) _
  | peekBigMark =>
    exact Preserves.map ((preserves_checkDataAvailable _).bind fun _ =>
      (preserves_memory _ _).bind fun _ => preserves_pure _) _

/-- A call that keeps to the data leaves the index in the data. -/
theorem sound_step (op : Op) (hs : s.Sound) (hkeeps : KeepsToData host s op)
    (hstep : step host s op = .ok t) : t.Sound := by
  have hstor := preserves_call host op s
  unfold KeepsToData Keeps at hkeeps
  unfold step at hstep
  rcases hcall : op.call host s with ⟨(_ | _) | a, u⟩ <;> rw [hcall] at hkeeps hstep hstor
  · cases hstep
    exact ⟨hstor ▸ hkeeps.2, hstor ▸ hs.2⟩
  · cases hstep
  · cases hstep
    exact ⟨hstor ▸ hkeeps.2, hstor ▸ hs.2⟩

theorem sound_start {stor : Bytes} (h : stor.length < 2 ^ 32) :
    (AmorphReStore.start stor).Sound := ⟨Nat.zero_le _, h⟩

/-- The calls of a run keep to the data just when all their sums fit. -/
theorem keepsToData_iff_of_run (host : Host) (stor : Bytes) (h : stor.length < 2 ^ 32)
    (ops : List Op) :
    Allowed (step host) (KeepsToData host) (.start stor) ops ↔
      Allowed (step host) InRange (.start stor) ops :=
  allowed_congr (fun _ op _ hs hkeeps => sound_step op hs hkeeps)
    (fun _ op hs => keepsToData_iff hs op) (sound_start h)

/-- A number and a string of two letters are unpacked. -/
theorem keepsToData_number_string :
    [1, 2, 0, 0, 0, 2, 65, 66].length < 2 ^ 32 ∧
      Allowed (step .little) (KeepsToData .little) (.start [1, 2, 0, 0, 0, 2, 65, 66])
        [.scalar .int16, .vstring] :=
  ⟨by decide, (keepsToData_iff_of_run .little _ (by decide) _).mpr
    ((@allowed_of_checks _ _ _ _ _ _ _ (fun s op => decide (InRange s op)))
      (fun _ _ h => of_decide_eq_true h) (by decide))⟩

/-- The length of this string leads to a sum that fits again, and the string is far longer than
the data. -/
theorem not_keepsToData_vstring :
    ¬ ∀ (host : Host) (stor : Bytes), stor.length < 2 ^ 32 → ∀ ops,
      Allowed (step host) (KeepsToData host) (.start stor) ops := by
  intro h
  exact (h .little [255, 255, 255, 255] (by decide) [.vstring]).1

end Dueca.Store
