import Dueca.Dco.MsgPack

/-!
# Reading single values from msgpack

A value written in any of the formats is read back, and exactly its bytes are taken. Integers
from -32 to -1 are the exception: their bits are read as a magnitude, so that only -16 is right.
An enumerated value is read through an `int`, which has to hold it.
-/

namespace Dueca.Dco

open Dueca.Lib Dueca.Lib.MsgPack

/-! ### Integers -/

/-- The number that is read for a number written. -/
def readsAs (x : ℤ) : ℤ := if -2 ^ 5 ≤ x ∧ x < 0 then -(x + 2 ^ 5) else x

theorem nextBytes_append {k : ℕ} (bs rest : Bytes) (h : bs.length = k) :
    nextBytes k (bs ++ rest) = .ok (bs, rest) := by
  rw [nextBytes, if_neg (by simp [h]), List.take_left' h, List.drop_left' h]

theorem positive_bigEndian {size k n : ℕ} (hk : k ≤ size) (hn : n < 256 ^ k) (rest : Bytes) :
    positive size k (bigEndian k n ++ rest) = .ok ((n : ℤ), rest) := by
  rw [positive, if_neg (by omega), nextBytes_append _ _ (length_bigEndian k n)]
  change Except.ok ((ofBigEndian (bigEndian k n) : ℤ), rest) = _
  rw [ofBigEndian_bigEndian hn]

theorem negative_bigEndian {size k y M : ℕ} (hM : M = 256 ^ k) (hk : k ≤ size) {x : ℤ}
    (hy : (y : ℤ) = x + M) (hx : -(M : ℤ) ≤ 2 * x) (hneg : x < 0) (rest : Bytes) :
    negative true size k (bigEndian k y ++ rest) = .ok (x, rest) := by
  have hlt : y < 256 ^ k := by
    rw [← hM]
    omega
  rw [negative, if_pos (by simpa using hk), nextBytes_append _ _ (length_bigEndian _ _)]
  change Except.ok ((BitVec.ofNat (8 * k) (ofBigEndian (bigEndian k y))).toInt, rest) = _
  have hpow : 2 ^ (8 * k) = M := by rw [hM, Nat.pow_mul]
  rw [ofBigEndian_bigEndian hlt, BitVec.toInt_ofNat', hpow, hy, Int.add_bmod_right,
    Int.bmod_eq_of_le_mul_two (by omega) (by omega)]

/-- A number that needs more than `j` bytes needs an integer of at least `2 * j` bytes. -/
theorem Width.le_bytes {w : Width} {j n : ℕ} (hj : j = 1 ∨ j = 2 ∨ j = 4) (hlow : 256 ^ j ≤ n)
    (hn : n < 256 ^ w.bytes) : 2 * j ≤ w.bytes := by
  have hlt : j < w.bytes := (Nat.pow_lt_pow_iff_right (by decide)).mp (hlow.trans_lt hn)
  cases w <;> simp only [Width.bytes] at hlt ⊢ <;> omega

/-- A number that is not negative is read back, if it fits in the integer. -/
theorem unpackInt_packNat (signed : Bool) {w : Width} {n : ℕ} (hn : n < 256 ^ w.bytes)
    (rest : Bytes) : unpackInt signed w.bytes (packNat n ++ rest) = .ok ((n : ℤ), rest) := by
  have h64 : n < 256 ^ 8 :=
    hn.trans_le (Nat.pow_le_pow_right (by decide) (by cases w <;> decide))
  unfold packNat
  split
  · rename_i hsmall
    have hflag : ∀ m < 2 ^ 7, UInt8.ofNat m &&& 0x80 = 0 ∧ (UInt8.ofNat m).toNat = m := by
      decide +kernel
    obtain ⟨hbit, hval⟩ := hflag n hsmall
    change (if UInt8.ofNat n &&& 0x80 = 0 then Except.ok (((UInt8.ofNat n).toNat : ℤ), rest)
      else _) = _
    rw [if_pos hbit, hval]
  · split
    · exact positive_bigEndian (by cases w <;> decide) (by omega) rest
    · split
      · exact positive_bigEndian (w.le_bytes (.inl rfl) (by omega) hn) (by omega) rest
      · split
        · exact positive_bigEndian (w.le_bytes (.inr (.inl rfl)) (by omega) hn) (by omega) rest
        · exact positive_bigEndian (w.le_bytes (.inr (.inr rfl)) (by omega) hn) h64 rest

/-- A number that does not fit in an `int` is not read. -/
theorem unpackInt_packNat_large (signed : Bool) {n : ℕ} (hn : 2 ^ 32 ≤ n) (rest : Bytes) :
    unpackInt signed 4 (packNat n ++ rest) =
      .error (.mismatch "type too small to assign 1-byte unsigned int") := by
  rw [packNat, if_neg (by omega), if_neg (by omega), if_neg (by omega), if_neg (by omega)]
  rfl

theorem Width.le_bytes_neg {w : Width} {j n : ℕ} (hj : j = 1 ∨ j = 2 ∨ j = 4)
    (hlow : 256 ^ j < 2 * n) (hn : 2 * n ≤ 256 ^ w.bytes) : 2 * j ≤ w.bytes :=
  w.le_bytes hj (Nat.le_sub_one_of_lt hlow)
    ((Nat.sub_one_lt (Nat.ne_zero_of_lt hlow)).trans_le hn)

/-- A negative number is read back, apart from the small ones. -/
theorem unpackInt_packInt_neg {w : Width} {x : ℤ} (hneg : x < 0)
    (hx : 2 * (-x).toNat ≤ 256 ^ w.bytes) (rest : Bytes) :
    unpackInt true w.bytes (packInt x ++ rest) = .ok (readsAs x, rest) := by
  have h64 : 2 * (-x).toNat ≤ 256 ^ 8 :=
    hx.trans (Nat.pow_le_pow_right (by decide) (by cases w <;> decide))
  rw [packInt, if_neg (by omega)]
  by_cases hsmall : -2 ^ 5 ≤ x
  · have hflag : ∀ m < 32, ¬ UInt8.ofNat (224 + m) &&& 0x80 = 0 ∧
        UInt8.ofNat (224 + m) &&& 0xe0 = 0xe0 ∧ (UInt8.ofNat (224 + m) &&& 0x1f).toNat = m := by
      decide +kernel
    obtain ⟨m, hm⟩ : ∃ m : ℕ, x = (m : ℤ) - 32 := ⟨(x + 32).toNat, by omega⟩
    have hbyte : (x + 2 ^ 8).toNat = 224 + m := by omega
    have hreads : readsAs x = -(m : ℤ) := by
      rw [readsAs, if_pos ⟨hsmall, hneg⟩]
      omega
    obtain ⟨hbit, htag, hval⟩ := hflag m (by omega)
    rw [if_pos hsmall, hbyte, hreads]
    change (if UInt8.ofNat (224 + m) &&& 0x80 = 0 then _
      else if UInt8.ofNat (224 + m) &&& 0xe0 = 0xe0 then
        Except.ok (-((UInt8.ofNat (224 + m) &&& 0x1f).toNat : ℤ), rest) else _) = _
    rw [if_neg hbit, if_pos htag, hval]
  · have hreads : readsAs x = x := if_neg fun h => hsmall h.1
    rw [if_neg hsmall, hreads]
    split
    · exact negative_bigEndian (M := 256) rfl (by cases w <;> decide) (by omega) (by omega) hneg
        rest
    · split
      · exact negative_bigEndian (M := 65536) rfl (w.le_bytes_neg (.inl rfl) (by omega) hx)
          (by omega) (by omega) hneg rest
      · split
        · exact negative_bigEndian (M := 4294967296) rfl
            (w.le_bytes_neg (.inr (.inl rfl)) (by omega) hx) (by omega) (by omega) hneg rest
        · exact negative_bigEndian (M := 18446744073709551616) rfl
            (w.le_bytes_neg (.inr (.inr rfl)) (by omega) hx) (by omega) (by omega) hneg rest

/-- What can stand in an integer of `w` bits. -/
theorem ofInt_intValue (signed : Bool) {w : ℕ} (v : BitVec w) :
    BitVec.ofInt w (intValue signed v) = v := by
  cases signed
  · change BitVec.ofInt w (v.toNat : ℤ) = v
    rw [BitVec.ofInt_natCast, BitVec.ofNat_toNat, BitVec.setWidth_eq]
  · exact BitVec.ofInt_toInt

theorem intValue_lt (signed : Bool) {w : Width} (v : BitVec w.bits) :
    (intValue signed v).toNat < 256 ^ w.bytes := by
  have hpow : 2 ^ w.bits = 256 ^ w.bytes := Nat.pow_mul 2 8 w.bytes
  have hnat := hpow ▸ v.isLt
  cases signed
  · exact hnat
  · have hint : 2 * v.toInt < 2 ^ w.bits := BitVec.two_mul_toInt_lt
    have hcast : ((256 ^ w.bytes : ℕ) : ℤ) = 2 ^ w.bits := by
      rw [← hpow]
      push_cast
      rfl
    rw [← hcast] at hint
    change v.toInt.toNat < _
    omega

/-- Negative numbers come from signed integers. -/
theorem intValue_neg {signed : Bool} {w : Width} {v : BitVec w.bits} (h : intValue signed v < 0) :
    signed = true ∧ 2 * (-intValue signed v).toNat ≤ 256 ^ w.bytes := by
  cases signed
  · exact absurd h (Int.not_lt.mpr (Int.natCast_nonneg v.toNat))
  · refine ⟨rfl, ?_⟩
    have hpow : 2 ^ w.bits = 256 ^ w.bytes := Nat.pow_mul 2 8 w.bytes
    have hint : -2 ^ w.bits ≤ 2 * v.toInt := BitVec.le_two_mul_toInt
    have hcast : ((256 ^ w.bytes : ℕ) : ℤ) = 2 ^ w.bits := by
      rw [← hpow]
      push_cast
      rfl
    rw [← hcast] at hint
    change v.toInt < 0 at h
    change 2 * (-v.toInt).toNat ≤ _
    omega

/-- What is read for an integer. -/
theorem unpackInt_packInt (signed : Bool) {w : Width} (v : BitVec w.bits) (rest : Bytes) :
    unpackInt signed w.bytes (packInt (intValue signed v) ++ rest) =
      .ok (readsAs (intValue signed v), rest) := by
  by_cases hneg : intValue signed v < 0
  · obtain ⟨hsigned, hbound⟩ := intValue_neg hneg
    have hread := unpackInt_packInt_neg hneg hbound rest
    rwa [← hsigned] at hread
  · have hreads : readsAs (intValue signed v) = intValue signed v := if_neg fun h => hneg h.2
    rw [packInt, if_pos (Int.not_lt.mp hneg), unpackInt_packNat signed (intValue_lt signed v),
      hreads, Int.toNat_of_nonneg (Int.not_lt.mp hneg)]

/-! ### Sizes -/

theorem unpackSize_sizeHeader {mask tag low : UInt8} {small : ℕ} {wide : List (UInt8 × ℕ)}
    {problem : String}
    (hshort : ∀ n < small, (tag + UInt8.ofNat n) &&& mask = tag ∧
      ((tag + UInt8.ofNat n) &&& low).toNat = n)
    (hwide : ∀ w ∈ wide, ¬ w.1 &&& mask = tag ∧ (wide.find? fun x => x.1 = w.1) = some w)
    {n : ℕ} (hn : ∃ w ∈ wide, n < 256 ^ w.2) (rest : Bytes) :
    unpackSize mask tag low wide problem (sizeHeader tag small wide n ++ rest) =
      .ok (n, rest) := by
  unfold sizeHeader
  split
  · rename_i hsmall
    obtain ⟨htag, hval⟩ := hshort n hsmall
    change (if (tag + UInt8.ofNat n) &&& mask = tag then
      Except.ok (((tag + UInt8.ofNat n) &&& low).toNat, rest) else _) = _
    rw [if_pos htag, hval]
  · split
    · rename_i w hw
      obtain ⟨htag, hfind⟩ := hwide w (List.mem_of_find?_eq_some hw)
      have hlt : n < 256 ^ w.2 := by simpa using List.find?_some hw
      change (if w.1 &&& mask = tag then _ else _) = _
      rw [if_neg htag, hfind]
      change nextBytes w.2 (bigEndian w.2 n ++ rest) >>= _ = _
      rw [nextBytes_append _ _ (length_bigEndian w.2 n)]
      change Except.ok (ofBigEndian (bigEndian w.2 n), rest) = _
      rw [ofBigEndian_bigEndian hlt]
    · rename_i hnone
      obtain ⟨w, hmem, hw⟩ := hn
      exact absurd (decide_eq_true hw) (List.find?_eq_none.mp hnone w hmem)

/-- The byte of a short header shows its kind, gives its size back, and is not nil. -/
theorem shortHeader_bytes :
    (∀ n < 32, ((0xa0 + UInt8.ofNat n) &&& 0xe0 = 0xa0 ∧
      ((0xa0 + UInt8.ofNat n) &&& 0x1f).toNat = n) ∧ 0xa0 + UInt8.ofNat n ≠ nilByte) ∧
    (∀ n < 16, ((0x90 + UInt8.ofNat n) &&& 0xf0 = 0x90 ∧
      ((0x90 + UInt8.ofNat n) &&& 0x0f).toNat = n) ∧ 0x90 + UInt8.ofNat n ≠ nilByte) ∧
    ∀ n < 16, ((0x80 + UInt8.ofNat n) &&& 0xf0 = 0x80 ∧
      ((0x80 + UInt8.ofNat n) &&& 0x0f).toNat = n) ∧ 0x80 + UInt8.ofNat n ≠ nilByte := by
  decide +kernel

theorem unpackStrsize_strHeader {n : ℕ} (hn : n < 2 ^ 32) (rest : Bytes) :
    unpackStrsize (strHeader n ++ rest) = .ok (n, rest) :=
  unpackSize_sizeHeader (fun n hn => (shortHeader_bytes.1 n hn).1) (by decide)
    ⟨(0xdb, 4), by decide, hn⟩ rest

theorem unpackArraysize_arrayHeader {n : ℕ} (hn : n < 2 ^ 32) (rest : Bytes) :
    unpackArraysize (arrayHeader n ++ rest) = .ok (n, rest) :=
  unpackSize_sizeHeader (fun n hn => (shortHeader_bytes.2.1 n hn).1) (by decide)
    ⟨(0xdd, 4), by decide, hn⟩ rest

theorem unpackMapsize_mapHeader {n : ℕ} (hn : n < 2 ^ 32) (rest : Bytes) :
    unpackMapsize (mapHeader n ++ rest) = .ok (n, rest) :=
  unpackSize_sizeHeader (fun n hn => (shortHeader_bytes.2.2 n hn).1) (by decide)
    ⟨(0xdf, 4), by decide, hn⟩ rest

theorem strHeader_notNil {n : ℕ} (hn : n < 2 ^ 32) : NotNil (strHeader n) :=
  sizeHeader_notNil (fun n hn => (shortHeader_bytes.1 n hn).2) (by decide)
    ⟨(0xdb, 4), by decide, hn⟩

theorem arrayHeader_notNil {n : ℕ} (hn : n < 2 ^ 32) : NotNil (arrayHeader n) :=
  sizeHeader_notNil (fun n hn => (shortHeader_bytes.2.1 n hn).2) (by decide)
    ⟨(0xdd, 4), by decide, hn⟩

/-! ### Single values -/

/-- Not one of the small negative numbers that are read as another number. -/
def IntFits (x : ℤ) : Prop := x < -2 ^ 5 ∨ x = -2 ^ 4 ∨ 0 ≤ x

/-- An integer is read back when it is not a small negative number; an enumerated value has to
fit in an `int` too, unless its own type has no more bits than that. -/
def Prim.MsgFits : (p : Prim) → p.Val → Prop
  | .int signed w => fun (v : BitVec w.bits) => IntFits (intValue signed v)
  | .enum signed w _ => fun (v : BitVec w.bits) =>
    IntFits (intValue signed v) ∧
      (w.bits ≤ 32 ∨ -2 ^ 31 ≤ intValue signed v ∧ intValue signed v < 2 ^ 31)
  | _ => fun _ => True

/-- The length of a string fits in 32 bits. -/
def Prim.MsgSized : (p : Prim) → p.Val → Prop
  | .string => fun (v : Bytes) => v.length < 2 ^ 32
  | .dstring maxSize => fun (v : DstringVal maxSize) => v.1.length < 2 ^ 32
  | _ => fun _ => True

theorem readsAs_eq_iff {x : ℤ} : readsAs x = x ↔ IntFits x := by
  unfold readsAs IntFits
  split <;> omega

/-- As numbers of a type of at least 8 bits, what is read is only equal when it is the number. -/
theorem ofInt_readsAs_eq_iff (signed : Bool) {w : Width} (v : BitVec w.bits) :
    BitVec.ofInt w.bits (readsAs (intValue signed v)) = v ↔ IntFits (intValue signed v) := by
  rw [← readsAs_eq_iff]
  refine ⟨fun h => ?_, fun h => by rw [h, ofInt_intValue]⟩
  have hmod := congrArg BitVec.toInt (h.trans (ofInt_intValue signed v).symm)
  rw [BitVec.toInt_ofInt, BitVec.toInt_ofInt, Int.bmod_eq_bmod_iff_bmod_sub_eq_zero] at hmod
  have hdvd := Int.dvd_of_bmod_eq_zero hmod
  have hwide : (256 : ℤ) ∣ ((2 ^ w.bits : ℕ) : ℤ) := by cases w <;> decide
  have hsmall := hwide.trans hdvd
  unfold readsAs at hsmall ⊢
  split at hsmall
  · omega
  · rename_i hnot
    exact if_neg hnot

theorem unpackIntVal_packInt (signed : Bool) {w : Width} (v : BitVec w.bits) :
    ∃ res : Except UnpackFault (BitVec w.bits),
      (∀ rest, unpackIntVal signed w (packInt (intValue signed v) ++ rest) = res.map (·, rest)) ∧
        (res = .ok v ↔ IntFits (intValue signed v)) := by
  refine ⟨.ok (BitVec.ofInt w.bits (readsAs (intValue signed v))), fun rest => ?_, ?_⟩
  · rw [unpackIntVal, unpackInt_packInt]
    rfl
  · rw [Except.ok.injEq]
    exact ofInt_readsAs_eq_iff signed v

/-- A number that passes through an `int`. -/
theorem ofInt_through_int {w : Width} {y : ℤ}
    (h : w.bits ≤ 32 ∨ -2 ^ 31 ≤ y ∧ y < 2 ^ 31) :
    BitVec.ofInt w.bits (BitVec.ofInt 32 y).toInt = BitVec.ofInt w.bits y := by
  rw [BitVec.toInt_ofInt]
  obtain hw | ⟨hlow, hhigh⟩ := h
  · apply BitVec.eq_of_toInt_eq
    rw [BitVec.toInt_ofInt, BitVec.toInt_ofInt]
    exact Int.bmod_bmod_of_dvd (Nat.pow_dvd_pow 2 hw)
  · rw [Int.bmod_eq_of_le_mul_two (by omega) (by omega)]

/-- A number of 64 bits that is too large for an `int` does not pass through it. -/
theorem ofInt_through_int_ne {x : ℤ} (hlow : 2 ^ 31 ≤ x) (hhigh : x < 2 ^ 32) :
    BitVec.ofInt 64 (BitVec.ofInt 32 x).toInt ≠ BitVec.ofInt 64 x := by
  intro h
  have hwrap : (BitVec.ofInt 32 x).toInt = x - 2 ^ 32 := by
    rw [BitVec.toInt_ofInt, ← Int.sub_mul_bmod_self_left x (2 ^ 32) 1,
      Int.bmod_eq_of_le_mul_two (by omega) (by omega)]
    rfl
  have hmod := congrArg BitVec.toInt h
  rw [hwrap, BitVec.toInt_ofInt, BitVec.toInt_ofInt,
    Int.bmod_eq_bmod_iff_bmod_sub_eq_zero] at hmod
  have hdvd := Int.dvd_of_bmod_eq_zero hmod
  omega

theorem unpackInt_packInt_int {x : ℤ} (hlow : -2 ^ 31 ≤ x) (hhigh : x < 2 ^ 32) (rest : Bytes) :
    unpackInt true Width.w32.bytes (packInt x ++ rest) = .ok (readsAs x, rest) := by
  by_cases hneg : x < 0
  · refine unpackInt_packInt_neg hneg ?_ rest
    change 2 * (-x).toNat ≤ 4294967296
    omega
  · have hreads : readsAs x = x := if_neg fun h => hneg h.2
    have hlt : x.toNat < 256 ^ Width.w32.bytes := by
      change x.toNat < 4294967296
      omega
    rw [packInt, if_pos (Int.not_lt.mp hneg), unpackInt_packNat true hlt, hreads,
      Int.toNat_of_nonneg (Int.not_lt.mp hneg)]

/-- Integers of at most 32 bits. -/
theorem intValue_narrow (signed : Bool) {w : Width} (v : BitVec w.bits) (hw : w.bits ≤ 32) :
    -2 ^ 31 ≤ intValue signed v ∧ intValue signed v < 2 ^ 32 := by
  have hbytes : 256 ^ w.bytes ≤ 256 ^ 4 :=
    Nat.pow_le_pow_right (by decide) (by unfold Width.bits at hw; omega)
  have hlt := intValue_lt signed v
  by_cases hneg : intValue signed v < 0
  · have := (intValue_neg hneg).2
    omega
  · omega

/-- What is read for an enumerated value. -/
theorem unpackEnum_packInt (signed : Bool) {w : Width} (v : BitVec w.bits) :
    ∃ res : Except UnpackFault (BitVec w.bits),
      (∀ rest, unpackEnum w (packInt (intValue signed v) ++ rest) = res.map (·, rest)) ∧
        (res = .ok v ↔ IntFits (intValue signed v) ∧
          (w.bits ≤ 32 ∨ -2 ^ 31 ≤ intValue signed v ∧ intValue signed v < 2 ^ 31)) := by
  have hnarrow := intValue_narrow signed v
  by_cases hlarge : 2 ^ 32 ≤ intValue signed v
  · refine ⟨.error (.mismatch "type too small to assign 1-byte unsigned int"), fun rest => ?_,
      ⟨fun h => (by cases h), ?_⟩⟩
    · rw [packInt, if_pos (by omega)]
      change (unpackInt true 4 (packNat _ ++ rest) >>= _) >>= _ = _
      rw [unpackInt_packNat_large true (by omega)]
      rfl
    · rintro ⟨-, h | h⟩
      · have := hnarrow h
        omega
      · omega
  by_cases hsmall : intValue signed v < -2 ^ 31
  · refine ⟨.error (.mismatch "cannot assign negative number or type too small"), fun rest => ?_,
      ⟨fun h => (by cases h), ?_⟩⟩
    · rw [packInt, if_neg (by omega), if_neg (by omega), if_neg (by omega), if_neg (by omega),
        if_neg (by omega)]
      rfl
    · rintro ⟨-, h | h⟩
      · have := hnarrow h
        omega
      · omega
  refine ⟨.ok (BitVec.ofInt w.bits (BitVec.ofInt 32 (readsAs (intValue signed v))).toInt),
    fun rest => ?_, ?_⟩
  · have hread := unpackInt_packInt_int (Int.not_lt.mp hsmall) (Int.not_le.mp hlarge) rest
    change (unpackInt true Width.w32.bytes _ >>= _) >>= _ = _
    rw [hread]
    rfl
  rw [Except.ok.injEq]
  by_cases hfit : w.bits ≤ 32 ∨ -2 ^ 31 ≤ intValue signed v ∧ intValue signed v < 2 ^ 31
  · have hreads : w.bits ≤ 32 ∨
        -2 ^ 31 ≤ readsAs (intValue signed v) ∧ readsAs (intValue signed v) < 2 ^ 31 := by
      refine hfit.imp_right fun h => ?_
      unfold readsAs
      split <;> omega
    rw [ofInt_through_int hreads, ofInt_readsAs_eq_iff]
    exact ⟨fun h => ⟨h, hfit⟩, fun h => h.1⟩
  · refine ⟨fun h => ?_, fun h => absurd h.2 hfit⟩
    obtain ⟨hw, hout⟩ := not_or.mp hfit
    have hlow : 2 ^ 31 ≤ intValue signed v := by omega
    have hreads : readsAs (intValue signed v) = intValue signed v := if_neg (by omega)
    rw [hreads] at h
    cases w with
    | w64 =>
      refine absurd (h.trans (ofInt_intValue signed v).symm) ?_
      exact ofInt_through_int_ne hlow (Int.not_le.mp hlarge)
    | _ => exact absurd (by decide) hw

theorem unpackBool_packMsgBool (v : Bool) (rest : Bytes) :
    unpackBool (packMsgBool v ++ rest) = .ok (v, rest) := by
  cases v <;> rfl

theorem unpackReal_packBits (k : ℕ) (tag : UInt8) (cast : ℤ → BitVec (8 * k)) (problem : String)
    (v : BitVec (8 * k)) (rest : Bytes) :
    unpackReal k tag cast problem (tag :: packBits k v ++ rest) = .ok (v, rest) := by
  have hlt : v.toNat < 256 ^ k := by
    have hlt := v.isLt
    rwa [Nat.pow_mul] at hlt
  change (if tag = tag then nextBytes k (bigEndian k v.toNat ++ rest) >>= _ else _) = _
  rw [if_pos rfl, nextBytes_append _ _ (length_bigEndian k v.toNat)]
  change Except.ok (BitVec.ofNat (8 * k) (ofBigEndian (bigEndian k v.toNat)), rest) = _
  rw [ofBigEndian_bigEndian hlt, BitVec.ofNat_toNat, BitVec.setWidth_eq]

theorem unpackString_packMsgString {v : Bytes} (h : v.length < 2 ^ 32) (rest : Bytes) :
    unpackString (packMsgString v ++ rest) = .ok (v, rest) := by
  rw [unpackString, packMsgString, List.append_assoc, unpackStrsize_strHeader h]
  exact nextBytes_append v rest rfl

theorem DstringVal.ofBytes_val {maxSize : ℕ} (v : DstringVal maxSize) :
    ofBytes v.1 v.2.1 = v := by
  refine Subtype.ext (List.takeWhile_eq_self_iff.mpr fun c hc => ?_)
  simpa using fun h0 : c = 0 => v.2.2 (h0 ▸ hc)

theorem unpackDstring_packMsgString {maxSize : ℕ} (v : DstringVal maxSize)
    (h : v.1.length < 2 ^ 32) (rest : Bytes) :
    unpackDstring maxSize (packMsgString v.1 ++ rest) = .ok (v, rest) := by
  rw [unpackDstring, packMsgString, List.append_assoc, unpackStrsize_strHeader h]
  change (if maxSize < v.1.length then _ else nextBytes v.1.length (v.1 ++ rest) >>= _) = _
  rw [if_neg (Nat.not_lt.mpr v.2.1), nextBytes_append v.1 rest rfl]
  change (if h : v.1.length ≤ maxSize then Except.ok (DstringVal.ofBytes v.1 h, rest) else _) = _
  rw [dif_pos v.2.1, v.ofBytes_val]

/-- A single value is read back exactly when it fits. In any case exactly its bytes are taken,
unless there is an exception. -/
theorem Prim.reads (casts : FloatCasts) (p : Prim) (v : p.Val) (h : p.MsgSized v) :
    ∃ res : Except UnpackFault p.Val,
      (∀ rest, p.unpackMsg casts (p.packMsg v ++ rest) = res.map (·, rest)) ∧
        (res = .ok v ↔ p.MsgFits v) := by
  have hback (hread : ∀ rest, p.unpackMsg casts (p.packMsg v ++ rest) = .ok (v, rest))
      (hfits : p.MsgFits v) : ∃ res : Except UnpackFault p.Val,
        (∀ rest, p.unpackMsg casts (p.packMsg v ++ rest) = res.map (·, rest)) ∧
          (res = .ok v ↔ p.MsgFits v) :=
    ⟨.ok v, hread, fun _ => hfits, fun _ => rfl⟩
  cases p with
  | bool => exact hback (unpackBool_packMsgBool v) trivial
  | int signed w => exact unpackIntVal_packInt signed v
  | float => exact hback (unpackReal_packBits 4 _ casts.float _ v) trivial
  | double => exact hback (unpackReal_packBits 8 _ casts.double _ v) trivial
  | string => exact hback (unpackString_packMsgString h) trivial
  | dstring maxSize => exact hback (unpackDstring_packMsgString v h) trivial
  | enum signed w names => exact unpackEnum_packInt signed v

theorem Prim.packMsg_notNil (p : Prim) (v : p.Val) (h : p.MsgSized v) : NotNil (p.packMsg v) := by
  cases p with
  | bool =>
    have hbool : ∀ b : Bool, NotNil (packMsgBool b) := fun b =>
      ⟨_, [], rfl, by cases b <;> decide⟩
    exact hbool v
  | int signed w => exact packInt_notNil _
  | float => exact ⟨0xca, _, rfl, by decide⟩
  | double => exact ⟨0xcb, _, rfl, by decide⟩
  | string => exact (strHeader_notNil h).append _
  | dstring maxSize => exact (strHeader_notNil h).append _
  | enum signed w names => exact packInt_notNil _

end Dueca.Dco
