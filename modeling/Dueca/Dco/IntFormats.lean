import Dueca.Dco.MsgSingle

/-!
# Integers in any msgpack format

A packer writes an integer in the smallest format it fits in; other writers may use any format
that holds it. A reader tells by the format, and not by the value, whether an integer is of a type
that it may assign.
-/

namespace Dueca.Dco

open Dueca.Lib Dueca.Lib.MsgPack

/-- The formats for integers. -/
inductive IntFormat
  | positiveFixint
  | negativeFixint
  | uint (k : Width)
  | int (k : Width)
  deriving DecidableEq

def uintTag : Width → UInt8
  | .w8 => 0xcc
  | .w16 => 0xcd
  | .w32 => 0xce
  | .w64 => 0xcf

def intTag : Width → UInt8
  | .w8 => 0xd0
  | .w16 => 0xd1
  | .w32 => 0xd2
  | .w64 => 0xd3

namespace IntFormat

/-- The values that can be written in the format. -/
def Holds (n : ℤ) : IntFormat → Prop
  | positiveFixint => 0 ≤ n ∧ n < 2 ^ 7
  | negativeFixint => -2 ^ 5 ≤ n ∧ n < 0
  | uint k => 0 ≤ n ∧ n < 2 ^ k.bits
  | int k => -2 ^ (k.bits - 1) ≤ n ∧ n < 2 ^ (k.bits - 1)

/-- How a value is written; negative ones in two's complement. -/
def encode (n : ℤ) : IntFormat → Bytes
  | positiveFixint => [UInt8.ofNat n.toNat]
  | negativeFixint => [UInt8.ofNat (n + 2 ^ 8).toNat]
  | uint k => uintTag k :: bigEndian k.bytes n.toNat
  | int k => intTag k :: bigEndian k.bytes (n % 2 ^ k.bits).toNat

/-- The format has no more bytes than the type, and no sign unless the type has one. -/
def Suits (signed : Bool) (w : Width) : IntFormat → Prop
  | positiveFixint => True
  | negativeFixint => signed = true
  | uint k => k.bytes ≤ w.bytes
  | int k => signed = true ∧ k.bytes ≤ w.bytes

end IntFormat

/-- The values of an integer type. -/
def InRange (signed : Bool) (w : Width) (n : ℤ) : Prop :=
  if signed then -2 ^ (w.bits - 1) ≤ n ∧ n < 2 ^ (w.bits - 1) else 0 ≤ n ∧ n < 2 ^ w.bits

instance (n : ℤ) : DecidablePred (IntFormat.Holds n)
  | .positiveFixint => inferInstanceAs (Decidable (_ ∧ _))
  | .negativeFixint => inferInstanceAs (Decidable (_ ∧ _))
  | .uint _ => inferInstanceAs (Decidable (_ ∧ _))
  | .int _ => inferInstanceAs (Decidable (_ ∧ _))

instance (signed : Bool) (w : Width) (n : ℤ) : Decidable (InRange signed w n) :=
  inferInstanceAs (Decidable (if signed then _ ∧ _ else _ ∧ _))

variable {n : ℤ} {signed : Bool} {k w : Width}

/-- A number in two's complement is read back. -/
theorem negative_twosComplement {size j y M : ℕ} (hM : M = 256 ^ j) (hj : j ≤ size)
    (hy : (y : ℤ) = n % M) (hlow : -(M : ℤ) ≤ 2 * n) (hhigh : 2 * n < M) (rest : Bytes) :
    negative true size j (bigEndian j y ++ rest) = .ok (n, rest) := by
  have hpos : (0 : ℤ) < M := by
    rw [hM]
    positivity
  have hlt : y < 256 ^ j := by
    rw [← hM]
    exact Int.ofNat_lt.mp (hy ▸ Int.emod_lt_of_pos n hpos)
  rw [negative, if_pos (by simpa using hj), nextBytes_append _ _ (length_bigEndian _ _)]
  change Except.ok ((BitVec.ofNat (8 * j) (ofBigEndian (bigEndian j y))).toInt, rest) = _
  have hpow : 2 ^ (8 * j) = M := by rw [hM, Nat.pow_mul]
  rw [ofBigEndian_bigEndian hlt, BitVec.toInt_ofNat', hpow, hy, Int.emod_bmod,
    Int.bmod_eq_of_le_mul_two (by omega) (by omega)]

/-- The flag of a small negative number. -/
theorem negativeFixint_flag : ∀ m < 32, ¬ UInt8.ofNat (224 + m) &&& 0x80 = 0 ∧
    UInt8.ofNat (224 + m) &&& 0xe0 = 0xe0 ∧ (UInt8.ofNat (224 + m) &&& 0x1f).toNat = m := by
  decide +kernel

theorem unpackInt_negativeFixint (hn : IntFormat.negativeFixint.Holds n) (rest : Bytes) :
    unpackInt signed w.bytes (IntFormat.negativeFixint.encode n ++ rest) =
      if signed then .ok (-(n + 2 ^ 5), rest)
      else .error (.mismatch "cannot assign negative number to unsigned type") := by
  obtain ⟨hlow, hhigh⟩ := hn
  obtain ⟨m, hm⟩ : ∃ m : ℕ, n = (m : ℤ) - 32 := ⟨(n + 32).toNat, by omega⟩
  have hbyte : (n + 2 ^ 8).toNat = 224 + m := by omega
  obtain ⟨hbit, htag, hval⟩ := negativeFixint_flag m (by omega)
  rw [IntFormat.encode, hbyte]
  change (if UInt8.ofNat (224 + m) &&& 0x80 = 0 then _
    else if UInt8.ofNat (224 + m) &&& 0xe0 = 0xe0 then
      negativeB5 signed (UInt8.ofNat (224 + m)) rest else _) = _
  rw [if_neg hbit, if_pos htag, negativeB5, hval]
  cases signed
  · rfl
  · have hneg : -(n + 2 ^ 5) = -(m : ℤ) := by omega
    rw [hneg]

/-- What is read for an integer: its value, but for small negative ones. -/
theorem unpackInt_encode {f : IntFormat} (hn : f.Holds n) (hsuits : f.Suits signed w)
    (rest : Bytes) : unpackInt signed w.bytes (f.encode n ++ rest) =
      .ok (if f = .negativeFixint then -(n + 2 ^ 5) else n, rest) := by
  cases f with
  | positiveFixint =>
    obtain ⟨hlow, hhigh⟩ := hn
    have hbound : n.toNat < 256 ^ w.bytes :=
      (show n.toNat < 256 by omega).trans_le (Nat.le_self_pow (by cases w <;> decide) 256)
    have hread := unpackInt_packNat signed hbound rest
    rw [packNat, if_pos (by omega), Int.toNat_of_nonneg hlow] at hread
    exact hread
  | negativeFixint =>
    have hsigned : signed = true := hsuits
    rw [unpackInt_negativeFixint hn, if_pos hsigned]
    rfl
  | uint k =>
    obtain ⟨hlow, hhigh⟩ := hn
    have hnat := Int.toNat_of_nonneg hlow
    have hread (h : n.toNat < 256 ^ k.bytes) := positive_bigEndian hsuits h rest
    rw [hnat] at hread
    cases k <;> exact hread (by simp only [Width.bits, Width.bytes] at hhigh ⊢; omega)
  | int k =>
    obtain ⟨hsigned, hk⟩ := hsuits
    subst hsigned
    have hmod := Int.emod_nonneg n (show (2 ^ k.bits : ℤ) ≠ 0 by positivity)
    have hread (M : ℕ) (hM : M = 256 ^ k.bytes) (hpow : (M : ℤ) = 2 ^ k.bits)
        (hlow : -(M : ℤ) ≤ 2 * n) (hhigh : 2 * n < M) :=
      negative_twosComplement hM hk (by rw [Int.toNat_of_nonneg hmod, hpow]) hlow hhigh rest
    obtain ⟨hlow, hhigh⟩ := hn
    cases k
    · simp only [Width.bits, Width.bytes] at hlow hhigh
      exact hread 256 rfl rfl (by omega) (by omega)
    · simp only [Width.bits, Width.bytes] at hlow hhigh
      exact hread 65536 rfl rfl (by omega) (by omega)
    · simp only [Width.bits, Width.bytes] at hlow hhigh
      exact hread 4294967296 rfl rfl (by omega) (by omega)
    · simp only [Width.bits, Width.bytes] at hlow hhigh
      exact hread 18446744073709551616 rfl rfl (by omega) (by omega)

/-- Other formats are refused, whatever their value. -/
theorem unpackInt_of_not_suits {f : IntFormat} (hn : f.Holds n) (hsuits : ¬ f.Suits signed w)
    (rest : Bytes) :
    ∃ problem, unpackInt signed w.bytes (f.encode n ++ rest) = .error (.mismatch problem) := by
  cases f with
  | positiveFixint => exact absurd trivial hsuits
  | negativeFixint =>
    have hsigned : ¬ signed = true := hsuits
    rw [unpackInt_negativeFixint hn, if_neg hsigned]
    exact ⟨_, rfl⟩
  | uint k =>
    have hread : positive w.bytes k.bytes (bigEndian k.bytes n.toNat ++ rest) = _ :=
      if_pos (Nat.lt_of_not_le hsuits)
    exact ⟨_, by cases k <;> exact hread⟩
  | int k =>
    have hsign : ¬ (signed && decide (k.bytes ≤ w.bytes)) = true := by
      rw [Bool.and_eq_true, decide_eq_true_eq]
      exact hsuits
    have hread : negative signed w.bytes k.bytes
        (bigEndian k.bytes (n % 2 ^ k.bits).toNat ++ rest) = _ := if_neg hsign
    exact ⟨_, by cases k <;> exact hread⟩

/-- A format that suits a type holds values of the type only, apart from the unsigned format of
the same number of bytes when the type has a sign. -/
theorem inRange_of_suits {f : IntFormat} (hn : f.Holds n) (hsuits : f.Suits signed w)
    (hsame : ¬ (signed = true ∧ f = .uint w)) : InRange signed w n := by
  cases f with
  | positiveFixint =>
    cases signed <;> cases w <;>
      simp [InRange, IntFormat.Holds, Width.bits, Width.bytes] at hn ⊢ <;> omega
  | negativeFixint =>
    rw [IntFormat.Suits] at hsuits
    subst hsuits
    cases w <;> simp [InRange, IntFormat.Holds, Width.bits, Width.bytes] at hn ⊢ <;> omega
  | uint k =>
    cases signed <;> cases k <;> cases w <;>
      simp [InRange, IntFormat.Holds, IntFormat.Suits, Width.bits, Width.bytes]
        at hn hsuits hsame ⊢ <;> omega
  | int k =>
    obtain ⟨hsigned, hk⟩ := hsuits
    subst hsigned
    cases k <;> cases w <;>
      simp [InRange, IntFormat.Holds, Width.bits, Width.bytes] at hn hk ⊢ <;> omega

/-- What is done with an integer in a format. Left out are small negative integers for signed
types, and those that are beyond a signed type in the unsigned format of the same size. -/
theorem unpackIntVal_of_format (f : IntFormat) (n : ℤ) (hn : f.Holds n) (signed : Bool) (w : Width)
    (hsmall : ¬ (signed = true ∧ f = .negativeFixint))
    (hsame : ¬ (signed = true ∧ f = .uint w ∧ ¬ InRange signed w n)) (rest : Bytes) :
    (f.Suits signed w → InRange signed w n ∧
      unpackIntVal signed w (f.encode n ++ rest) = .ok (BitVec.ofInt w.bits n, rest)) ∧
    (¬ f.Suits signed w →
      ∃ problem, unpackIntVal signed w (f.encode n ++ rest) = .error (.mismatch problem)) := by
  constructor
  · intro hsuits
    refine ⟨?_, ?_⟩
    · by_cases h : signed = true ∧ f = .uint w
      · exact of_not_not fun hrange => hsame ⟨h.1, h.2, hrange⟩
      · exact inRange_of_suits hn hsuits h
    · have hf : f ≠ .negativeFixint := by
        rintro rfl
        exact hsmall ⟨hsuits, rfl⟩
      rw [unpackIntVal, unpackInt_encode hn hsuits, if_neg hf]
      rfl
  · intro hsuits
    obtain ⟨problem, hread⟩ := unpackInt_of_not_suits hn hsuits rest
    refine ⟨problem, ?_⟩
    rw [unpackIntVal, hread]
    rfl

theorem unpackIntVal_of_format_max : InRange true .w16 32767 ∧
    unpackIntVal true .w16 [0xcd, 0x7f, 0xff, 0x2a] = .ok (BitVec.ofInt 16 32767, [0x2a]) := by
  refine (unpackIntVal_of_format (.uint .w16) 32767 (by decide) true .w16 (by decide)
    (by decide) [0x2a]).1 ?_
  exact Nat.le_refl 2

/-- A value that the type has is refused in a wider format. -/
theorem unpackIntVal_wide : (IntFormat.uint .w16).Holds 5 ∧ InRange false .w8 5 ∧
    unpackIntVal false .w8 ((IntFormat.uint .w16).encode 5) =
      .error (.mismatch "type too small to assign 1-byte unsigned int") := by
  decide

end Dueca.Dco
