import Dueca.Lib.Framing
import Mathlib.Tactic.NormNum

/-!
# MessagePack

The formats in which a MessagePack packer writes values: each value in the smallest format it
fits in. Arrays and maps are a header with the number of elements, and the elements behind it.
-/

namespace Dueca.Lib.MsgPack

/-- An integer that is not negative. -/
def packNat (n : ℕ) : List UInt8 :=
  if n < 2 ^ 7 then [UInt8.ofNat n]
  else if n < 2 ^ 8 then 0xcc :: bigEndian 1 n
  else if n < 2 ^ 16 then 0xcd :: bigEndian 2 n
  else if n < 2 ^ 32 then 0xce :: bigEndian 4 n
  else 0xcf :: bigEndian 8 n

/-- An integer; negative ones in two's complement. -/
def packInt (v : ℤ) : List UInt8 :=
  if 0 ≤ v then packNat v.toNat
  else if -2 ^ 5 ≤ v then [UInt8.ofNat (v + 2 ^ 8).toNat]
  else if -2 ^ 7 ≤ v then 0xd0 :: bigEndian 1 (v + 2 ^ 8).toNat
  else if -2 ^ 15 ≤ v then 0xd1 :: bigEndian 2 (v + 2 ^ 16).toNat
  else if -2 ^ 31 ≤ v then 0xd2 :: bigEndian 4 (v + 2 ^ 32).toNat
  else 0xd3 :: bigEndian 8 (v + 2 ^ 64).toNat

/-- A size: small ones within the first byte, others behind one of the bytes in `wide`, which
go with the number of bytes for the size. -/
def sizeHeader (tag : UInt8) (small : ℕ) (wide : List (UInt8 × ℕ)) (n : ℕ) : List UInt8 :=
  if n < small then [tag + UInt8.ofNat n]
  else match wide.find? fun w => n < 256 ^ w.2 with
    | some w => w.1 :: bigEndian w.2 n
    | none => []

def strHeader : ℕ → List UInt8 := sizeHeader 0xa0 32 [(0xd9, 1), (0xda, 2), (0xdb, 4)]

def arrayHeader : ℕ → List UInt8 := sizeHeader 0x90 16 [(0xdc, 2), (0xdd, 4)]

def mapHeader : ℕ → List UInt8 := sizeHeader 0x80 16 [(0xde, 2), (0xdf, 4)]

def nilByte : UInt8 := 0xc0

/-- The bytes do not begin as nil does. -/
def NotNil (bs : List UInt8) : Prop := ∃ b rest, bs = b :: rest ∧ b ≠ nilByte

theorem NotNil.append {bs : List UInt8} (h : NotNil bs) (cs : List UInt8) : NotNil (bs ++ cs) := by
  obtain ⟨b, rest, rfl, hb⟩ := h
  exact ⟨b, rest ++ cs, rfl, hb⟩

theorem packNat_notNil (n : ℕ) : NotNil (packNat n) := by
  unfold packNat
  split
  · rename_i hn
    refine ⟨_, [], rfl, fun h => ?_⟩
    have hval := congrArg UInt8.toNat h
    rw [UInt8.toNat_ofNat', Nat.mod_eq_of_lt (by omega)] at hval
    change n = 192 at hval
    omega
  · repeat' split
    all_goals exact ⟨_, _, rfl, by decide⟩

theorem packInt_notNil (v : ℤ) : NotNil (packInt v) := by
  unfold packInt
  split
  · exact packNat_notNil _
  · split
    · rename_i hneg hv
      refine ⟨_, [], rfl, fun h => ?_⟩
      have hval := congrArg UInt8.toNat h
      rw [UInt8.toNat_ofNat', Nat.mod_eq_of_lt (by omega)] at hval
      change (v + 2 ^ 8).toNat = 192 at hval
      omega
    · repeat' split
      all_goals exact ⟨_, _, rfl, by decide⟩

theorem sizeHeader_notNil {tag : UInt8} {small : ℕ} {wide : List (UInt8 × ℕ)}
    (hshort : ∀ n < small, tag + UInt8.ofNat n ≠ nilByte) (hwide : ∀ w ∈ wide, w.1 ≠ nilByte)
    {n : ℕ} (hn : ∃ w ∈ wide, n < 256 ^ w.2) : NotNil (sizeHeader tag small wide n) := by
  unfold sizeHeader
  split
  · rename_i hsmall
    exact ⟨_, [], rfl, hshort n hsmall⟩
  · split
    · rename_i w hw
      exact ⟨_, _, rfl, hwide w (List.mem_of_find?_eq_some hw)⟩
    · rename_i hnone
      obtain ⟨w, hmem, hw⟩ := hn
      exact absurd (decide_eq_true hw) (List.find?_eq_none.mp hnone w hmem)

end Dueca.Lib.MsgPack
