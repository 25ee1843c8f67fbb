import Mathlib.Order.Nat

/-!
# Base64

Three bytes are four digits of six bits. At the end one or two bytes are two or three digits, and
the text is filled up to a multiple of four characters. What fills it is read as zeros, so that
decoding gives the bytes, with one or two zeros more.
-/

namespace Dueca.Lib

/-- How many characters fill the text of a number of bytes. -/
def fillLength (n : ℕ) : ℕ := (3 - n % 3) % 3

/-- The digits of bytes. -/
def sextets : List UInt8 → List ℕ
  | a :: b :: c :: d =>
    a.toNat / 4 :: (a.toNat % 4 * 16 + b.toNat / 16) :: (b.toNat % 16 * 4 + c.toNat / 64) ::
      c.toNat % 64 :: sextets d
  | [a, b] => [a.toNat / 4, a.toNat % 4 * 16 + b.toNat / 16, b.toNat % 16 * 4]
  | [a] => [a.toNat / 4, a.toNat % 4 * 16]
  | [] => []

/-- The bytes of digits. -/
def ofSextets : List ℕ → List UInt8
  | w :: x :: y :: z :: l =>
    UInt8.ofNat (w * 4 + x / 16) :: UInt8.ofNat (x % 16 * 16 + y / 4) ::
      UInt8.ofNat (y % 4 * 64 + z) :: ofSextets l
  | _ => []

/-- The character of a digit. -/
def digitChar (n : ℕ) : UInt8 :=
  if n < 26 then UInt8.ofNat (65 + n)
  else if n < 52 then UInt8.ofNat (97 + (n - 26))
  else if n < 62 then UInt8.ofNat (48 + (n - 52))
  else if n = 62 then 43
  else 47

/-- The character that fills a text, `=`. -/
def fillChar : UInt8 := 61

/-- The digit of a character. -/
def charDigit (c : UInt8) : ℕ :=
  if 65 ≤ c.toNat ∧ c.toNat ≤ 90 then c.toNat - 65
  else if 97 ≤ c.toNat ∧ c.toNat ≤ 122 then c.toNat - 97 + 26
  else if 48 ≤ c.toNat ∧ c.toNat ≤ 57 then c.toNat - 48 + 52
  else if c = 43 then 62
  else if c = 47 then 63
  else 0

/-- The text of bytes, without what fills it. -/
def encodeBytes (d : List UInt8) : List UInt8 := (sextets d).map digitChar

/-- The bytes of a text. -/
def decodeChars (t : List UInt8) : List UInt8 := ofSextets (t.map charDigit)

theorem charDigit_digitChar {n : ℕ} (h : n < 64) : charDigit (digitChar n) = n := by
  have hall : ∀ m : Fin 64, charDigit (digitChar m) = m := by decide
  exact hall ⟨n, h⟩

theorem sextets_lt (d : List UInt8) : ∀ n ∈ sextets d, n < 64 := by
  induction d using sextets.induct with
  | case1 a b c d ih =>
    have ha := a.toNat_lt
    have hb := b.toNat_lt
    have hc := c.toNat_lt
    intro n hn
    simp only [sextets, List.mem_cons] at hn
    rcases hn with rfl | rfl | rfl | rfl | hn
    · omega
    · omega
    · omega
    · omega
    · exact ih n hn
  | case2 a b =>
    have ha := a.toNat_lt
    have hb := b.toNat_lt
    intro n hn
    simp only [sextets, List.mem_cons, List.not_mem_nil, or_false] at hn
    omega
  | case3 a =>
    have ha := a.toNat_lt
    intro n hn
    simp only [sextets, List.mem_cons, List.not_mem_nil, or_false] at hn
    omega
  | case4 => exact fun n hn => absurd hn List.not_mem_nil

/-- A byte is what its bits give. -/
theorem ofNat_eq {a : UInt8} {n : ℕ} (h : n = a.toNat) : UInt8.ofNat n = a := by
  rw [h, UInt8.ofNat_toNat]

/-- The digits of bytes, with zeros up to a multiple of four. -/
theorem ofSextets_sextets (d : List UInt8) :
    ofSextets (sextets d ++ List.replicate (fillLength d.length) 0) =
      d ++ List.replicate (fillLength d.length) 0 := by
  induction d using sextets.induct with
  | case1 a b c d ih =>
    have ha := a.toNat_lt
    have hb := b.toNat_lt
    have hc := c.toNat_lt
    have hfill : fillLength (a :: b :: c :: d).length = fillLength d.length := by
      simp only [fillLength, List.length_cons]
      omega
    rw [hfill]
    simp only [sextets, List.cons_append, ofSextets, ih]
    rw [ofNat_eq (a := a) (by omega), ofNat_eq (a := b) (by omega), ofNat_eq (a := c) (by omega)]
  | case2 a b =>
    have ha := a.toNat_lt
    have hb := b.toNat_lt
    change [UInt8.ofNat _, UInt8.ofNat _, UInt8.ofNat _] = [a, b, 0]
    rw [ofNat_eq (a := a) (by omega), ofNat_eq (a := b) (by omega),
      ofNat_eq (a := 0) (by rw [UInt8.toNat_zero]; omega)]
  | case3 a =>
    have ha := a.toNat_lt
    change [UInt8.ofNat _, UInt8.ofNat _, UInt8.ofNat _] = [a, 0, 0]
    rw [ofNat_eq (a := a) (by omega), ofNat_eq (a := 0) (by rw [UInt8.toNat_zero]; omega)]
    rfl
  | case4 => rfl

/-- Decoding the filled text of bytes gives these bytes, and zeros for what fills it. -/
theorem decodeChars_encodeBytes (d : List UInt8) :
    decodeChars (encodeBytes d ++ List.replicate (fillLength d.length) fillChar) =
      d ++ List.replicate (fillLength d.length) 0 := by
  have hdigits : (encodeBytes d).map charDigit = sextets d := by
    rw [encodeBytes, List.map_map]
    refine (List.map_congr_left fun n hn => ?_).trans (List.map_id _)
    exact charDigit_digitChar (sextets_lt d n hn)
  rw [decodeChars, List.map_append, hdigits, List.map_replicate]
  exact ofSextets_sextets d

end Dueca.Lib
