import Dueca.Lib.Framing
import Mathlib.Data.List.Induction
import Mathlib.Tactic.Ring

/-!
# Byte orders

A machine keeps the bytes of a number in one of two orders. To send a number, its value is
converted so that its bytes in memory are in network order, most significant first; to receive
it, the value that these bytes have on the machine is converted back.

A number of 64 bits is converted in two halves.
-/

namespace Dueca.Lib

/-- The order of the bytes in memory. -/
inductive Host | little | big
  deriving DecidableEq, Repr

/-- The bytes in memory of a number of `k` bytes. -/
def native (host : Host) (k n : ℕ) : List UInt8 :=
  match host with
  | .little => (bigEndian k n).reverse
  | .big => bigEndian k n

/-- The number that has these bytes in memory. -/
def ofNative (host : Host) (bs : List UInt8) : ℕ :=
  match host with
  | .little => ofBigEndian bs.reverse
  | .big => ofBigEndian bs

/-- The conversion between host and network order, of a number of `k` bytes. -/
def hton (host : Host) (k n : ℕ) : ℕ :=
  match host with
  | .little => ofBigEndian (bigEndian k n).reverse
  | .big => n

/-- The conversion of 64 bits: the halves are converted and change places. -/
def htonll (host : Host) (n : ℕ) : ℕ :=
  match host with
  | .little => hton host 4 (n % 2 ^ 32) * 2 ^ 32 + hton host 4 (n / 2 ^ 32)
  | .big => n

theorem ofBigEndian_append (bs cs : List UInt8) :
    ofBigEndian (bs ++ cs) = ofBigEndian bs * 256 ^ cs.length + ofBigEndian cs := by
  induction cs using List.reverseRecOn with
  | nil => simp [ofBigEndian]
  | append_singleton cs c ih =>
    rw [← List.append_assoc, ofBigEndian_concat, ih, ofBigEndian_concat, List.length_append,
      List.length_singleton, Nat.pow_succ, Nat.mul_add]
    ring

theorem ofBigEndian_lt (bs : List UInt8) : ofBigEndian bs < 256 ^ bs.length := by
  induction bs using List.reverseRecOn with
  | nil => exact Nat.one_pos
  | append_singleton bs b ih =>
    rw [ofBigEndian_concat, List.length_append, List.length_singleton, Nat.pow_succ]
    have := b.toNat_lt
    omega

theorem bigEndian_ofBigEndian (bs : List UInt8) : bigEndian bs.length (ofBigEndian bs) = bs := by
  induction bs using List.reverseRecOn with
  | nil => rfl
  | append_singleton bs b ih =>
    have hb := b.toNat_lt
    rw [List.length_append, List.length_singleton, bigEndian, ofBigEndian_concat,
      show (256 * ofBigEndian bs + b.toNat) / 256 = ofBigEndian bs by omega, ih]
    congr 2
    apply UInt8.toNat_inj.mp
    rw [UInt8.toNat_ofNat']
    omega

theorem bigEndian_add (j k a b : ℕ) (hb : b < 256 ^ k) :
    bigEndian (j + k) (a * 256 ^ k + b) = bigEndian j a ++ bigEndian k b := by
  induction k generalizing b with
  | zero =>
    obtain rfl : b = 0 := by simpa using hb
    simp [bigEndian]
  | succ k ih =>
    have hdiv : b / 256 < 256 ^ k := by
      rw [Nat.pow_succ] at hb
      omega
    have hsplit : a * 256 ^ (k + 1) = 256 * (a * 256 ^ k) := by
      rw [Nat.pow_succ]
      ring
    have hmod : (256 * (a * 256 ^ k) + b) % 256 = b % 256 := by omega
    rw [← Nat.add_assoc, bigEndian, hsplit,
      show (256 * (a * 256 ^ k) + b) / 256 = a * 256 ^ k + b / 256 by omega, ih _ hdiv,
      bigEndian, List.append_assoc]
    congr 3
    apply UInt8.toNat_inj.mp
    rw [UInt8.toNat_ofNat', UInt8.toNat_ofNat']
    omega

/-- A converted number is in network order in memory. -/
theorem native_hton (host : Host) (k n : ℕ) : native host k (hton host k n) = bigEndian k n := by
  cases host with
  | big => rfl
  | little =>
    have hlen : (bigEndian k n).reverse.length = k := by simp
    have h := bigEndian_ofBigEndian (bigEndian k n).reverse
    rw [hlen] at h
    simp only [native, hton, h, List.reverse_reverse]

/-- The value of bytes in network order is converted back. -/
theorem hton_ofNative (host : Host) (bs : List UInt8) :
    hton host bs.length (ofNative host bs) = ofBigEndian bs := by
  cases host with
  | big => rfl
  | little =>
    have h := bigEndian_ofBigEndian bs.reverse
    rw [List.length_reverse] at h
    simp only [hton, ofNative, h, List.reverse_reverse]

/-- In two halves the conversion is the same. -/
theorem htonll_eq (host : Host) (n : ℕ) : htonll host n = hton host 8 n := by
  cases host with
  | big => rfl
  | little =>
    have hlow : n % 2 ^ 32 < 256 ^ 4 := Nat.mod_lt _ (by decide)
    have hsplit : bigEndian 8 n = bigEndian 4 (n / 2 ^ 32) ++ bigEndian 4 (n % 2 ^ 32) := by
      rw [← bigEndian_add 4 4 _ _ hlow]
      congr 1
      omega
    simp only [htonll, hton, hsplit, List.reverse_append, ofBigEndian_append, List.length_reverse,
      length_bigEndian]
    norm_num

theorem native_htonll (host : Host) (n : ℕ) : native host 8 (htonll host n) = bigEndian 8 n := by
  rw [htonll_eq, native_hton]

theorem htonll_ofNative (host : Host) {bs : List UInt8} (h : bs.length = 8) :
    htonll host (ofNative host bs) = ofBigEndian bs := by
  rw [htonll_eq, ← h, hton_ofNative]

end Dueca.Lib
