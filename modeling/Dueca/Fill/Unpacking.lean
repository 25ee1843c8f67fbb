import Dueca.Fill.Packing

/-!
# Unpacking pieces

What the receiver has in its store is a first part of the bytes of some sets. A despatch
takes the complete sets from it, hands those to the channels that are present, and keeps
the bytes of the incomplete one; a store without such bytes starts anew.
-/

namespace Dueca.Fill

open Dueca.Lib

variable {code : ChannelCode} {present : UInt16 → Bool} {u : FillUnpacker} {s : AmorphReStore}
variable {a : PackedSet} {as : List PackedSet} {x : List UInt8} {n : ℕ}

/-! ### Reading from the store -/

theorem rest_length (s : AmorphReStore) : s.rest.length = s.getSize := by
  rw [AmorphReStore.rest, List.length_drop]
  rfl

theorem unPackData_eq_ok (h : s.index + n ≤ s.getFillLevel) :
    s.unPackData n = .ok (s.rest.take n, { s with index := s.index + n }) := by
  rw [AmorphReStore.unPackData, if_neg (by omega)]

theorem rest_advance (s : AmorphReStore) (n : ℕ) :
    AmorphReStore.rest { s with index := s.index + n } = s.rest.drop n := by
  simp only [AmorphReStore.rest, List.drop_drop]

/-- With the whole header in the store, the size that stands there is one of a set. -/
theorem frontSize_lt (has : ∀ a ∈ as, a.Good) (hpre : x <+: bytesOf as) (hlen : 7 ≤ x.length) :
    frontSize x < 2 ^ 31 := by
  obtain ⟨y, hy⟩ := hpre
  have hsame : frontSize x = frontSize (x ++ y) := by
    simp only [frontSize]
    rw [List.drop_append_of_le_length (by omega), List.take_append_of_le_length]
    simp only [List.length_drop]
    omega
  cases as with
  | nil =>
    have hzero := congrArg List.length hy
    simp only [bytesOf, Framing.encodeAll_nil, List.length_append, List.length_nil] at hzero
    omega
  | cons a as =>
    have hgood := has a List.mem_cons_self
    have hfront : frontSize (bytesOf (a :: as)) = a.data.length := frontSize_encode hgood _
    rw [hsame, hy, hfront]
    exact hgood.2

/-- What becomes of the unpacker when sets have been met. -/
def FillUnpacker.meets (u : FillUnpacker) (present : UInt16 → Bool) (as : List PackedSet)
    (s : AmorphReStore) : FillUnpacker :=
  { u with
    store := s
    handed := u.handed ++ as.filter fun a => present a.channel.object
    passed := u.passed ++ as.map fun a => (a, present a.channel.object) }

theorem meets_meets (u : FillUnpacker) (as bs : List PackedSet) (s t : AmorphReStore) :
    (u.meets present as s).meets present bs t = u.meets present (as ++ bs) t := by
  simp only [FillUnpacker.meets, List.append_assoc, List.filter_append, List.map_append]

/-- The id and the size at the front of a store, and the unpacking of the set behind them. -/
theorem unpackOneSet_spec (present : UInt16 → Bool) (ha : a.Good) (hcode : code.Packs a.channel a.data)
    (hidx : u.store.index ≤ u.store.getFillLevel) (hx : u.store.rest = a.encode ++ x) :
    ∃ s, u.store.unPackData 3 = .ok (a.channel.bytes, s) ∧
      s.peekBigMark = .ok a.data.length ∧ s.getSize = 4 + a.data.length + x.length ∧
      unpackOneSet code present u s a.channel a.data.length =
        .ok (u.meets present [a] { u.store with index := u.store.index + a.size }) := by
  have hsize : u.store.getSize = a.size + x.length := by
    rw [← rest_length, hx, List.length_append, PackedSet.length_encode]
  have hlevel : u.store.index + (7 + a.data.length) + x.length = u.store.getFillLevel := by
    simp only [AmorphReStore.getSize, PackedSet.size] at hsize
    omega
  set s : AmorphReStore := { u.store with index := u.store.index + 3 } with hs
  set t : AmorphReStore := { u.store with index := u.store.index + 3 + 4 } with ht
  have hsplace : s.index = u.store.index + 3 ∧ s.getFillLevel = u.store.getFillLevel := ⟨rfl, rfl⟩
  have htplace : t.index = u.store.index + 7 ∧ t.getFillLevel = u.store.getFillLevel := ⟨rfl, rfl⟩
  have hrest : s.rest = bigEndian 4 a.data.length ++ (a.data ++ x) := by
    rw [hs, rest_advance, hx]
    simp only [PackedSet.encode, List.append_assoc]
    exact List.drop_left' a.channel.length_bytes
  have htrest : t.rest = a.data ++ x := by
    have hstep : t.rest = s.rest.drop 4 := rest_advance s 4
    rw [hstep, hrest]
    exact List.drop_left' (length_bigEndian 4 _)
  have hfit : a.data.length < 256 ^ 4 := by
    have := ha.2
    omega
  have hmark : s.unPackData 4 = .ok (bigEndian 4 a.data.length, t) := by
    rw [unPackData_eq_ok (by omega), hrest, List.take_left' (length_bigEndian 4 _)]
  have hnum := ofBigEndian_bigEndian hfit
  have hbody : t.unPackData a.data.length =
      .ok (a.data, { u.store with index := u.store.index + a.size }) := by
    have hplace : u.store.index + 3 + 4 + a.data.length = u.store.index + a.size := by
      simp only [PackedSet.size]
      omega
    rw [unPackData_eq_ok (by omega), htrest, List.take_left' rfl]
    simp only [ht, hplace]
  refine ⟨s, ?_, ?_, ?_, ?_⟩
  · have hid : u.store.rest.take 3 = a.channel.bytes := by
      rw [hx]
      simp only [PackedSet.encode, List.append_assoc]
      exact List.take_left' a.channel.length_bytes
    rw [unPackData_eq_ok (by omega), hid]
  · simp only [AmorphReStore.peekBigMark, hmark, hnum]
  · rw [← rest_length, hrest]
    simp only [List.length_append, length_bigEndian]
    omega
  · unfold unpackOneSet
    by_cases hpresent : present a.channel.object = true
    · have htakes := code.takes a.channel a.data x hcode
      simp only [hpresent, if_true, hmark, htrest, htakes, hbody, List.take_left' rfl,
        FillUnpacker.meets, List.filter_cons, List.filter_nil, List.map_cons, List.map_nil]
    · have hdata : (s.rest.drop 4).take a.data.length = a.data := by
        rw [hrest, List.drop_left' (length_bigEndian 4 _), List.take_left' rfl]
      rw [if_neg hpresent]
      simp only [AmorphReStore.gobbleBig, hmark, hnum, hbody, hdata, FillUnpacker.meets,
        List.filter_cons, hpresent, List.filter_nil, List.map_cons, List.map_nil,
        List.append_nil, Bool.false_eq_true, if_false]

/-! ### Unpacking what is complete -/

theorem meets_nil (u : FillUnpacker) (s : AmorphReStore) :
    u.meets present [] s = { u with store := s } := by
  simp only [FillUnpacker.meets, List.filter_nil, List.map_nil, List.append_nil]

/-- A set that is not there completely stops the loop. -/
theorem unpackLoop_incomplete (hgood : ∀ a ∈ as, a.Good)
    (hidx : u.store.index ≤ u.store.getFillLevel) (hpre : u.store.rest <+: bytesOf as)
    (hnext : nextSet u.store.rest = none) :
    ∃ s, unpackLoop code present (n + 1) u u.store.index =
        .ok ({ u with store := s }, u.store.index) ∧
      s.stor = u.store.stor ∧ (s.getSize = 0 ↔ u.store.getSize = 0) := by
  have hlen := rest_length u.store
  rw [unpackLoop]
  split
  · exact ⟨u.store, rfl, rfl, Iff.rfl⟩
  rename_i hcond
  simp only [not_or, Nat.not_le] at hcond
  have hlong := hcond.2
  set s : AmorphReStore := { u.store with index := u.store.index + 3 } with hs
  have hsplace : s.index = u.store.index + 3 ∧ s.getFillLevel = u.store.getFillLevel := ⟨rfl, rfl⟩
  have hsize : u.store.getSize = u.store.getFillLevel - u.store.index := rfl
  have hssize : s.getSize = s.getFillLevel - s.index := rfl
  have hread : u.store.unPackData 3 = .ok (u.store.rest.take 3, s) :=
    unPackData_eq_ok (by omega)
  have hmark : s.peekBigMark = .ok (frontSize u.store.rest) := by
    rw [AmorphReStore.peekBigMark, unPackData_eq_ok (by omega), hs, rest_advance]
    rfl
  have hfront := frontSize_lt hgood hpre (by omega)
  have hmissing : ¬ (frontSize u.store.rest + 4) % 2 ^ 32 ≤ s.getSize := by
    intro hle
    have hnone : nextSet u.store.rest ≠ none := by
      rw [nextSet, if_pos ⟨by omega, by omega⟩]
      exact Option.some_ne_none _
    exact hnone hnext
  refine ⟨{ s with exhausted := true }, ?_, rfl, ?_⟩
  · simp only [hread, hmark, bind, Except.bind, if_neg hmissing]
    rfl
  · have hkept : AmorphReStore.getSize { s with exhausted := true } = s.getSize := rfl
    rw [hkept]
    omega

/-- The loop takes all complete sets, and finds the place behind the last one. -/
theorem unpackLoop_spec (present : UInt16 → Bool) (hgood : ∀ a ∈ as, a.Good)
    (hcode : ∀ a ∈ as, code.Packs a.channel a.data) (hex : u.store.exhausted = false)
    (hidx : u.store.index ≤ u.store.getFillLevel) (hn : u.store.getSize ≤ n)
    (hpre : u.store.rest <+: bytesOf as) :
    ∃ s j, unpackLoop code present n u u.store.index =
        .ok (u.meets present (setFraming.drain u.store.rest).1 s, j) ∧
      s.stor = u.store.stor ∧ s.stor.drop j = (setFraming.drain u.store.rest).2 ∧
      (s.getSize = 0 ↔ (setFraming.drain u.store.rest).2 = []) := by
  -- on the rounds; each round that goes on leaves fewer bytes
  induction n generalizing u as with
  | zero =>
    have hrest : u.store.rest = [] := by
      have := rest_length u.store
      exact List.eq_nil_of_length_eq_zero (by omega)
    refine ⟨u.store, u.store.index, ?_, rfl, ?_, ?_⟩
    · rw [hrest, setFraming.drain_nil, meets_nil]
      rfl
    · rw [hrest, setFraming.drain_nil]
      exact hrest
    · rw [hrest, setFraming.drain_nil]
      simp only [iff_true]
      omega
  | succ n ih =>
    cases hnext : nextSet u.store.rest with
    | none =>
      obtain ⟨s, hrun, hstor, hzero⟩ :=
        unpackLoop_incomplete hgood hidx hpre hnext
      have hdrain : setFraming.drain u.store.rest = ([], u.store.rest) :=
        setFraming.drain_none hnext
      refine ⟨s, u.store.index, ?_, hstor, ?_, ?_⟩
      · rw [hdrain, meets_nil, hrun]
      · rw [hdrain, hstor]
        rfl
      · rw [hdrain, hzero, ← rest_length, List.length_eq_zero_iff]
    | some found =>
      obtain ⟨a, x⟩ := found
      obtain ⟨bs, rfl, hx, hrest⟩ := setFraming.next_prefix hgood hpre hnext
      have hagood := hgood a List.mem_cons_self
      obtain ⟨s, hread, hmark, hsize, hone⟩ := unpackOneSet_spec present hagood
        (hcode a List.mem_cons_self) hidx hx
      have hxlen : u.store.getSize = a.size + x.length := by
        rw [← rest_length, hx, List.length_append]
        exact congrArg (· + _) a.length_encode
      have hlevel : u.store.getSize = u.store.getFillLevel - u.store.index := rfl
      have hdata := hagood.1
      have hlimit := hagood.2
      have hsz : a.size = 7 + a.data.length := rfl
      have hgo : ¬ (u.store.isExhausted ∨ u.store.getSize ≤ 3 + 4 + 1) := by
        simp only [AmorphReStore.isExhausted, hex, Bool.false_or, decide_eq_true_eq, not_or]
        omega
      have hfits : (a.data.length + 4) % 2 ^ 32 ≤ s.getSize := by omega
      -- the state after this set
      set v := u.meets present [a] { u.store with index := u.store.index + a.size } with hv
      have hvstore : v.store = { u.store with index := u.store.index + a.size } := rfl
      have hvlevel : v.store.getFillLevel = u.store.getFillLevel := rfl
      have hvindex : v.store.index = u.store.index + a.size := rfl
      have hvsize : v.store.getSize = v.store.getFillLevel - v.store.index := rfl
      have hvrest : v.store.rest = x := by
        rw [hvstore, rest_advance, hx]
        exact List.drop_left' a.length_encode
      obtain ⟨s', j, hrun, hstor, hplace, hzero⟩ := ih (u := v)
        (fun b hb => hgood b (List.mem_cons_of_mem _ hb))
        (fun b hb => hcode b (List.mem_cons_of_mem _ hb)) hex (by omega) (by omega)
        (hvrest ▸ hrest)
      have hdrain := setFraming.drain_some hnext
      refine ⟨s', j, ?_, hstor, ?_, ?_⟩
      · rw [unpackLoop, if_neg hgo]
        simp only [hread, hmark, bind, Except.bind, if_pos hfits, GlobalId.ofBytes_bytes, hone]
        rw [hrun, hvrest, hv, meets_meets, hdrain]
        rfl
      · rw [hplace, hvrest, hdrain]
      · rw [hzero, hvrest, hdrain]

/-- A piece is added to the store, and what is complete is unpacked. Nothing stays in the
store when what is there ends with a complete set. -/
theorem despatch_spec {sendId : Bool} {bytes : List UInt8} (present : UInt16 → Bool) (hbytes : bytes ≠ [])
    (hgood : ∀ a ∈ as, a.Good) (hcode : ∀ a ∈ as, code.Packs a.channel a.data)
    (hidx : u.store.index ≤ u.store.getFillLevel)
    (hx : u.store.rest ++ bytes.drop (tagSize sendId) = x) (hpre : x <+: bytesOf as) :
    ∃ s, despatch sendId code present u bytes =
        .ok ((checkTag sendId (checkRoom u bytes.length) bytes).meets present
          (setFraming.drain x).1 s) ∧
      s.index ≤ s.getFillLevel ∧ s.rest = (setFraming.drain x).2 ∧
      s.stor = if (setFraming.drain x).2 = [] then []
        else u.store.stor ++ bytes.drop (tagSize sendId) := by
  have hlen : bytes.length ≠ 0 := fun h => hbytes (List.eq_nil_of_length_eq_zero h)
  set v := checkTag sendId (checkRoom u bytes.length) bytes with hv
  have hvstore : v.store = u.store := by
    rw [hv]
    unfold checkTag checkRoom
    split <;> split <;> rfl
  set w : FillUnpacker := { v with store := v.store.extend (bytes.drop (tagSize sendId)) } with hw
  have hwstore : w.store = u.store.extend (bytes.drop (tagSize sendId)) := by rw [hw, ← hvstore]
  have hwrest : w.store.rest = x := by
    rw [hwstore, ← hx]
    exact List.drop_append_of_le_length hidx
  have hwidx : w.store.index ≤ w.store.getFillLevel := by
    rw [hwstore]
    simp only [AmorphReStore.extend, AmorphReStore.getFillLevel, List.length_append]
    exact Nat.le_add_right_of_le hidx
  have hwex : w.store.exhausted = false := by rw [hwstore]; rfl
  obtain ⟨s, j, hrun, hstor, hplace, hzero⟩ := unpackLoop_spec present hgood hcode
    hwex hwidx (Nat.le_refl _) (hwrest ▸ hpre)
  rw [hwrest] at hrun hplace hzero
  have hwhole : despatch sendId code present u bytes =
      .ok ((w.meets present (setFraming.drain x).1 s).rewind j) := by
    have hrun' : unpackLoop code present (v.store.extend (bytes.drop (tagSize sendId))).getSize w
        (v.store.extend (bytes.drop (tagSize sendId))).index =
          .ok (w.meets present (setFraming.drain x).1 s, j) := hrun
    simp only [despatch, if_neg hlen, ← hv, ← hw, hrun']
  have hmeets : ∀ t, w.meets present (setFraming.drain x).1 t =
      v.meets present (setFraming.drain x).1 t := fun t => rfl
  by_cases hnil : (setFraming.drain x).2 = []
  · refine ⟨{}, ?_, Nat.le_refl _, ?_, ?_⟩
    · have hsize : (w.meets present (setFraming.drain x).1 s).store.getSize = 0 := hzero.mpr hnil
      rw [hwhole, FillUnpacker.rewind, if_neg (not_not.mpr hsize), hmeets]
      rfl
    · rw [hnil]
      rfl
    · rw [if_pos hnil]
  · refine ⟨{ s with index := j }, ?_, ?_, hplace, ?_⟩
    · have hsize : (w.meets present (setFraming.drain x).1 s).store.getSize ≠ 0 :=
        fun h => hnil (hzero.mp h)
      rw [hwhole, FillUnpacker.rewind, if_pos hsize, hmeets]
      rfl
    · rw [← hplace] at hnil
      exact Nat.le_of_lt (Nat.lt_of_not_le fun h => hnil (List.drop_eq_nil_of_le h))
    · rw [if_neg hnil, hstor, hwstore]
      rfl

end Dueca.Fill
