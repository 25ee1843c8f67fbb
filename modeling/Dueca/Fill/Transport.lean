import Dueca.Fill.Unpacking

/-!
# Bulk transport reassembles every message

The pieces under way, put behind what has arrived of the store they start in, give the
bytes of the sets of that store, and so on for the stores after it. From this the
receiver meets the sets whose last byte has arrived, and its store never holds more than
the sender's.

The check of the room counts the tag with the bytes that go in the store. With tags it
complains about a piece that would fit, when the piece reaches to less than five bytes
from the size of the buffer.
-/

namespace Dueca.Fill

open Dueca.Lib

variable {code : ChannelCode} {sendId : Bool} {p q : FillPacker code} {s t : Transport code}
variable {as bs C L M done : List PackedSet} {cur : List UInt8} {fl E : List Chunk}
variable {n count sync : ℕ}

/-! ### The statement -/

/-- The sets that are complete in the first `n` bytes of these sets. -/
def wholeSets : List PackedSet → ℕ → List PackedSet
  | [], _ => []
  | a :: as, n => if a.size ≤ n then a :: wholeSets as (n - a.size) else []

/-- The sets met are those whose last byte has arrived, in the order in which they were
packed; they were handed to the channels that were present. Nothing is complained about.
A store of the sender that has arrived completely leaves the receiver's store empty, and
with nothing left to send all sets have been met. -/
structure Reassembles (s : Transport code) : Prop where
  whole : s.unpacker.passed.map Prod.fst = wholeSets s.packer.packed s.arrived
  handed : s.unpacker.handed = (s.unpacker.passed.filter Prod.snd).map Prod.fst
  noReport : s.unpacker.reports = []
  fresh : s.current = [] → s.unpacker.store.getFillLevel = 0
  all : s.flight = [] → s.packer.bytesToSend = 0 → s.packer.fill.getSize = 0 →
    s.unpacker.passed.map Prod.fst = s.packer.packed

/-- With tags, a piece that is unpacked reaches at most to five bytes before the size of
the buffer, counted from the start of the sender's store, or from the last earlier piece
of it that ended between two sets. -/
def TagRoom (sendId : Bool) (s : Transport code) : FillEvent code → Prop
  | .despatch _ => sendId = true →
      ∀ c cs, s.flight = c :: cs → c.reach + tagSize sendId ≤ s.unpacker.bufferSize
  | _ => True

/-! ### Sets and bytes -/

theorem wholeSets_zero (as : List PackedSet) : wholeSets as 0 = [] := by
  cases as with
  | nil => rfl
  | cons a as => simp [wholeSets, PackedSet.size]

theorem wholeSets_append (as bs : List PackedSet) (n : ℕ) :
    wholeSets (as ++ bs) (sizeAll as + n) = as ++ wholeSets bs n := by
  induction as with
  | nil => simp [sizeAll]
  | cons a as ih =>
    have hsum : sizeAll (a :: as) + n = a.size + (sizeAll as + n) := by
      simp only [sizeAll, List.map_cons, List.sum_cons]
      omega
    rw [List.cons_append, wholeSets, if_pos (by omega), hsum, Nat.add_sub_cancel_left, ih,
      List.cons_append]

/-- A part of one set is not recognised. -/
theorem drain_of_short {a : PackedSet} {x : List UInt8} (hgood : ∀ b ∈ a :: as, b.Good)
    (hx : x <+: bytesOf (a :: as)) (hshort : x.length < a.size) :
    setFraming.drain x = ([], x) := by
  cases hnext : nextSet x with
  | none => exact setFraming.drain_none hnext
  | some found =>
    obtain ⟨b, rest⟩ := found
    obtain ⟨bs, heq, rfl, -⟩ := setFraming.next_prefix hgood hx hnext
    cases heq
    have hlen : (setFraming.encode a).length = a.size := a.length_encode
    rw [List.length_append, hlen] at hshort
    omega

/-- A part that is long enough starts with the first set. -/
theorem split_of_long {a : PackedSet} {x : List UInt8} (hx : x <+: bytesOf (a :: as))
    (hlong : a.size ≤ x.length) : ∃ y, x = a.encode ++ y ∧ y <+: bytesOf as := by
  have hpre : a.encode <+: x :=
    List.prefix_of_prefix_length_le ⟨_, rfl⟩ hx (Nat.le_trans (Nat.le_of_eq a.length_encode) hlong)
  obtain ⟨y, rfl⟩ := hpre
  exact ⟨y, rfl, (List.prefix_append_right_inj _).mp hx⟩

/-- What is recognised in a part of the stream are the sets complete in it. -/
theorem drain_eq_wholeSets (hgood : ∀ a ∈ as, a.Good) {x : List UInt8}
    (hx : x <+: bytesOf as) (bs : List PackedSet) :
    wholeSets (as ++ bs) x.length = (setFraming.drain x).1 := by
  induction as generalizing x with
  | nil =>
    obtain rfl := List.prefix_nil.mp hx
    rw [setFraming.drain_nil, List.nil_append]
    exact wholeSets_zero bs
  | cons a as ih =>
    obtain hshort | hlong := Nat.lt_or_ge x.length a.size
    · rw [drain_of_short hgood hx hshort, List.cons_append, wholeSets, if_neg (by omega)]
    · obtain ⟨y, rfl, hy⟩ := split_of_long hx hlong
      have hrest := ih (fun b hb => hgood b (List.mem_cons_of_mem _ hb)) hy
      have hsome := nextSet_encode (hgood a List.mem_cons_self) y
      have hlen : (a.encode ++ y).length - a.size = y.length := by
        rw [List.length_append, a.length_encode, Nat.add_sub_cancel_left]
      rw [setFraming.drain_some hsome, List.cons_append, wholeSets, if_pos hlong, hlen, hrest]

/-- The packer's record of the places between two sets agrees with what is recognised. -/
theorem endsSet_iff (hgood : ∀ a ∈ as, a.Good) {x : List UInt8} (hx : x <+: bytesOf as) :
    endsSet as x.length = true ↔ (setFraming.drain x).2 = [] := by
  induction as generalizing x with
  | nil =>
    obtain rfl := List.prefix_nil.mp hx
    simp [endsSet]
  | cons a as ih =>
    obtain hshort | hlong := Nat.lt_or_ge x.length a.size
    · rw [drain_of_short hgood hx hshort]
      cases x with
      | nil => simp [endsSet]
      | cons b x =>
        rw [List.length_cons] at hshort
        simp only [endsSet, List.length_cons, Bool.and_eq_true, decide_eq_true_eq, reduceCtorEq,
          iff_false, not_and]
        omega
    · obtain ⟨y, rfl, hy⟩ := split_of_long hx hlong
      have hrest := ih (fun b hb => hgood b (List.mem_cons_of_mem _ hb)) hy
      have hsome := nextSet_encode (hgood a List.mem_cons_self) y
      rw [setFraming.drain_some hsome, ← hrest, List.length_append, a.length_encode]
      have hpos : ∃ m, a.size + y.length = m + 1 := ⟨6 + a.data.length + y.length, by
        simp only [PackedSet.size]
        omega⟩
      obtain ⟨m, hm⟩ := hpos
      have hle : a.size ≤ m + 1 := by omega
      have hsub : m + 1 - a.size = y.length := by omega
      rw [hm, endsSet, decide_eq_true hle, Bool.true_and, hsub]

/-- The sets of a store within the size of an `int` can be sent. -/
theorem FillPacker.Stored.good (hp : p.Stored) (hsmall : p.bufferSize < 2 ^ 31)
    (ha : ∀ a ∈ as, a ∈ p.packed) :
    (∀ a ∈ as, a.Good) ∧ ∀ a ∈ as, code.Packs a.channel a.data := by
  refine ⟨fun a hmem => ⟨code.header _ _ (hp.codes a (ha a hmem)), ?_⟩,
    fun a hmem => hp.codes a (ha a hmem)⟩
  have hsize := hp.sizes a (ha a hmem)
  simp only [PackedSet.size] at hsize
  omega

/-! ### The pieces under way -/

/-- The count in the next tag. -/
def nextCount (sendId : Bool) (count : ℕ) : ℕ := if sendId then (count + 1) % 2 ^ 32 else count

/-- All that was sent has arrived: `cur` is the part sent of the store of the sets `L`, and
`sync` the last place in it where a piece ended between two sets. -/
structure FillPacker.Opened (p : FillPacker code) (count : ℕ) (cur : List UInt8) (sync : ℕ)
    (L : List PackedSet) : Prop where
  count : count = p.pkgCount
  none : p.bytesToSend = 0 → L = [] ∧ cur = [] ∧ sync = 0
  some : p.bytesToSend ≠ 0 → L = p.sending ∧ cur = p.send.stor.take p.indexToSend ∧ sync = p.sync

/-- The pieces under way, when `cur` has arrived of the store from which the first of them
comes: with it they give the bytes of the sets `L`, one store after the other. -/
def UnderWay (sendId : Bool) (p : FillPacker code) :
    List Chunk → ℕ → List UInt8 → ℕ → List PackedSet → Prop
  | [], count, cur, sync, L => p.Opened count cur sync L
  | c :: cs, count, cur, sync, L =>
    ∃ data, c.bytes = tag sendId p.location count ++ data ∧ data ≠ [] ∧
      c.reach = (cur ++ data).length - sync ∧
      if c.closes then
        ∃ C L', L = C ++ L' ∧ cur ++ data = bytesOf C ∧ sizeAll C ≤ p.bufferSize ∧
          UnderWay sendId p cs (nextCount sendId count) [] 0 L'
      else
        UnderWay sendId p cs (nextCount sendId count) (cur ++ data)
          (if (setFraming.drain (cur ++ data)).2 = [] then (cur ++ data).length else sync) L

/-- Only what comes behind the pieces under way matters for a change at the sender. -/
theorem UnderWay.map (hloc : q.location = p.location) (hsize : q.bufferSize = p.bufferSize)
    (hbase : ∀ count cur sync L, p.Opened count cur sync L →
      UnderWay sendId q E count cur sync (L ++ M))
    (h : UnderWay sendId p fl count cur sync L) :
    UnderWay sendId q (fl ++ E) count cur sync (L ++ M) := by
  induction fl generalizing count cur sync L with
  | nil => exact hbase _ _ _ _ h
  | cons c cs ih =>
    obtain ⟨data, hbytes, hdata, hreach, hnext⟩ := h
    refine ⟨data, hloc ▸ hbytes, hdata, hreach, ?_⟩
    split
    · rename_i hcloses
      rw [if_pos hcloses] at hnext
      obtain ⟨C, L', rfl, hC, hfit, hrest⟩ := hnext
      exact ⟨C, L' ++ M, List.append_assoc .., hC, hsize ▸ hfit, ih hrest⟩
    · rename_i hcloses
      rw [if_neg hcloses] at hnext
      exact ih hnext

/-- What has arrived of a store is a first part of the sets in it. -/
theorem UnderWay.store (hp : p.Stored) (h : UnderWay sendId p fl count cur sync L) :
    ∃ C, C <+: L ∧ cur <+: bytesOf C ∧ sizeAll C ≤ p.bufferSize := by
  induction fl generalizing count cur sync L with
  | nil =>
    by_cases hnone : p.bytesToSend = 0
    · obtain ⟨-, rfl, -⟩ := h.none hnone
      exact ⟨[], List.nil_prefix, List.nil_prefix, Nat.zero_le _⟩
    · obtain ⟨rfl, rfl, -⟩ := h.some hnone
      obtain ⟨-, hstor, -⟩ := hp.send hnone
      refine ⟨p.sending, List.prefix_rfl, hstor ▸ List.take_prefix _ _, ?_⟩
      rw [← length_bytesOf, ← hstor]
      exact hp.within _
  | cons c cs ih =>
    obtain ⟨data, -, -, -, hnext⟩ := h
    split at hnext
    · obtain ⟨C, L', rfl, hC, hfit, -⟩ := hnext
      exact ⟨C, List.prefix_append C L', ⟨data, hC⟩, hfit⟩
    · obtain ⟨C, hCL, hcur, hfit⟩ := ih hnext
      exact ⟨C, hCL, (List.prefix_append cur data).trans hcur, hfit⟩

/-- So is that with the next piece. -/
theorem UnderWay.store_cons {c : Chunk} {data : List UInt8} (hp : p.Stored)
    (h : UnderWay sendId p (c :: fl) count cur sync L)
    (hbytes : c.bytes = tag sendId p.location count ++ data) :
    ∃ C, C <+: L ∧ cur ++ data <+: bytesOf C ∧ sizeAll C ≤ p.bufferSize := by
  obtain ⟨data', hbytes', -, -, hnext⟩ := h
  obtain rfl : data = data' := List.append_cancel_left (hbytes.symm.trans hbytes')
  split at hnext
  · obtain ⟨C, L', rfl, hC, hfit, -⟩ := hnext
    exact ⟨C, List.prefix_append C L', hC ▸ List.prefix_rfl, hfit⟩
  · exact hnext.store hp

/-! ### What the sender does -/

theorem UnderWay.packed (hp : p.Stored) (hsame : p.SameSending q)
    (h : UnderWay sendId p fl count cur sync L) : UnderWay sendId q fl count cur sync L := by
  have hmap := UnderWay.map (q := q) (M := []) (E := []) hsame.location hsame.bufferSize
    (fun count cur sync L hopen => ?_) h
  · rwa [List.append_nil, List.append_nil] at hmap
  · refine ⟨hopen.count.trans hsame.pkgCount.symm, fun hnone => ?_, fun hsome => ?_⟩
    · rw [hsame.bytesToSend] at hnone
      rw [List.append_nil]
      exact hopen.none hnone
    · rw [hsame.bytesToSend] at hsome
      rw [List.append_nil, hsame.sending, hsame.send (hp.send hsome).1, hsame.indexToSend,
        hsame.sync]
      exact hopen.some hsome

/-- The store that is taken next comes behind all that was sent. -/
theorem UnderWay.startStore (hp : p.Stored) (h : UnderWay sendId p fl count cur sync L) :
    ∃ M, p.startStore.before ++ p.startStore.sending = p.before ++ p.sending ++ M ∧
      p.startStore.packed = p.packed ∧
      UnderWay sendId p.startStore fl count cur sync (L ++ M) := by
  by_cases hcase : p.bytesToSend ≠ 0 ∨ p.filling = []
  · rw [FillPacker.startStore_same hp hcase]
    exact ⟨[], (List.append_nil _).symm, rfl, (List.append_nil L).symm ▸ h⟩
  obtain ⟨hnone, hfill⟩ := not_or.mp hcase
  rw [FillPacker.startStore_eq hp (not_not.mp hnone) hfill]
  refine ⟨p.filling, rfl, List.append_nil _, ?_⟩
  have hmap := UnderWay.map (q := p.startStore) (M := p.filling) (E := [])
    (by rw [FillPacker.startStore_eq hp (not_not.mp hnone) hfill])
    (by rw [FillPacker.startStore_eq hp (not_not.mp hnone) hfill])
    (fun count cur sync L hopen => ?_) h
  · rwa [List.append_nil, FillPacker.startStore_eq hp (not_not.mp hnone) hfill] at hmap
  · rw [FillPacker.startStore_eq hp (not_not.mp hnone) hfill]
    obtain ⟨rfl, rfl, rfl⟩ := hopen.none (not_not.mp hnone)
    refine ⟨hopen.count, fun hzero => ?_, fun _ => ⟨rfl, rfl, rfl⟩⟩
    exact absurd hzero fun hzero => hfill (hp.filling_eq_nil.mpr hzero)

/-- A piece that is cut comes behind all that was sent. -/
theorem UnderWay.cut {size : ℕ} (hp : p.Stored) (hsmall : p.bufferSize < 2 ^ 31)
    (hbytes : p.bytesToSend ≠ 0) (hsize : minFill ≤ size)
    (h : UnderWay sendId p fl count cur sync L) :
    UnderWay sendId (p.cut sendId size).1 (fl ++ [(p.cut sendId size).2]) count cur sync L := by
  have hmap := UnderWay.map (p := p) (q := (p.cut sendId size).1) (M := [])
    (E := [(p.cut sendId size).2]) rfl rfl (fun count cur sync L hopen => ?_) h
  · rwa [List.append_nil] at hmap
  obtain ⟨rfl, rfl, rfl⟩ := hopen.some hbytes
  obtain ⟨-, hstor, hsum⟩ := hp.send hbytes
  rw [List.append_nil]
  set m := min (size - tagSize sendId) p.bytesToSend with hm
  have hmpos : 0 < m := by
    have htag : tagSize sendId ≤ 5 := by
      unfold tagSize
      split <;> omega
    unfold minFill at hsize
    omega
  have hupTo : p.send.stor.take p.indexToSend ++ (p.send.stor.drop p.indexToSend).take m =
      p.send.stor.take (p.indexToSend + m) := by
    rw [List.take_add]
  have hlen : (p.send.stor.take (p.indexToSend + m)).length = p.indexToSend + m := by
    have hget : p.send.getSize = p.send.stor.length := rfl
    rw [List.length_take]
    omega
  have hgood : ∀ a ∈ p.sending, a.Good := (hp.good hsmall fun a ha =>
    List.mem_append_left _ (List.mem_append_right _ ha)).1
  have hends := endsSet_iff hgood (x := p.send.stor.take (p.indexToSend + m))
    (hstor ▸ List.take_prefix _ _)
  rw [hlen] at hends
  have hcount : nextCount sendId count = (p.cut sendId size).1.pkgCount := by
    rw [hopen.count]
    rfl
  refine ⟨(p.send.stor.drop p.indexToSend).take m, ?_, ?_, ?_, ?_⟩
  · rw [hopen.count]
    rfl
  · intro hnil
    have hzero := congrArg List.length hupTo
    rw [hnil, List.append_nil, hlen, List.length_take] at hzero
    omega
  · rw [hupTo, hlen]
    rfl
  · rw [hupTo]
    by_cases hcloses : p.bytesToSend - m = 0
    · -- the last piece of the store
      have hwhole : p.send.stor.take (p.indexToSend + m) = bytesOf p.sending := by
        rw [← hstor]
        refine List.take_of_length_le ?_
        have hget : p.send.getSize = p.send.stor.length := rfl
        omega
      rw [if_pos (show (p.cut sendId size).2.closes = true from decide_eq_true hcloses)]
      refine ⟨p.sending, [], (List.append_nil _).symm, hwhole, ?_, hcount, fun _ => ⟨rfl, rfl, rfl⟩,
        fun hsome => absurd hcloses hsome⟩
      rw [← length_bytesOf, ← hstor]
      exact hp.within _
    · rw [if_neg (show ¬ (p.cut sendId size).2.closes = true from
        fun h => hcloses (of_decide_eq_true h)), hlen]
      refine ⟨hcount, fun hnone => absurd hnone hcloses, fun _ => ⟨rfl, rfl, ?_⟩⟩
      show _ = if endsSet p.sending (p.indexToSend + m) then p.indexToSend + m else p.sync
      by_cases hsync : endsSet p.sending (p.indexToSend + m) = true
      · rw [if_pos hsync, if_pos (hends.mp hsync)]
      · rw [if_neg hsync, if_neg fun h => hsync (hends.mpr h)]

/-! ### What the receiver does -/

/-- How sender and receiver hang together: the sets of the stores that have arrived
completely, those behind them, and the last place between two sets where a piece ended. -/
structure Linked (sendId : Bool) (s : Transport code) (done L : List PackedSet) (sync : ℕ) :
    Prop where
  split : done ++ L = s.packer.before ++ s.packer.sending
  way : UnderWay sendId s.packer s.flight s.unpacker.pkgCount s.current sync L
  passed : s.unpacker.passed.map Prod.fst = done ++ (setFraming.drain s.current).1
  rest : s.unpacker.store.rest = (setFraming.drain s.current).2
  stor : s.unpacker.store.stor = s.current.drop sync
  sync : sync ≤ s.current.length
  arrived : s.arrived = sizeAll done + s.current.length

/-- The invariant, for buffers of `n` bytes. -/
structure Inv (sendId : Bool) (n : ℕ) (s : Transport code) : Prop where
  stored : s.packer.Stored
  packerSize : s.packer.bufferSize = n
  unpackerSize : s.unpacker.bufferSize = n
  place : s.unpacker.store.index ≤ s.unpacker.store.getFillLevel
  count : s.unpacker.pkgCount < 2 ^ 32
  sender : s.unpacker.senderId = none ∨ s.unpacker.senderId = some s.packer.location
  handed : s.unpacker.handed = (s.unpacker.passed.filter Prod.snd).map Prod.fst
  reports : s.unpacker.reports = []
  linked : ∃ done L sync, Linked sendId s done L sync

/-- The checks on a piece that comes when it is due, and for which there is room. -/
theorem checks_spec {u : FillUnpacker} {bytes data : List UInt8} {location : UInt8}
    (hbytes : bytes = tag sendId location u.pkgCount ++ data) (hcount : u.pkgCount < 2 ^ 32)
    (hsender : u.senderId = none ∨ u.senderId = some location)
    (hroom : bytes.length + u.store.getFillLevel ≤ u.bufferSize) :
    ∃ sender, (sender = none ∨ sender = some location) ∧
      checkTag sendId (checkRoom u bytes.length) bytes =
        { u with senderId := sender, pkgCount := nextCount sendId u.pkgCount } := by
  have hno : checkRoom u bytes.length = u := by
    rw [checkRoom, if_neg (by omega)]
  rw [hno]
  cases sendId with
  | false => exact ⟨u.senderId, hsender, rfl⟩
  | true =>
    have hnum : ofBigEndian ((bytes.drop 1).take 4) = u.pkgCount := by
      have hdrop : bytes.drop 1 = bigEndian 4 u.pkgCount ++ data := by rw [hbytes]; rfl
      rw [hdrop, List.take_left' (length_bigEndian 4 _)]
      exact ofBigEndian_bigEndian hcount
    have hhead : bytes.headD 0 = location := by rw [hbytes]; rfl
    refine ⟨some location, .inr rfl, ?_⟩
    obtain hsender | hsender := hsender
    · simp only [checkTag, hnum, hhead, hsender, nextCount, if_true, true_or, List.append_nil]
    · simp only [checkTag, hnum, hhead, hsender, nextCount, if_true, or_true, List.append_nil,
        reduceCtorEq, if_false]

theorem nextCount_lt (h : count < 2 ^ 32) : nextCount sendId count < 2 ^ 32 := by
  unfold nextCount
  split
  · exact Nat.mod_lt _ (by decide)
  · exact h

theorem drop_tag {bytes data : List UInt8} {location : UInt8}
    (hbytes : bytes = tag sendId location count ++ data) :
    bytes.drop (tagSize sendId) = data := by
  rw [hbytes]
  refine List.drop_left' ?_
  unfold tag tagSize
  split
  · rw [List.length_cons, length_bigEndian]
  · rfl

theorem meets_handed {u : FillUnpacker} (present : UInt16 → Bool) (as : List PackedSet)
    (r : AmorphReStore) (h : u.handed = (u.passed.filter Prod.snd).map Prod.fst) :
    (u.meets present as r).handed =
      ((u.meets present as r).passed.filter Prod.snd).map Prod.fst := by
  have hnew : as.filter (fun a => present a.channel.object) =
      ((as.map fun a => (a, present a.channel.object)).filter Prod.snd).map Prod.fst := by
    rw [List.filter_map, List.map_map]
    exact (List.map_id _).symm
  simp only [FillUnpacker.meets, List.filter_append, List.map_append, h, hnew]

/-- The fill level before a piece, and its bytes, are what it reaches. -/
theorem Linked.reach (h : Linked sendId s done L sync) {c : Chunk} {data : List UInt8}
    (hreach : c.reach = (s.current ++ data).length - sync) :
    s.unpacker.store.getFillLevel + data.length = c.reach := by
  have hsync := h.sync
  rw [hreach, AmorphReStore.getFillLevel, h.stor, List.length_drop, List.length_append]
  omega

/-- The transport after a piece has been unpacked. -/
def Transport.arrive (s : Transport code) (u : FillUnpacker) (c : Chunk) (cs : List Chunk)
    (data : List UInt8) : Transport code :=
  { s with
    unpacker := u
    flight := cs
    current := if c.closes then [] else s.current ++ data
    arrived := s.arrived + data.length }

/-- After a piece the two sides hang together as before, when the receiver has met the
sets that are complete and keeps the rest. -/
theorem Linked.arrive {u : FillUnpacker} {c : Chunk} {cs : List Chunk} {data : List UInt8}
    (h : Linked sendId s done L sync)
    (hgood : ∀ a ∈ L, a.Good) (hflight : s.flight = c :: cs)
    (hbytes : c.bytes = tag sendId s.packer.location s.unpacker.pkgCount ++ data)
    (hcount : u.pkgCount = nextCount sendId s.unpacker.pkgCount)
    (hpassed : u.passed.map Prod.fst = done ++ (setFraming.drain (s.current ++ data)).1)
    (hrest : u.store.rest = (setFraming.drain (s.current ++ data)).2)
    (hstor : u.store.stor = if (setFraming.drain (s.current ++ data)).2 = [] then []
      else s.unpacker.store.stor ++ data) :
    ∃ done' L' sync', Linked sendId (s.arrive u c cs data) done' L' sync' := by
  have hway := h.way
  rw [hflight] at hway
  obtain ⟨data', hbytes', -, -, hnext⟩ := hway
  obtain rfl : data = data' := List.append_cancel_left (hbytes.symm.trans hbytes')
  rw [← hcount] at hnext
  have hsum : s.arrived + data.length = sizeAll done + (s.current ++ data).length := by
    rw [h.arrived, List.length_append, Nat.add_assoc]
  split at hnext
  case isTrue hcloses =>
    -- the store has arrived completely
    obtain ⟨C, L', rfl, hC, -, hway⟩ := hnext
    have hdrain : setFraming.drain (s.current ++ data) = (C, []) :=
      hC ▸ setFraming.drain_encodeAll fun a ha => hgood a (List.mem_append_left _ ha)
    rw [hdrain] at hpassed hrest hstor
    have hcur : (s.arrive u c cs data).current = [] := if_pos hcloses
    refine ⟨done ++ C, L', 0, (List.append_assoc ..).trans h.split, hcur.symm ▸ hway, ?_, ?_, ?_,
      Nat.zero_le _, ?_⟩
    · rw [hcur, setFraming.drain_nil, List.append_nil]
      exact hpassed
    · rw [hcur, setFraming.drain_nil]
      exact hrest
    · rw [hcur]
      exact hstor
    · rw [hcur, sizeAll_append, ← length_bytesOf C, ← hC]
      exact hsum
  case isFalse hcloses =>
    have hcur : (s.arrive u c cs data).current = s.current ++ data := if_neg hcloses
    refine ⟨done, L, _, h.split, hcur.symm ▸ hnext, hcur.symm ▸ hpassed, hcur.symm ▸ hrest, ?_, ?_,
      hcur.symm ▸ hsum⟩
    · rw [hcur, Transport.arrive, hstor]
      split
      · exact (List.drop_length).symm
      · rw [h.stor, List.drop_append_of_le_length h.sync]
    · rw [hcur]
      split
      · exact Nat.le_refl _
      · have := h.sync
        rw [List.length_append]
        omega

theorem length_tag (sendId : Bool) (location : UInt8) (count : ℕ) :
    (tag sendId location count).length = tagSize sendId := by
  unfold tag tagSize
  split
  · rw [List.length_cons, length_bigEndian]
  · rfl

/-- What the receiver does with the next piece under way. -/
theorem Inv.received {c : Chunk} {cs : List Chunk} (present : UInt16 → Bool) (hn : n < 2 ^ 31)
    (h : Inv sendId n s) (hflight : s.flight = c :: cs) :
    ∃ data done L sync r, Linked sendId s done L sync ∧
      c.bytes = tag sendId s.packer.location s.unpacker.pkgCount ++ data ∧
      s.unpacker.store.getFillLevel + data.length = c.reach ∧ c.reach ≤ n ∧
      despatch sendId code present s.unpacker c.bytes =
        .ok ((checkTag sendId (checkRoom s.unpacker c.bytes.length) c.bytes).meets present
          (setFraming.drain ((setFraming.drain s.current).2 ++ data)).1 r) ∧
      r.index ≤ r.getFillLevel ∧ r.rest = (setFraming.drain (s.current ++ data)).2 ∧
      r.stor = if (setFraming.drain (s.current ++ data)).2 = [] then []
        else s.unpacker.store.stor ++ data := by
  obtain ⟨done, L, sync, hlink⟩ := h.linked
  have hway := hlink.way
  rw [hflight] at hway
  have hfirst := hway
  obtain ⟨data, hbytes, hdata, hreach, -⟩ := hway
  have hnonempty : c.bytes ≠ [] := by
    intro hnil
    rw [hnil] at hbytes
    exact hdata (List.append_eq_nil_iff.mp hbytes.symm).2
  obtain ⟨C, hCL, hcur, hfit⟩ := hfirst.store_cons h.stored hbytes
  have hCmem : ∀ a ∈ C, a ∈ s.packer.packed := fun a ha =>
    List.mem_append_left _ (hlink.split ▸ List.mem_append_right _ (hCL.subset ha))
  obtain ⟨hgood, hcode⟩ := h.stored.good (h.packerSize ▸ hn) hCmem
  have hreachSize : c.reach ≤ n := by
    have hle := hcur.length_le
    rw [length_bytesOf] at hle
    have hsize := h.packerSize
    omega
  have happend : (setFraming.drain (s.current ++ data)).2 =
      (setFraming.drain ((setFraming.drain s.current).2 ++ data)).2 := by
    rw [setFraming.drain_append]
  have hdrop := drop_tag hbytes
  -- what is left of the current store, with the piece, is a part of the sets behind those met
  have hpart := (List.prefix_append s.current data).trans hcur
  obtain ⟨C', rfl⟩ := setFraming.drain_prefix hgood hpart
  have hmid : (setFraming.drain s.current).2 ++ data <+: bytesOf C' := by
    have hsum : bytesOf (setFraming.drain s.current).1 ++
        ((setFraming.drain s.current).2 ++ data) = s.current ++ data := by
      rw [← List.append_assoc, setFraming.encodeAll_drain hgood hpart]
    rw [← hsum, bytesOf_append] at hcur
    exact (List.prefix_append_right_inj _).mp hcur
  obtain ⟨r, hrun, hplace, hrest, hstor⟩ := despatch_spec present hnonempty
    (fun a ha => hgood a (List.mem_append_right _ ha))
    (fun a ha => hcode a (List.mem_append_right _ ha)) h.place
    (by rw [hlink.rest, hdrop]) hmid
  rw [hdrop] at hstor
  exact ⟨data, done, L, sync, r, hlink, hbytes, hlink.reach hreach, hreachSize, hrun, hplace,
    happend ▸ hrest, happend ▸ hstor⟩

/-- A piece is unpacked. -/
theorem Inv.despatch {present : UInt16 → Bool} (hn : n < 2 ^ 31) (h : Inv sendId n s)
    (hroom : TagRoom sendId s (.despatch present)) :
    ∃ t, fillStep sendId s (.despatch present) = .ok t ∧ Inv sendId n t := by
  cases hflight : s.flight with
  | nil =>
    refine ⟨s, ?_, h⟩
    simp only [fillStep, hflight]
  | cons c cs =>
    obtain ⟨data, done, L, sync, r, hlink, hbytes, hlevel, hreach, hrun, hplace, hrest, hstor⟩ :=
      h.received present hn hflight
    have hlen : c.bytes.length = tagSize sendId + data.length := by
      rw [hbytes, List.length_append, length_tag]
    have hfits : c.bytes.length + s.unpacker.store.getFillLevel ≤ s.unpacker.bufferSize := by
      have hsize := h.unpackerSize
      cases hid : sendId with
      | false =>
        simp only [hid, tagSize, Bool.false_eq_true, if_false] at hlen
        omega
      | true =>
        have htag := hroom hid c cs hflight
        rw [hlen]
        omega
    obtain ⟨sender, hsender, hchecks⟩ := checks_spec hbytes h.count h.sender hfits
    set u' := (checkTag sendId (checkRoom s.unpacker c.bytes.length) c.bytes).meets present
      (setFraming.drain ((setFraming.drain s.current).2 ++ data)).1 r with hu'
    refine ⟨s.arrive u' c cs data, ?_, ?_⟩
    · simp only [fillStep, hflight, hrun, drop_tag hbytes]
      rfl
    rw [hchecks] at hu'
    refine ⟨h.stored, h.packerSize, hu' ▸ h.unpackerSize, hplace, hu' ▸ nextCount_lt h.count,
      hu' ▸ hsender, ?_, hu' ▸ h.reports, ?_⟩
    · exact hu' ▸ meets_handed present _ r h.handed
    · have hpassed : u'.passed.map Prod.fst = done ++ (setFraming.drain (s.current ++ data)).1 := by
        rw [hu', setFraming.drain_append s.current data, ← List.append_assoc, ← hlink.passed]
        simp only [FillUnpacker.meets, List.map_append, List.map_map]
        exact congrArg _ (List.map_id _)
      refine hlink.arrive ?_ hflight hbytes (hu' ▸ rfl) hpassed hrest hstor
      exact fun a ha => (h.stored.good (h.packerSize ▸ hn) fun b hb =>
        List.mem_append_left _ (hlink.split ▸ List.mem_append_right _ hb)).1 a ha

/-! ### Runs -/

/-- Only an entry that has become invalid stops the packing. -/
theorem packUnits_fault {us : List (PackUnit code)} {e : Fault} (h : packUnits p us = .error e) :
    e = .entryInvalid := by
  induction us generalizing p with
  | nil => cases h
  | cons u us ih =>
    unfold packUnits at h
    split at h
    · cases h
    split at h
    · exact ih h
    · split at h <;> cases h
    · cases h
      rfl

/-- The packer goes on, and nothing arrives. -/
theorem Inv.sends (h : Inv sendId n s) (hq : q.Stored) (hsize : q.bufferSize = s.packer.bufferSize)
    (hloc : q.location = s.packer.location)
    (hway : ∀ {count sync L}, UnderWay sendId s.packer s.flight count s.current sync L →
      ∃ M, q.before ++ q.sending = s.packer.before ++ s.packer.sending ++ M ∧
        UnderWay sendId q fl count s.current sync (L ++ M)) :
    Inv sendId n { s with packer := q, flight := fl } := by
  obtain ⟨done, L, sync, hlink⟩ := h.linked
  obtain ⟨M, hsplit, hway⟩ := hway hlink.way
  refine ⟨hq, hsize.trans h.packerSize, h.unpackerSize, h.place, h.count, ?_, h.handed,
    h.reports, done, L ++ M, sync, ?_, hway, hlink.passed, hlink.rest, hlink.stor, hlink.sync,
    hlink.arrived⟩
  · rw [hloc]
    exact h.sender
  · rw [← List.append_assoc, hlink.split, hsplit]

/-- One step of the transport. -/
theorem Inv.step {e : FillEvent code} (hn : n < 2 ^ 31) (h : Inv sendId n s)
    (hroom : TagRoom sendId s e) :
    (∃ t, fillStep sendId s e = .ok t ∧ Inv sendId n t) ∨
      fillStep sendId s e = .error .entryInvalid := by
  cases e with
  | notification u =>
    have hsame : s.packer.SameSending
        { s.packer with workQueue := s.packer.workQueue ++ [u] } :=
      ⟨rfl, rfl, rfl, rfl, rfl, rfl, rfl, rfl, rfl, rfl, fun _ _ => rfl⟩
    have hstored := h.stored
    refine .inl ⟨_, rfl, h.sends (q := { s.packer with workQueue := s.packer.workQueue ++ [u] })
      ⟨hstored.capacity, hstored.within, hstored.fill, hstored.send, hstored.codes,
        hstored.sizes⟩ rfl rfl fun hway => ⟨[], (List.append_nil _).symm, ?_⟩⟩
    rw [List.append_nil]
    exact hway.packed hstored hsame
  | packWork =>
    cases hpack : s.packer.packWork with
    | error e =>
      obtain rfl := packUnits_fault hpack
      exact .inr (by simp only [fillStep, hpack])
    | ok q =>
      obtain ⟨hq, hsame, -⟩ := FillPacker.packUnits_spec h.stored hpack
      refine .inl ⟨_, by simp only [fillStep, hpack]; rfl,
        h.sends hq hsame.bufferSize hsame.location fun hway => ⟨[], ?_, ?_⟩⟩
      · rw [hsame.before, hsame.sending, List.append_nil]
      · rw [List.append_nil]
        exact hway.packed h.stored hsame
  | stuffMessage size =>
    cases hpack : s.packer.packWork with
    | error e =>
      obtain rfl := packUnits_fault hpack
      exact .inr (by simp only [fillStep, FillPacker.stuffMessage, hpack])
    | ok q =>
      obtain ⟨hq, hsame, -⟩ := FillPacker.packUnits_spec h.stored hpack
      have hstart := hq.startStore
      have hsize : q.startStore.bufferSize = s.packer.bufferSize := by
        rw [← hsame.bufferSize, FillPacker.startStore]
        split <;> rfl
      have hloc : q.startStore.location = s.packer.location := by
        rw [← hsame.location, FillPacker.startStore]
        split <;> rfl
      have hsplit : q.before ++ q.sending = s.packer.before ++ s.packer.sending := by
        rw [hsame.before, hsame.sending]
      by_cases hcut : q.startStore.bytesToSend = 0 ∨ size < minFill
      · refine .inl ⟨{ s with packer := q.startStore, flight := s.flight ++ [] }, ?_,
          h.sends hstart hsize hloc fun hway => ?_⟩
        · simp only [fillStep, FillPacker.stuffMessage, hpack, if_pos hcut]
        · obtain ⟨M, hM, -, hway⟩ := (hway.packed h.stored hsame).startStore hq
          rw [List.append_nil]
          exact ⟨M, hsplit ▸ hM, hway⟩
      · refine .inl ⟨{ s with
            packer := (q.startStore.cut sendId size).1
            flight := s.flight ++ [(q.startStore.cut sendId size).2] }, ?_,
          h.sends (hstart.cut size) hsize hloc fun hway => ?_⟩
        · simp only [fillStep, FillPacker.stuffMessage, hpack, if_neg hcut]
        · obtain ⟨hbytes, hroom⟩ := not_or.mp hcut
          obtain ⟨M, hM, -, hway⟩ := (hway.packed h.stored hsame).startStore hq
          refine ⟨M, hsplit ▸ hM, hway.cut hstart ?_ hbytes (Nat.le_of_not_lt hroom)⟩
          rw [hsize, h.packerSize]
          exact hn
  | despatch present => exact .inl (h.despatch hn hroom)

/-- What the invariant says about the sets. -/
theorem Inv.reassembles (hn : n < 2 ^ 31) (h : Inv sendId n s) : Reassembles s := by
  obtain ⟨done, L, sync, hlink⟩ := h.linked
  have hpacked : s.packer.packed = done ++ L ++ s.packer.filling := by
    rw [FillPacker.packed, ← hlink.split]
  have hgood : ∀ a ∈ L, a.Good := (h.stored.good (h.packerSize ▸ hn) fun a ha =>
    hpacked ▸ List.mem_append_left _ (List.mem_append_right _ ha)).1
  obtain ⟨C, ⟨D, hCD⟩, hcur, -⟩ := hlink.way.store h.stored
  constructor
  case whole =>
    rw [hlink.passed, hlink.arrived, hpacked, List.append_assoc, wholeSets_append, ← hCD,
      List.append_assoc, drain_eq_wholeSets (fun a ha => hgood a (hCD ▸ List.mem_append_left _ ha))
        hcur]
  case handed => exact h.handed
  case noReport => exact h.reports
  case fresh =>
    intro hnone
    rw [AmorphReStore.getFillLevel, hlink.stor, hnone, List.drop_nil]
    rfl
  case all =>
    intro hflight hbytes hfill
    have hway := hlink.way
    rw [hflight] at hway
    obtain ⟨rfl, hcur, -⟩ := hway.none hbytes
    rw [hlink.passed, hcur, setFraming.drain_nil, hpacked, h.stored.filling_eq_nil.mpr hfill]
    simp only [List.append_nil]

theorem inv_start (location : UInt8) (n : ℕ) : Inv sendId n (start code location n) := by
  refine ⟨⟨fun _ => rfl, fun _ => Nat.zero_le _, rfl, fun h => absurd rfl h, nofun, nofun⟩, rfl, rfl,
    Nat.le_refl _, Nat.two_pow_pos 32, .inl rfl, rfl, rfl, [], [], 0, rfl,
    ⟨rfl, fun _ => ⟨rfl, rfl, rfl⟩, fun h => absurd rfl h⟩, ?_, ?_, rfl, Nat.le_refl _, rfl⟩
  · exact (congrArg Prod.fst setFraming.drain_nil).symm
  · exact (congrArg Prod.snd setFraming.drain_nil).symm

/-- Bulk transport reassembles every message, in every run in which the tags, if there are
any, have room; the run stops only at an entry that has become invalid while its data
waited. -/
theorem reassembles_of_run (code : ChannelCode) (sendId : Bool) (location : UInt8) (n : ℕ)
    (hn : n < 2 ^ 31) (events : List (FillEvent code))
    (hroom : Allowed (fillStep sendId) (TagRoom sendId) (start code location n) events) :
    (∀ s, exec (fillStep sendId) (start code location n) events = .ok s → Reassembles s) ∧
      ∀ e, exec (fillStep sendId) (start code location n) events = .error e →
        e = .entryInvalid := by
  have hstep : ∀ (s : Transport code) e t, Inv sendId n s → TagRoom sendId s e →
      fillStep sendId s e = .ok t → Inv sendId n t := by
    intro s e t h hok ht
    obtain ⟨t', ht', hinv⟩ | hfault := h.step hn hok
    · exact Except.ok.inj (ht'.symm.trans ht) ▸ hinv
    · rw [hfault] at ht
      cases ht
  constructor
  · intro s hexec
    exact (exec_invariant hstep (inv_start location n) hroom hexec).reassembles hn
  · intro e hexec
    refine exec_fault (E := fun e => e = .entryInvalid) hstep (fun s a e h hok he => ?_)
      (inv_start location n) hroom hexec
    obtain ⟨t', ht', -⟩ | hfault := h.step hn hok
    · rw [ht'] at he
      cases he
    · exact (Except.error.inj (hfault.symm.trans he)).symm

/-- Channels with messages of three bytes only: a type and an entry. -/
def shortCode : ChannelCode where
  Packs _ d := d.length = 3
  unPackData _ _ _ := 3
  header _ _ h := Nat.le_of_eq h.symm
  takes _ _ _ h := h.symm

/-- A command to remove the saved data of entry 2, on channel 5. -/
def shortUnit : PackUnit shortCode where
  set := ⟨⟨1, 5⟩, [3, 0, 2]⟩
  valid := true
  packs := rfl

/-- Whether the tag of the next piece has room. -/
def tagRoomTest (s : Transport code) : FillEvent code → Bool
  | .despatch _ =>
    match s.flight with
    | [] => true
    | c :: _ => c.reach + 5 ≤ s.unpacker.bufferSize
  | _ => true

theorem tagRoom_of_test (s : Transport code) (e : FillEvent code) (h : tagRoomTest s e = true) :
    TagRoom true s e := by
  cases e with
  | despatch present =>
    intro _ c cs hflight
    simp only [tagRoomTest, hflight, decide_eq_true_eq] at h
    exact h
  | notification | packWork | stuffMessage => trivial

/-- Four sets go out in two pieces, the first of which ends in the third set. -/
def fourSets : List (FillEvent shortCode) :=
  List.replicate 4 (.notification shortUnit) ++
    [.stuffMessage 32, .despatch fun _ => true, .stuffMessage 20, .stuffMessage 900,
      .despatch fun _ => true]

theorem reassembles_four_sets :
    ∃ s, exec (fillStep true) (start shortCode 1 256) fourSets = .ok s ∧ Reassembles s ∧
      s.unpacker.handed = List.replicate 4 shortUnit.set := by
  obtain ⟨s, hs, htest⟩ := exists_of_endsIn (fillStep true) (start shortCode 1 256) fourSets
    (fun s => s.unpacker.handed = List.replicate 4 shortUnit.set) (by decide +kernel)
  have hall := reassembles_of_run shortCode true 1 256 (by decide) fourSets
    (allowed_of_checks tagRoom_of_test (by decide +kernel))
  exact ⟨s, hs, hall.1 s hs, of_decide_eq_true htest⟩

/-- A store of 260 bytes is filled by 26 sets and sent in one piece. -/
theorem not_reassembles_full_store :
    ¬ ∀ (code : ChannelCode) (sendId : Bool) (location : UInt8) (n : ℕ), n < 2 ^ 31 →
      ∀ (events : List (FillEvent code)) (s : Transport code),
        exec (fillStep sendId) (start code location n) events = .ok s → Reassembles s := by
  intro hall
  obtain ⟨s, hs, htest⟩ := exists_of_endsIn (fillStep true) (start shortCode 1 260)
    (List.replicate 26 (.notification shortUnit) ++
      [.stuffMessage 1000, .despatch fun _ => true])
    (fun s => s.unpacker.reports = [.bufferTooSmall]) (by decide +kernel)
  have hnone := (hall shortCode true 1 260 (by decide) _ s hs).noReport
  rw [of_decide_eq_true htest] at hnone
  cases hnone

/-- The condition is exact: without it the receiver complains, though the piece fits. -/
theorem reports_of_not_tagRoom {present : UInt16 → Bool} (hn : n < 2 ^ 31)
    (h : Inv true n s) (hroom : ¬ TagRoom true s (.despatch present))
    (ht : fillStep true s (.despatch present) = .ok t) :
    .bufferTooSmall ∈ t.unpacker.reports := by
  have hcase : ∃ c cs, s.flight = c :: cs ∧ s.unpacker.bufferSize < c.reach + tagSize true := by
    simp only [TagRoom, true_implies, not_forall, Nat.not_le] at hroom
    obtain ⟨c, cs, hflight, hlt⟩ := hroom
    exact ⟨c, cs, hflight, hlt⟩
  obtain ⟨c, cs, hflight, hlt⟩ := hcase
  obtain ⟨data, -, -, -, r, -, hbytes, hlevel, -, hrun, -⟩ :=
    h.received present hn hflight
  have hlen : c.bytes.length = tagSize true + data.length := by
    rw [hbytes, List.length_append, length_tag]
  have hcheck : checkRoom s.unpacker c.bytes.length =
      { s.unpacker with reports := s.unpacker.reports ++ [.bufferTooSmall] } := by
    rw [checkRoom, if_pos (by omega)]
  simp only [fillStep, hflight, hrun, Except.ok.injEq] at ht
  subst ht
  simp only [FillUnpacker.meets, checkTag, if_true, hcheck, List.append_assoc]
  exact List.mem_append_right _ List.mem_cons_self

end Dueca.Fill
