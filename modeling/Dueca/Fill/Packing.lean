import Dueca.Fill.Model

/-!
# Sets in a store

The bytes of a set are a framing: the id, the size and the data are recognised again at
the front of a store. The packer appends the bytes of whole sets to the store it fills,
and what does not fit leaves no trace in it but that the store is choked.
-/

namespace Dueca.Fill

open Dueca.Lib

variable {code : ChannelCode} {a : PackedSet} {as bs : List PackedSet} {x rest : List UInt8}

/-! ### The bytes of a set -/

/-- The bytes of a set: channel id, size, data. -/
def PackedSet.encode (a : PackedSet) : List UInt8 :=
  a.channel.bytes ++ bigEndian 4 a.data.length ++ a.data

@[simp] theorem GlobalId.length_bytes (c : GlobalId) : c.bytes.length = 3 := by
  simp only [GlobalId.bytes, List.length_cons, length_bigEndian]

theorem GlobalId.ofBytes_bytes (c : GlobalId) : GlobalId.ofBytes c.bytes = c := by
  have hnat : ofBigEndian (bigEndian 2 c.object.toNat) = c.object.toNat :=
    ofBigEndian_bigEndian c.object.toNat_lt
  simp only [GlobalId.ofBytes, GlobalId.bytes, List.headD_cons, List.tail_cons, hnat,
    UInt16.ofNat_toNat]

@[simp] theorem PackedSet.length_encode (a : PackedSet) : a.encode.length = a.size := by
  simp only [PackedSet.encode, PackedSet.size, List.length_append, GlobalId.length_bytes,
    length_bigEndian]

/-- The size that stands at the front of a stream. -/
def frontSize (x : List UInt8) : ℕ := ofBigEndian ((x.drop 3).take 4)

/-- The set at the front of a stream, when all of it is there. -/
def nextSet (x : List UInt8) : Option (PackedSet × List UInt8) :=
  if 3 + 4 + 1 < x.length ∧ 7 + frontSize x ≤ x.length then
    some (⟨.ofBytes (x.take 3), (x.drop 7).take (frontSize x)⟩, x.drop (7 + frontSize x))
  else none

/-- A set that can be sent: some message of a channel, of less than 2 ^ 31 bytes. -/
def PackedSet.Good (a : PackedSet) : Prop := 3 ≤ a.data.length ∧ a.data.length < 2 ^ 31

theorem frontSize_encode (ha : a.Good) (rest : List UInt8) :
    frontSize (a.encode ++ rest) = a.data.length := by
  have hfit : a.data.length < 256 ^ 4 := by
    have := ha.2
    omega
  have hdrop : (a.encode ++ rest).drop 3 = bigEndian 4 a.data.length ++ (a.data ++ rest) := by
    simp only [PackedSet.encode, List.append_assoc]
    exact List.drop_left' a.channel.length_bytes
  rw [frontSize, hdrop, List.take_left' (length_bigEndian 4 _), ofBigEndian_bigEndian hfit]

theorem nextSet_encode (ha : a.Good) (rest : List UInt8) :
    nextSet (a.encode ++ rest) = some (a, rest) := by
  have hlen : (a.encode ++ rest).length = 7 + a.data.length + rest.length := by
    rw [List.length_append, PackedSet.length_encode, PackedSet.size]
  have hid : (a.encode ++ rest).take 3 = a.channel.bytes := by
    simp only [PackedSet.encode, List.append_assoc]
    exact List.take_left' a.channel.length_bytes
  have hdata : (a.encode ++ rest).drop 7 = a.data ++ rest := by
    have hhead : (a.channel.bytes ++ bigEndian 4 a.data.length).length = 7 := by
      simp only [List.length_append, GlobalId.length_bytes, length_bigEndian]
    simp only [PackedSet.encode, List.append_assoc]
    rw [← List.append_assoc]
    exact List.drop_left' hhead
  have hrest : (a.encode ++ rest).drop (7 + a.data.length) = rest := by
    rw [← List.drop_drop, hdata]
    exact List.drop_left' rfl
  have hcond : 3 + 4 + 1 < (a.encode ++ rest).length ∧
      7 + a.data.length ≤ (a.encode ++ rest).length := by
    have := ha.1
    omega
  rw [nextSet, frontSize_encode ha, if_pos hcond, hid, hdata, hrest, GlobalId.ofBytes_bytes,
    List.take_left' rfl]

theorem nextSet_append (y : List UInt8) (h : nextSet x = some (a, rest)) :
    nextSet (x ++ y) = some (a, rest ++ y) := by
  unfold nextSet at h
  split at h
  case isFalse => cases h
  case isTrue hcond =>
    obtain ⟨rfl, rfl⟩ : _ ∧ _ := by simpa using h
    have hfront : frontSize (x ++ y) = frontSize x := by
      simp only [frontSize]
      rw [List.drop_append_of_le_length (by omega), List.take_append_of_le_length]
      simp only [List.length_drop]
      omega
    have hlong : 3 + 4 + 1 < (x ++ y).length ∧ 7 + frontSize x ≤ (x ++ y).length := by
      rw [List.length_append]
      omega
    have hbody : frontSize x ≤ (x.drop 7).length := by
      rw [List.length_drop]
      omega
    rw [nextSet, hfront, if_pos hlong, List.take_append_of_le_length (by omega),
      List.drop_append_of_le_length (by omega), List.take_append_of_le_length hbody,
      List.drop_append_of_le_length hcond.2]

theorem nextSet_length (h : nextSet x = some (a, rest)) : rest.length < x.length := by
  unfold nextSet at h
  split at h
  case isFalse => cases h
  case isTrue hcond =>
    obtain ⟨-, rfl⟩ : _ ∧ _ := by simpa using h
    rw [List.length_drop]
    omega

/-- The sets in a store are framed. -/
def setFraming : Framing PackedSet UInt8 where
  good := PackedSet.Good
  encode := PackedSet.encode
  next := nextSet
  next_encode _ rest ha := nextSet_encode ha rest
  next_append _ y _ _ h := nextSet_append y h
  next_length _ _ _ h := nextSet_length h
  next_nil := rfl

/-- The bytes of some sets. -/
abbrev bytesOf (as : List PackedSet) : List UInt8 := setFraming.encodeAll as

theorem bytesOf_append (as bs : List PackedSet) :
    bytesOf (as ++ bs) = bytesOf as ++ bytesOf bs := setFraming.encodeAll_append

theorem length_bytesOf (as : List PackedSet) : (bytesOf as).length = sizeAll as := by
  induction as with
  | nil => rfl
  | cons a as ih =>
    simp only [bytesOf, Framing.encodeAll_cons, List.length_append] at ih ⊢
    rw [ih]
    exact congrArg (· + _) a.length_encode

theorem sizeAll_append (as bs : List PackedSet) : sizeAll (as ++ bs) = sizeAll as + sizeAll bs := by
  simp only [sizeAll, List.map_append, List.sum_append]

/-! ### Packing -/

variable {s t : AmorphStore} {u : PackUnit code} {p q : FillPacker code} {n : ℕ}

theorem packData_eq_ok {bs : List UInt8} :
    s.packData bs = .ok t ↔ s.choked = false ∧ s.getSize + bs.length ≤ s.capacity ∧
      t = { s with stor := s.stor ++ bs } := by
  unfold AmorphStore.packData
  split
  · rename_i h
    simp only [reduceCtorEq, false_iff]
    rintro ⟨hc, hs, -⟩
    simp only [hc, Bool.false_eq_true, false_or] at h
    omega
  · rename_i h
    simp only [not_or, Nat.not_lt, Bool.not_eq_true] at h
    simp only [Except.ok.injEq, h.1, true_and]
    exact ⟨fun ht => ⟨h.2, ht.symm⟩, fun ht => ht.2.symm⟩

theorem packData_eq_error {bs : List UInt8} {f : PackFault} (h : s.packData bs = .error (f, t)) :
    f = .boundary ∧ t = { s with choked := true } := by
  unfold AmorphStore.packData at h
  split at h
  · obtain ⟨rfl, rfl⟩ : PackFault.boundary = f ∧ _ = t := by simpa using h
    exact ⟨rfl, rfl⟩
  · cases h

/-- A set that is packed is appended to the store, and fits. -/
theorem packOneSet_eq_ok (h : packOneSet s u = .ok t) :
    s.choked = false ∧ s.getSize + u.set.size ≤ s.capacity ∧
      t = { s with stor := s.stor ++ u.set.encode, markPoint := 0 } := by
  simp only [packOneSet, bind_eq_ok, pure_eq_ok] at h
  obtain ⟨s₁, h₁, s₂, h₂, s₃, h₃, rfl⟩ := h
  obtain ⟨hc, -, rfl⟩ := packData_eq_ok.mp h₁
  unfold AmorphStore.startBigMark at h₂
  split at h₂
  · cases h₂
  rename_i s₁' h₁'
  obtain ⟨-, -, rfl⟩ := packData_eq_ok.mp h₁'
  cases h₂
  unfold PackUnit.packData at h₃
  split at h₃
  case isFalse => cases h₃
  obtain ⟨-, hsize, rfl⟩ := packData_eq_ok.mp h₃
  simp only [AmorphStore.getSize, List.length_append, GlobalId.length_bytes, List.length_cons,
    List.length_nil] at hsize
  refine ⟨hc, ?_, ?_⟩
  · simp only [AmorphStore.getSize, PackedSet.size]
    omega
  · -- the four bytes left open are those in which the size is written
    simp only [AmorphStore.endBigMark, AmorphStore.getSize, PackedSet.encode,
      AmorphStore.mk.injEq, and_self, and_true]
    have hhead : (s.stor ++ u.set.channel.bytes).length = s.stor.length + 3 := by
      rw [List.length_append, GlobalId.length_bytes]
    have hmark : (s.stor ++ u.set.channel.bytes ++ [0, 0, 0, 0] ++ u.set.data).length
        - (s.stor ++ u.set.channel.bytes).length - 4 = u.set.data.length := by
      simp only [List.length_append, List.length_cons, List.length_nil]
      omega
    have htail : (s.stor ++ u.set.channel.bytes ++ [0, 0, 0, 0]).length =
        (s.stor ++ u.set.channel.bytes).length + 4 := by
      rw [List.length_append]
      rfl
    rw [hmark, List.append_assoc _ [0, 0, 0, 0], List.take_left' rfl,
      ← List.append_assoc _ [0, 0, 0, 0], List.drop_left' htail]
    simp only [List.append_assoc]

/-- What does not fit leaves the bytes of the store in place. -/
theorem packOneSet_boundary (h : packOneSet s u = .error (.boundary, t)) :
    (t.setSize s.getSize).stor = s.stor ∧ t.capacity = s.capacity ∧ t.choked = true := by
  have hkept : ∀ bs : List UInt8, (s.stor ++ bs).take s.stor.length = s.stor :=
    fun bs => List.take_left' rfl
  unfold packOneSet at h
  cases h₁ : s.packData u.set.channel.bytes with
  | error e =>
    rw [h₁] at h
    obtain ⟨-, rfl⟩ := packData_eq_error (h₁.trans (congrArg _ (Except.error.inj h)))
    exact ⟨List.take_length, rfl, rfl⟩
  | ok s₁ =>
    obtain ⟨-, -, rfl⟩ := packData_eq_ok.mp h₁
    rw [h₁] at h
    simp only [bind, Except.bind, AmorphStore.startBigMark] at h
    split at h
    case h_1 e he =>
      cases h
      split at he
      case h_1 e' he' =>
        cases he
        obtain ⟨-, rfl⟩ := packData_eq_error he'
        exact ⟨hkept _, rfl, rfl⟩
      case h_2 => cases he
    case h_2 s₂ hs₂ =>
      split at hs₂
      case h_1 => cases hs₂
      case h_2 s₁' hs₁' =>
        obtain ⟨-, -, rfl⟩ := packData_eq_ok.mp hs₁'
        cases hs₂
        simp only [PackUnit.packData] at h
        split at h
        case h_1 e he =>
          cases h
          split at he
          case isTrue =>
            obtain ⟨-, rfl⟩ := packData_eq_error he
            refine ⟨?_, rfl, rfl⟩
            simp only [AmorphStore.setSize, AmorphStore.getSize, List.append_assoc]
            exact hkept _
          case isFalse => cases he
        case h_2 => cases h

/-- The stores of the packer. The one being filled holds the sets packed since it was
taken, the one being sent those of the store before it. -/
structure FillPacker.Stored (p : FillPacker code) : Prop where
  capacity : ∀ b, (p.store b).capacity = p.bufferSize
  within : ∀ b, (p.store b).getSize ≤ p.bufferSize
  fill : p.fill.stor = bytesOf p.filling
  send : p.bytesToSend ≠ 0 → p.storeToSend ≠ p.storeToFill ∧ p.send.stor = bytesOf p.sending ∧
    p.indexToSend + p.bytesToSend = p.send.getSize
  codes : ∀ a ∈ p.packed, code.Packs a.channel a.data
  sizes : ∀ a ∈ p.packed, a.size ≤ p.bufferSize

/-- What packing leaves alone. -/
structure FillPacker.SameSending (p q : FillPacker code) : Prop where
  location : q.location = p.location
  bufferSize : q.bufferSize = p.bufferSize
  storeToFill : q.storeToFill = p.storeToFill
  storeToSend : q.storeToSend = p.storeToSend
  bytesToSend : q.bytesToSend = p.bytesToSend
  indexToSend : q.indexToSend = p.indexToSend
  pkgCount : q.pkgCount = p.pkgCount
  before : q.before = p.before
  sending : q.sending = p.sending
  sync : q.sync = p.sync
  store : ∀ b, b ≠ p.storeToFill → q.store b = p.store b

namespace FillPacker

theorem SameSending.trans {r : FillPacker code} (h : p.SameSending q) (h' : q.SameSending r) :
    p.SameSending r where
  location := h'.location.trans h.location
  bufferSize := h'.bufferSize.trans h.bufferSize
  storeToFill := h'.storeToFill.trans h.storeToFill
  storeToSend := h'.storeToSend.trans h.storeToSend
  bytesToSend := h'.bytesToSend.trans h.bytesToSend
  indexToSend := h'.indexToSend.trans h.indexToSend
  pkgCount := h'.pkgCount.trans h.pkgCount
  before := h'.before.trans h.before
  sending := h'.sending.trans h.sending
  sync := h'.sync.trans h.sync
  store b hb := (h'.store b fun hq => hb (hq.trans h.storeToFill)).trans (h.store b hb)

/-- While something is being sent, its store is not the one that is filled. -/
theorem SameSending.send (h : p.SameSending q) (hne : p.storeToSend ≠ p.storeToFill) :
    q.send = p.send := by
  rw [FillPacker.send, h.storeToSend, h.store _ hne, FillPacker.send]

/-- Changing the store that is filled, and what is recorded of it. -/
theorem sameSending_setFill (s : AmorphStore) (us : List (PackUnit code))
    (large filling : List PackedSet) :
    p.SameSending { p.setFill s with
      workQueue := us, tooLarge := large, filling := filling } := by
  refine ⟨rfl, rfl, rfl, rfl, rfl, rfl, rfl, rfl, rfl, rfl, fun b hb => ?_⟩
  exact Function.update_of_ne hb _ _

/-- A store that holds the given sets takes the place of the one being filled. -/
theorem Stored.setFill (hp : p.Stored) {filling large : List PackedSet}
    {us : List (PackUnit code)} (hcap : s.capacity = p.bufferSize) (hsize : s.getSize ≤ p.bufferSize)
    (hstor : s.stor = bytesOf filling)
    (hcodes : ∀ a ∈ filling, code.Packs a.channel a.data)
    (hsizes : ∀ a ∈ filling, a.size ≤ p.bufferSize) :
    FillPacker.Stored { p.setFill s with
      workQueue := us, tooLarge := large, filling := filling } := by
  have hmem : ∀ {P : PackedSet → Prop}, (∀ a ∈ p.packed, P a) → (∀ a ∈ filling, P a) →
      ∀ a ∈ p.before ++ p.sending ++ filling, P a := by
    intro P hall hnew a ha
    obtain hold | hfill := List.mem_append.mp ha
    · exact hall a (List.mem_append_left _ hold)
    · exact hnew a hfill
  constructor
  case capacity =>
    intro b
    by_cases hb : b = p.storeToFill
    · subst hb
      simpa [FillPacker.setFill] using hcap
    · simpa [FillPacker.setFill, Function.update_of_ne hb] using hp.capacity b
  case within =>
    intro b
    by_cases hb : b = p.storeToFill
    · subst hb
      simpa [FillPacker.setFill] using hsize
    · simpa [FillPacker.setFill, Function.update_of_ne hb] using hp.within b
  case fill => simpa [FillPacker.setFill, FillPacker.fill] using hstor
  case send =>
    intro hbytes
    obtain ⟨hne, hsend⟩ := hp.send hbytes
    refine ⟨hne, ?_⟩
    simpa [FillPacker.setFill, FillPacker.send, Function.update_of_ne hne] using hsend
  case codes => exact hmem hp.codes hcodes
  case sizes => exact hmem hp.sizes hsizes

theorem Stored.of_filling (hp : p.Stored) :
    (∀ a ∈ p.filling, code.Packs a.channel a.data) ∧ ∀ a ∈ p.filling, a.size ≤ p.bufferSize :=
  ⟨fun a ha => hp.codes a (List.mem_append_right _ ha),
    fun a ha => hp.sizes a (List.mem_append_right _ ha)⟩

/-- One more set in the store that is filled. -/
theorem Stored.packOne (hp : p.Stored) (h : packOneSet p.fill u = .ok s) :
    FillPacker.Stored { p.setFill s with filling := p.filling ++ [u.set] } := by
  obtain ⟨-, hroom, hs⟩ := packOneSet_eq_ok h
  have hcap : p.fill.capacity = p.bufferSize := hp.capacity p.storeToFill
  obtain ⟨hcodes, hsizes⟩ := hp.of_filling
  rw [hcap] at hroom
  have hnew : u.set.size ≤ p.bufferSize := by omega
  have hone : bytesOf [u.set] = u.set.encode := List.append_nil _
  apply hp.setFill
  case hcap => rw [hs, hcap]
  case hsize => simpa [hs, AmorphStore.getSize] using hroom
  case hstor =>
    rw [bytesOf_append, hone, hs, hp.fill]
  case hcodes =>
    exact List.forall_mem_append.mpr ⟨hcodes, List.forall_mem_singleton.mpr u.packs⟩
  case hsizes =>
    exact List.forall_mem_append.mpr ⟨hsizes, List.forall_mem_singleton.mpr hnew⟩

/-- The store as it was, apart from a mark that it is full. -/
theorem Stored.packFailed (hp : p.Stored) (h : packOneSet p.fill u = .error (.boundary, s))
    (us : List (PackUnit code)) (large : List PackedSet) :
    FillPacker.Stored { p.setFill (s.setSize p.fill.getSize) with
      workQueue := us, tooLarge := large, filling := p.filling } := by
  obtain ⟨hstor, hcap, -⟩ := packOneSet_boundary h
  obtain ⟨hcodes, hsizes⟩ := hp.of_filling
  refine hp.setFill (hcap.trans (hp.capacity _)) ?_ (hstor.trans hp.fill) hcodes hsizes
  rw [AmorphStore.getSize, hstor]
  exact hp.within _

/-- Packing what is waiting: sets are added to the store that is filled. -/
theorem packUnits_spec {us : List (PackUnit code)} (hp : p.Stored) (h : packUnits p us = .ok q) :
    q.Stored ∧ p.SameSending q ∧ p.filling <+: q.filling := by
  induction us generalizing p with
  | nil =>
    cases h
    refine ⟨⟨hp.capacity, hp.within, hp.fill, hp.send, hp.codes, hp.sizes⟩, ?_, List.prefix_rfl⟩
    exact ⟨rfl, rfl, rfl, rfl, rfl, rfl, rfl, rfl, rfl, rfl, fun _ _ => rfl⟩
  | cons u us ih =>
    unfold packUnits at h
    split at h
    · cases h
      refine ⟨⟨hp.capacity, hp.within, hp.fill, hp.send, hp.codes, hp.sizes⟩, ?_, List.prefix_rfl⟩
      exact ⟨rfl, rfl, rfl, rfl, rfl, rfl, rfl, rfl, rfl, rfl, fun _ _ => rfl⟩
    split at h
    · rename_i s hs
      obtain ⟨hstored, hsame, hfill⟩ := ih (hp.packOne hs) h
      exact ⟨hstored, (sameSending_setFill s p.workQueue p.tooLarge _).trans hsame,
        (List.prefix_append p.filling [u.set]).trans hfill⟩
    · rename_i s hs
      split at h
      · cases h
        exact ⟨hp.packFailed hs us _, sameSending_setFill _ us _ p.filling, List.prefix_rfl⟩
      · cases h
        exact ⟨hp.packFailed hs (u :: us) _, sameSending_setFill _ (u :: us) p.tooLarge p.filling,
          List.prefix_rfl⟩
    · cases h

/-! ### Taking the next store -/

theorem Stored.filling_eq_nil (hp : p.Stored) : p.filling = [] ↔ p.fill.getSize = 0 := by
  rw [AmorphStore.getSize, hp.fill, length_bytesOf]
  constructor
  · intro h
    rw [h]
    rfl
  · intro h
    cases hf : p.filling with
    | nil => rfl
    | cons a as =>
      rw [hf] at h
      simp only [sizeAll, List.map_cons, List.sum_cons, PackedSet.size] at h
      omega

/-- Nothing changes while something is being sent, or when nothing was packed. -/
theorem startStore_same (hp : p.Stored) (h : p.bytesToSend ≠ 0 ∨ p.filling = []) :
    p.startStore = p := by
  rw [FillPacker.startStore, if_neg]
  rintro ⟨hnone, hfill⟩
  obtain h | h := h
  · exact h hnone
  · exact hfill (hp.filling_eq_nil.mp h)

/-- Otherwise the store that was filled is sent from its start, and the other one is
filled. -/
theorem startStore_eq (hp : p.Stored) (hnone : p.bytesToSend = 0) (hfill : p.filling ≠ []) :
    p.startStore = { p with
      bytesToSend := p.fill.getSize
      indexToSend := 0
      storeToSend := p.storeToFill
      storeToFill := !p.storeToFill
      store := Function.update p.store (!p.storeToFill) (p.store (!p.storeToFill)).reUse
      before := p.before ++ p.sending
      sending := p.filling
      filling := []
      sync := 0 } := by
  rw [FillPacker.startStore, if_pos ⟨hnone, fun h => hfill (hp.filling_eq_nil.mpr h)⟩]

theorem Stored.startStore (hp : p.Stored) : p.startStore.Stored := by
  by_cases hcase : p.bytesToSend ≠ 0 ∨ p.filling = []
  · rw [startStore_same hp hcase]
    exact hp
  obtain ⟨hnone, hfill⟩ := not_or.mp hcase
  rw [startStore_eq hp (not_not.mp hnone) hfill]
  have hpacked : (p.before ++ p.sending) ++ p.filling ++ [] = p.packed := List.append_nil _
  have hother : p.storeToFill ≠ !p.storeToFill := by simp
  constructor
  case capacity =>
    intro b
    by_cases hb : b = !p.storeToFill
    · subst hb
      simpa [AmorphStore.reUse] using hp.capacity (!p.storeToFill)
    · simpa [Function.update_of_ne hb] using hp.capacity b
  case within =>
    intro b
    by_cases hb : b = !p.storeToFill
    · subst hb
      simp [AmorphStore.reUse, AmorphStore.getSize]
    · simpa [Function.update_of_ne hb] using hp.within b
  case fill => simp [FillPacker.fill, AmorphStore.reUse, bytesOf]
  case send =>
    intro _
    refine ⟨hother, ?_, ?_⟩
    · simpa [FillPacker.send, FillPacker.fill] using hp.fill
    · simp [FillPacker.send, FillPacker.fill]
  case codes => exact fun a ha => hp.codes a (hpacked ▸ ha)
  case sizes => exact fun a ha => hp.sizes a (hpacked ▸ ha)

/-- Cutting a piece off what is being sent. -/
theorem Stored.cut {sendId : Bool} (hp : p.Stored) (size : ℕ) :
    (p.cut sendId size).1.Stored := by
  refine ⟨hp.capacity, hp.within, hp.fill, fun hsome => ?_, hp.codes, hp.sizes⟩
  have hleft : p.bytesToSend - min (size - tagSize sendId) p.bytesToSend ≠ 0 := hsome
  obtain ⟨hne, hstor, hsum⟩ := hp.send (by omega)
  refine ⟨hne, hstor, ?_⟩
  show p.indexToSend + min (size - tagSize sendId) p.bytesToSend +
    (p.bytesToSend - min (size - tagSize sendId) p.bytesToSend) = p.send.getSize
  omega

end FillPacker

end Dueca.Fill
