import Dueca.Ddff.Block

/-!
# Reading a stream in Python

A `DDFFReadStream` follows the blocks of a stream and feeds their data to a streaming decoder,
about a megabyte at a time, then takes from it all objects that are complete.

The decoder is a parameter, `Unpacker`: it gives the objects that a framing recognises, and
tells how many of the bytes fed to it have been taken.
-/

namespace Dueca.Ddff

open Dueca.Lib

variable {α : Type}

/-- A streaming decoder for the values of a framing. `tell` is how many of the bytes fed it has
taken, once all that are complete have been asked for. -/
structure Unpacker (F : Framing α UInt8) where
  tell : Bytes → ℕ
  drained_le : ∀ x, x.length ≤ tell x + (F.drain x).2.length
  tell_le : ∀ x, tell x ≤ x.length

/-- A decoder for a framing that tells exactly what is behind the values that are complete. -/
def unpackerOf (F : Framing α UInt8) : Unpacker F where
  tell x := x.length - (F.drain x).2.length
  drained_le _ := by omega
  tell_le _ := Nat.sub_le _ _

/-- Strings of less than 256 bytes, as msgpack writes them. -/
def binEncode (bs : Bytes) : Bytes := 0xc4 :: UInt8.ofNat bs.length :: bs

def binNext : Bytes → Option (Bytes × Bytes)
  | tag :: n :: rest =>
    if tag = 0xc4 ∧ n.toNat ≤ rest.length then some (rest.take n.toNat, rest.drop n.toNat)
    else none
  | _ => none

theorem binNext_binEncode (bs rest : Bytes) (h : bs.length < 256) :
    binNext (binEncode bs ++ rest) = some (bs, rest) := by
  have hlen : (UInt8.ofNat bs.length).toNat = bs.length := by
    rw [UInt8.toNat_ofNat']
    omega
  simp [binEncode, binNext, hlen]

theorem binNext_eq_some {x a rest : Bytes} (h : binNext x = some (a, rest)) :
    ∃ n : UInt8, x = 0xc4 :: n :: (a ++ rest) ∧ a.length = n.toNat := by
  unfold binNext at h
  split at h
  · split at h
    · rename_i tag n y hn
      obtain ⟨rfl, rfl⟩ := Prod.ext_iff.mp (Option.some.inj h)
      exact ⟨n, by rw [hn.1, List.take_append_drop], List.length_take_of_le hn.2⟩
    · cases h
  · cases h

theorem binNext_append (x y a rest : Bytes) (h : binNext x = some (a, rest)) :
    binNext (x ++ y) = some (a, rest ++ y) := by
  obtain ⟨n, rfl, hn⟩ := binNext_eq_some h
  simp [binNext, ← hn]

theorem binNext_length (x a rest : Bytes) (h : binNext x = some (a, rest)) :
    rest.length < x.length := by
  obtain ⟨n, rfl, -⟩ := binNext_eq_some h
  simp only [List.length_cons, List.length_append]
  omega

theorem binNext_nil : binNext [] = none := rfl

/-- The framing that they make. -/
def binFraming : Framing Bytes UInt8 where
  good bs := bs.length < 256
  encode := binEncode
  next := binNext
  next_encode := binNext_binEncode
  next_append := binNext_append
  next_length := binNext_length
  next_nil := binNext_nil

/-- `maxobjectsize`. It is doubled when the decoder runs out of data, but the iteration over a
decoder just stops then. -/
def maxobjectsize : ℕ := 1024 * 1024

/-- The values of the link that mark the last block. -/
def isLastMark (nextOffset : ℤ) : Prop := nextOffset = 2 ^ 63 - 1 ∨ nextOffset = -1

instance (x : ℤ) : Decidable (isLastMark x) := inferInstanceAs (Decidable (_ ∨ _))

/-- A reader. Of the bytes fed to the decoder, `rest` are the ones behind the objects it has
given, and `told` is what it tells. -/
structure ReadStream (α : Type) where
  block : Option DDFFBlock
  loaded : ℤ
  fed : Bytes
  rest : Bytes
  told : ℕ
  unpacked : List α

/-- A reader that begins at a block. -/
def ReadStream.start (block : DDFFBlock) : ReadStream α where
  block := some block
  loaded := block.blockFill
  fed := []
  rest := []
  told := 0
  unpacked := []

section Reader

variable {F : Framing α UInt8} (U : Unpacker F) (crc : Bytes → UInt16) (file : Bytes)

/-- `_topup`: feed blocks until enough is loaded. -/
def ReadStream.topup : ℕ → Bool → ReadStream α → Except ReadFault (Bool × ReadStream α)
  | 0, _, _ => .error .fuel
  | n + 1, topped, r =>
    match r.block with
    | none => .ok (topped, r)
    | some b =>
      if r.loaded - r.told < maxobjectsize then
        let r := { r with fed := r.fed ++ b.tail, rest := r.rest ++ b.tail }
        if isLastMark b.nextOffset then .ok (true, { r with block := none })
        else if b.nextOffset < 0 then .error .negativeSeek
        else do
          let (next, _) ← DDFFBlock.read crc file b.nextOffset.toNat
          topup n true { r with
            block := some next
            loaded := r.loaded + (next.blockFill - controlBlockSize) }
      else .ok (topped, r)

/-- Take all complete objects from the decoder. -/
def ReadStream.unpack (r : ReadStream α) : ReadStream α :=
  { r with
    unpacked := r.unpacked ++ (F.drain r.rest).1
    rest := (F.drain r.rest).2
    told := U.tell r.fed }

/-- `__next__`: the next object, or none at the end of the iteration. -/
def ReadStream.next (fuel : ℕ) : ℕ → ReadStream α → Except ReadFault (Option α × ReadStream α)
  | 0, _ => .error .fuel
  | n + 1, r =>
    match r.unpacked with
    | a :: as => .ok (some a, { r with unpacked := as })
    | [] => do
      let (topped, r) ← r.topup crc file fuel false
      if topped then next fuel n (r.unpack U) else return (none, r)

/-- Iterate until the end. -/
def readAll (fuel : ℕ) : ℕ → ReadStream α → Except ReadFault (List α)
  | 0, _ => .error .fuel
  | n + 1, r => do
    match ← r.next U crc file fuel fuel with
    | (none, _) => return []
    | (some a, r) =>
      let as ← readAll fuel n r
      return a :: as

end Reader

/-! ### What is fed -/

/-- How many of the following blocks are fed together, when `len` bytes have been fed and `told`
of them have been taken. -/
def roundCount (told : ℕ) : ℕ → List Bytes → ℕ
  | _, [] => 0
  | len, t :: ts =>
    if controlBlockSize + len + t.length < maxobjectsize + told then
      roundCount told (len + t.length) ts + 1
    else 0

/-- The blocks that are never fed, after `x` has been fed and of the blocks `ts`. -/
def neverFed (tell : Bytes → ℕ) : ℕ → Bytes → List Bytes → List Bytes
  | 0, _, ts => ts
  | n + 1, x, ts =>
    if roundCount (tell x) x.length ts = 0 then ts
    else neverFed tell n (x ++ (ts.take (roundCount (tell x) x.length ts)).flatten)
      (ts.drop (roundCount (tell x) x.length ts))

/-- All blocks are fed: whenever the decoder has given what is complete, what it still holds
and the next block together are below the limit. -/
def Feeds (tell : Bytes → ℕ) (ts : List Bytes) : Prop := neverFed tell ts.length [] ts = []

theorem roundCount_le (told len : ℕ) (ts : List Bytes) : roundCount told len ts ≤ ts.length := by
  induction ts generalizing len with
  | nil => exact le_rfl
  | cons t ts ih =>
    unfold roundCount
    split
    · exact Nat.succ_le_succ (ih _)
    · exact Nat.zero_le _

theorem roundCount_eq_zero {told len : ℕ} {t : Bytes} {ts : List Bytes}
    (h : roundCount told len (t :: ts) = 0) :
    maxobjectsize + told ≤ controlBlockSize + len + t.length := by
  unfold roundCount at h
  split at h
  · cases h
  · omega

/-- Data below the limit is fed at once. -/
theorem feeds_of_lt (tell : Bytes → ℕ) {ts : List Bytes}
    (h : controlBlockSize + ts.flatten.length < maxobjectsize) : Feeds tell ts := by
  have hall (told len : ℕ) (us : List Bytes)
      (hus : controlBlockSize + len + us.flatten.length < maxobjectsize) :
      roundCount told len us = us.length := by
    induction us generalizing len with
    | nil => rfl
    | cons u us ih =>
      rw [List.flatten_cons, List.length_append] at hus
      rw [roundCount, if_pos (by omega), ih _ (by omega), List.length_cons]
  have hround := hall (tell []) 0 ts h
  cases ts with
  | nil => rfl
  | cons t ts =>
    rw [Feeds, List.length_cons, neverFed, List.length_nil, hround,
      if_neg (List.length_cons ▸ Nat.succ_ne_zero _), List.drop_length]
    cases ts.length with
    | zero => rfl
    | succ n => rfl

/-- The blocks that are never fed are the last ones, and the rounds end at a limit. -/
theorem exists_neverFed (tell : Bytes → ℕ) {n : ℕ} (x : Bytes) {ts : List Bytes}
    (hn : ts.length ≤ n) :
    ∃ us, ts = us ++ neverFed tell n x ts ∧
      roundCount (tell (x ++ us.flatten)) (x ++ us.flatten).length (neverFed tell n x ts) = 0 := by
  induction n generalizing x ts with
  | zero =>
    obtain rfl := List.length_eq_zero_iff.mp (Nat.le_zero.mp hn)
    exact ⟨[], rfl, rfl⟩
  | succ n ih =>
    unfold neverFed
    split
    · rename_i hzero
      exact ⟨[], rfl, by simpa using hzero⟩
    · rename_i hpos
      have hle := roundCount_le (tell x) x.length ts
      generalize roundCount (tell x) x.length ts = c at hpos hle ⊢
      have hdrop : (ts.drop c).length ≤ n := by
        rw [List.length_drop]
        omega
      obtain ⟨us, hsplit, hend⟩ := ih (x ++ (ts.take c).flatten) hdrop
      refine ⟨ts.take c ++ us, ?_, ?_⟩
      · rw [List.append_assoc, ← hsplit, List.take_append_drop]
      · rw [List.flatten_append, ← List.append_assoc]
        exact hend

/-! ### What is read -/

section Chains

variable (crc : Bytes → UInt16) (file : Bytes)

/-- The blocks of a stream that follow a block by their links, and the data in them. -/
inductive Chain : DDFFBlock → List Bytes → Prop
  | last {b : DDFFBlock} : isLastMark b.nextOffset →
    b.blockFill = b.tail.length + controlBlockSize → Chain b [b.tail]
  | link {b c : DDFFBlock} {pos behind : ℕ} {ts : List Bytes} : b.nextOffset = pos →
    ¬ isLastMark b.nextOffset → DDFFBlock.read crc file pos = .ok (c, behind) →
    b.blockFill = b.tail.length + controlBlockSize → Chain c ts → Chain b (b.tail :: ts)

variable {crc file}

theorem Chain.fill {b : DDFFBlock} {ts : List Bytes} (h : Chain crc file b ts) :
    b.blockFill = b.tail.length + controlBlockSize := by
  cases h <;> assumption

theorem Chain.cons {b : DDFFBlock} {ts : List Bytes} (h : Chain crc file b ts) :
    ∃ us, ts = b.tail :: us := by
  cases h <;> exact ⟨_, rfl⟩

/-- The reader is at the block of a chain, or past its last block; `ts` is the data it has not
fed yet. -/
def ReadStream.At (crc : Bytes → UInt16) (file : Bytes) (r : ReadStream α) (ts : List Bytes) :
    Prop :=
  (ts = [] ∧ r.block = none) ∨ ∃ b, r.block = some b ∧ Chain crc file b ts ∧
    r.loaded = controlBlockSize + r.fed.length + b.tail.length

variable {r : ReadStream α} {ts : List Bytes}

/-- Blocks are fed as many as are below the limit. -/
theorem ReadStream.At.topup (h : r.At crc file ts) {n : ℕ} (hn : ts.length < n) (topped : Bool) :
    ∃ r' : ReadStream α, r.topup crc file n topped =
        .ok (topped || decide (roundCount r.told r.fed.length ts ≠ 0), r') ∧
      r'.At crc file (ts.drop (roundCount r.told r.fed.length ts)) ∧
      r'.fed = r.fed ++ (ts.take (roundCount r.told r.fed.length ts)).flatten ∧
      r'.rest = r.rest ++ (ts.take (roundCount r.told r.fed.length ts)).flatten ∧
      r'.told = r.told ∧ r'.unpacked = r.unpacked := by
  induction ts generalizing n r topped with
  | nil =>
    obtain ⟨n, rfl⟩ := Nat.exists_eq_add_one_of_ne_zero (Nat.ne_of_gt hn)
    obtain ⟨-, hblock⟩ | ⟨b, -, hchain, -⟩ := h
    · refine ⟨r, ?_, .inl ⟨rfl, hblock⟩, ?_, ?_, rfl, rfl⟩
      · rw [ReadStream.topup, hblock]
        simp [roundCount]
      · simp [roundCount]
      · simp [roundCount]
    · obtain ⟨us, hus⟩ := hchain.cons
      cases hus
  | cons t ts ih =>
    obtain ⟨n, rfl⟩ := Nat.exists_eq_add_one_of_ne_zero (Nat.ne_of_gt (Nat.zero_lt_of_lt hn))
    obtain ⟨hnil, -⟩ | ⟨b, hblock, hchain, hloaded⟩ := h
    · cases hnil
    obtain ⟨us, hus⟩ := hchain.cons
    obtain ⟨rfl, rfl⟩ := List.cons.inj hus
    by_cases hroom : controlBlockSize + r.fed.length + b.tail.length < maxobjectsize + r.told
    · have hcount : roundCount r.told r.fed.length (b.tail :: ts) =
          roundCount r.told (r.fed ++ b.tail).length ts + 1 := by
        rw [List.length_append]
        exact if_pos hroom
      have hlimit : r.loaded - r.told < maxobjectsize := by omega
      rw [hcount]
      cases hchain with
      | last hmark hfill =>
        refine ⟨{ r with fed := r.fed ++ b.tail, rest := r.rest ++ b.tail, block := none },
          ?_, .inl ⟨rfl, rfl⟩, by simp, by simp, rfl, rfl⟩
        rw [ReadStream.topup, hblock]
        simp [hlimit, hmark]
      | @link _ c pos behind _ hnext hmark hread hfill hchain =>
        have hcfill := hchain.fill
        have hc : ({ r with
            fed := r.fed ++ b.tail
            rest := r.rest ++ b.tail
            block := some c
            loaded := r.loaded + (c.blockFill - controlBlockSize) } : ReadStream α).At
              crc file ts := by
          refine .inr ⟨c, rfl, hchain, ?_⟩
          simp only [hcfill, hloaded, List.length_append]
          push_cast
          ring
        obtain ⟨r', hr', hat, hfed, hrest, htold, hunpacked⟩ :=
          ih hc (Nat.lt_of_succ_lt_succ hn) true
        refine ⟨r', ?_, hat, ?_, ?_, htold, hunpacked⟩
        · have hpos : ¬ b.nextOffset < 0 := by omega
          rw [ReadStream.topup, hblock]
          simp only [hlimit, if_true, hmark, hpos, if_false]
          rw [hnext, Int.toNat_natCast, hread]
          refine hr'.trans ?_
          simp
        · simp only [hfed, List.take_succ_cons, List.flatten_cons, List.append_assoc]
        · simp only [hrest, List.take_succ_cons, List.flatten_cons, List.append_assoc]
    · have hzero : roundCount r.told r.fed.length (b.tail :: ts) = 0 := if_neg hroom
      rw [hzero]
      refine ⟨r, ?_, .inr ⟨b, hblock, hchain, hloaded⟩, by simp, by simp, rfl, rfl⟩
      rw [ReadStream.topup, hblock]
      have hnot : ¬ r.loaded - r.told < maxobjectsize := by omega
      simp [hnot]

variable {F : Framing α UInt8} (U : Unpacker F)

/-- The reader has taken all complete objects from the decoder. -/
structure ReadStream.Ready (crc : Bytes → UInt16) (file : Bytes) (r : ReadStream α)
    (ts : List Bytes) : Prop where
  at_ : r.At crc file ts
  rest : r.rest = (F.drain r.fed).2
  told : r.told = U.tell r.fed

variable {U}

/-- One round: feed blocks, and take what is complete. -/
theorem ReadStream.Ready.round (h : r.Ready U crc file ts) {fuel : ℕ} (hfuel : ts.length < fuel) :
    ∃ r₁ : ReadStream α, r.topup crc file fuel false =
        .ok (decide (roundCount (U.tell r.fed) r.fed.length ts ≠ 0), r₁) ∧
      (r₁.unpack U).Ready U crc file (ts.drop (roundCount (U.tell r.fed) r.fed.length ts)) ∧
      r₁.fed = r.fed ++ (ts.take (roundCount (U.tell r.fed) r.fed.length ts)).flatten ∧
      r₁.rest = r.rest ++ (ts.take (roundCount (U.tell r.fed) r.fed.length ts)).flatten ∧
      r₁.unpacked = r.unpacked := by
  obtain ⟨r₁, htopup, hat, hfed, hrest, -, hunpacked⟩ := h.at_.topup hfuel false
  rw [h.told] at htopup hat hfed hrest
  refine ⟨r₁, htopup, ⟨hat, ?_, rfl⟩, hfed, hrest, hunpacked⟩
  change (F.drain r₁.rest).2 = (F.drain r₁.fed).2
  rw [hrest, hfed, h.rest, F.drain_append r.fed]

/-- `__next__` needs no more fuel than there are blocks. -/
theorem ReadStream.Ready.next_fuel (h : r.Ready U crc file ts) {fuel n m : ℕ}
    (hfuel : ts.length < fuel) (hn : ts.length < n) (hm : ts.length < m) :
    r.next U crc file fuel n = r.next U crc file fuel m := by
  induction n generalizing r ts m with
  | zero => exact absurd hn (Nat.not_lt_zero _)
  | succ n ih =>
    obtain ⟨m, rfl⟩ := Nat.exists_eq_add_one_of_ne_zero (Nat.ne_of_gt (Nat.zero_lt_of_lt hm))
    unfold ReadStream.next
    cases hunpacked : r.unpacked with
    | cons a as => rfl
    | nil =>
      obtain ⟨r₁, htopup, hready, -⟩ := h.round hfuel
      simp only [htopup]
      have hle := roundCount_le (U.tell r.fed) r.fed.length ts
      by_cases hzero : roundCount (U.tell r.fed) r.fed.length ts = 0
      · simp only [hzero, ne_eq, not_true, decide_false]
        rfl
      · simp only [ne_eq, hzero, not_false_iff, decide_true]
        refine ih hready ?_ ?_ ?_ <;> rw [List.length_drop] <;> omega

/-- Objects that have been taken from the decoder are given first. -/
theorem readAll_unpacked {fuel : ℕ} (calls : ℕ) (hfuel : 0 < fuel) {as os : List α}
    (h : ∀ m, calls ≤ m → readAll U crc file fuel m { r with unpacked := [] } = .ok os) :
    ∀ m, calls + as.length ≤ m →
      readAll U crc file fuel m { r with unpacked := as } = .ok (as ++ os) := by
  induction as with
  | nil => exact h
  | cons a as ih =>
    intro m hm
    obtain ⟨m, rfl⟩ : ∃ k, m = k + 1 := ⟨m - 1, by simp only [List.length_cons] at hm; omega⟩
    obtain ⟨fuel, rfl⟩ := Nat.exists_eq_add_one_of_ne_zero (Nat.ne_of_gt hfuel)
    have hrest := ih m (by simp only [List.length_cons] at hm; omega)
    unfold readAll ReadStream.next
    change (readAll U crc file (fuel + 1) m { r with unpacked := as } >>= _) = _
    rw [hrest]
    rfl

/-- A round in which nothing is fed ends the iteration. -/
theorem ReadStream.Ready.readAll_stop (h : r.Ready U crc file ts) {fuel : ℕ}
    (hfuel : ts.length < fuel) (hunpacked : r.unpacked = [])
    (hzero : roundCount (U.tell r.fed) r.fed.length ts = 0) (m : ℕ) :
    readAll U crc file fuel (m + 1) r = .ok [] := by
  obtain ⟨fuel, rfl⟩ := Nat.exists_eq_add_one_of_ne_zero (Nat.ne_of_gt (Nat.zero_lt_of_lt hfuel))
  obtain ⟨r₁, htopup, -⟩ := h.round hfuel
  unfold Ddff.readAll ReadStream.next
  simp only [hunpacked, htopup, hzero, ne_eq, not_true, decide_false]
  rfl

/-- A round in which something is fed goes on with what is complete. -/
theorem ReadStream.Ready.readAll_go (h : r.Ready U crc file ts) {fuel : ℕ}
    (hfuel : ts.length < fuel) (hunpacked : r.unpacked = [])
    (hpos : roundCount (U.tell r.fed) r.fed.length ts ≠ 0) :
    ∃ r₂ : ReadStream α,
      r₂.Ready U crc file (ts.drop (roundCount (U.tell r.fed) r.fed.length ts)) ∧
      r₂.fed = r.fed ++ (ts.take (roundCount (U.tell r.fed) r.fed.length ts)).flatten ∧
      r₂.rest = (F.drain (r.rest ++
        (ts.take (roundCount (U.tell r.fed) r.fed.length ts)).flatten)).2 ∧
      r₂.unpacked = (F.drain (r.rest ++
        (ts.take (roundCount (U.tell r.fed) r.fed.length ts)).flatten)).1 ∧
      ∀ m, readAll U crc file fuel (m + 1) r = readAll U crc file fuel (m + 1) r₂ := by
  obtain ⟨fuel, rfl⟩ := Nat.exists_eq_add_one_of_ne_zero (Nat.ne_of_gt (Nat.zero_lt_of_lt hfuel))
  obtain ⟨r₁, htopup, hready, hfed, hrest, hunpacked₁⟩ := h.round hfuel
  have hle := roundCount_le (U.tell r.fed) r.fed.length ts
  refine ⟨r₁.unpack U, hready, hfed, ?_, ?_, fun m => ?_⟩
  · change (F.drain r₁.rest).2 = _
    rw [hrest]
  · change r₁.unpacked ++ (F.drain r₁.rest).1 = _
    rw [hunpacked₁, hunpacked, hrest, List.nil_append]
  · have hnext : r.next U crc file (fuel + 1) (fuel + 1) =
        (r₁.unpack U).next U crc file (fuel + 1) (fuel + 1) := by
      rw [← hready.next_fuel (n := fuel) (by rw [List.length_drop]; omega)
        (by rw [List.length_drop]; omega) (by rw [List.length_drop]; omega)]
      conv_lhs => unfold ReadStream.next
      simp only [hunpacked, htopup, ne_eq, hpos, not_false_iff, decide_true]
      rfl
    unfold Ddff.readAll
    rw [hnext]

theorem ReadStream.Ready.rest_drain (h : r.Ready U crc file ts) :
    F.drain r.rest = ([], r.rest) := by
  rw [h.rest]
  exact F.drain_none (F.next_drain _)

/-- What is read from a chain of blocks: the objects that are complete in what is fed. -/
theorem ReadStream.Ready.readAll (h : r.Ready U crc file ts) {fuel n : ℕ}
    (hfuel : ts.length < fuel) (hn : ts.length ≤ n) {us : List Bytes}
    (hus : ts = us ++ neverFed U.tell n r.fed ts) :
    ∃ calls, ∀ m, calls ≤ m → readAll U crc file fuel m r =
      .ok (r.unpacked ++ (F.drain (r.rest ++ us.flatten)).1) := by
  induction n generalizing r ts us with
  | zero =>
    obtain rfl := List.length_eq_zero_iff.mp (Nat.le_zero.mp hn)
    obtain ⟨rfl, -⟩ := List.append_eq_nil_iff.mp hus.symm
    have hempty : ({ r with unpacked := [] } : ReadStream α).Ready U crc file [] :=
      ⟨h.at_, h.rest, h.told⟩
    refine ⟨_, readAll_unpacked 1 (Nat.zero_lt_of_lt hfuel) fun m hm => ?_⟩
    obtain ⟨m, rfl⟩ := Nat.exists_eq_add_one_of_ne_zero (Nat.ne_of_gt hm)
    rw [hempty.readAll_stop hfuel rfl rfl, List.flatten_nil, List.append_nil, h.rest_drain]
  | succ n ih =>
    have hempty : ({ r with unpacked := [] } : ReadStream α).Ready U crc file ts :=
      ⟨h.at_, h.rest, h.told⟩
    unfold neverFed at hus
    by_cases hzero : roundCount (U.tell r.fed) r.fed.length ts = 0
    · rw [if_pos hzero] at hus
      obtain rfl := List.self_eq_append_left.mp hus
      refine ⟨_, readAll_unpacked 1 (Nat.zero_lt_of_lt hfuel) fun m hm => ?_⟩
      obtain ⟨m, rfl⟩ := Nat.exists_eq_add_one_of_ne_zero (Nat.ne_of_gt hm)
      rw [hempty.readAll_stop hfuel rfl hzero, List.flatten_nil, List.append_nil, h.rest_drain]
    · rw [if_neg hzero] at hus
      obtain ⟨r₂, hready, hfed, hrest, hunpacked, hgo⟩ := hempty.readAll_go hfuel rfl hzero
      change r₂.fed = r.fed ++ _ at hfed
      change r₂.rest = (F.drain (r.rest ++ _)).2 at hrest
      change r₂.unpacked = (F.drain (r.rest ++ _)).1 at hunpacked
      change r₂.Ready U crc file (ts.drop (roundCount (U.tell r.fed) r.fed.length ts)) at hready
      have hle := roundCount_le (U.tell r.fed) r.fed.length ts
      generalize roundCount (U.tell r.fed) r.fed.length ts = c at *
      -- what is fed later are the blocks behind those of this round
      have hdrop : (ts.drop c).length ≤ n := by
        rw [List.length_drop]
        omega
      obtain ⟨vs, hvs, -⟩ := exists_neverFed U.tell r₂.fed hdrop
      have hsplit : us = ts.take c ++ vs := by
        have hall : ts.take c ++ vs ++ neverFed U.tell n r₂.fed (ts.drop c) =
            us ++ neverFed U.tell n r₂.fed (ts.drop c) := by
          rw [List.append_assoc, ← hvs, List.take_append_drop, hfed, ← hus]
        exact (List.append_cancel_right hall).symm
      obtain ⟨calls, hcalls⟩ := ih hready (by rw [List.length_drop]; omega)
        (by rw [List.length_drop]; omega) hvs
      refine ⟨_, readAll_unpacked (calls + 1) (Nat.zero_lt_of_lt hfuel) fun m hm => ?_⟩
      obtain ⟨m, rfl⟩ : ∃ k, m = k + 1 := ⟨m - 1, by omega⟩
      rw [hgo m, hcalls (m + 1) (by omega), hsplit, hunpacked, hrest, List.flatten_append,
        ← List.append_assoc, F.drain_append (r.rest ++ (ts.take c).flatten)]

/-- A reader that begins at the first block of a chain. -/
theorem ReadStream.start_ready {b : DDFFBlock} (hchain : Chain crc file b ts) :
    (ReadStream.start b : ReadStream α).Ready U crc file ts := by
  refine ⟨.inr ⟨b, rfl, hchain, ?_⟩, ?_, ?_⟩
  · change (b.blockFill : ℤ) = _
    rw [hchain.fill, Nat.add_comm]
    simp [ReadStream.start]
  · change [] = (F.drain []).2
    rw [F.drain_nil]
  · exact (Nat.le_zero.mp (U.tell_le [])).symm

/-- What is read from a chain of blocks. -/
theorem readAll_eq {b : DDFFBlock} (hchain : Chain crc file b ts) {us : List Bytes}
    (hus : ts = us ++ neverFed U.tell ts.length [] ts) {fuel : ℕ} (hfuel : ts.length < fuel) :
    ∃ calls, ∀ m, calls ≤ m →
      readAll U crc file fuel m (.start b) = .ok (F.drain us.flatten).1 :=
  (ReadStream.start_ready hchain).readAll hfuel le_rfl hus

/-- If some data is never fed, an object is missing. -/
theorem drain_ne_of_neverFed {objs : List α} (hgood : ∀ a ∈ objs, F.good a)
    (hts : ts.flatten = F.encodeAll objs) (hnot : ¬ Feeds U.tell ts) {us : List Bytes}
    (hus : ts = us ++ neverFed U.tell ts.length [] ts)
    (hend : roundCount (U.tell us.flatten) us.flatten.length
      (neverFed U.tell ts.length [] ts) = 0) : (F.drain us.flatten).1 ≠ objs := by
  intro hobjs
  cases hleft : neverFed U.tell ts.length [] ts with
  | nil => exact hnot hleft
  | cons t ls =>
    rw [hleft] at hus hend
    -- all of the objects are in the data fed, so that nothing is behind them
    have hall := F.drain_encodeAll hgood
    rw [← hts, hus, List.flatten_append, F.drain_append, hobjs] at hall
    obtain ⟨hnone, hrest⟩ := Prod.ext_iff.mp hall
    have hnone : (F.drain ((F.drain us.flatten).2 ++ (t :: ls).flatten)).1 = [] :=
      List.append_right_eq_self.mp hnone
    obtain ⟨hempty, hlater⟩ :=
      List.append_eq_nil_iff.mp ((F.drain_snd_of_fst hnone).symm.trans hrest)
    have ht : t = [] := (List.append_eq_nil_iff.mp hlater).1
    have hlimit := roundCount_eq_zero hend
    have htold := U.drained_le us.flatten
    have hle := U.tell_le us.flatten
    rw [hempty, List.length_nil] at htold
    rw [ht, List.length_nil] at hlimit
    simp only [maxobjectsize, controlBlockSize] at hlimit
    omega

variable (U crc file) in
/-- The iteration of a reader that begins at a block gives some objects, and ends. -/
def Yields (b : DDFFBlock) (objs : List α) : Prop :=
  ∃ n, ∀ fuel, n ≤ fuel → ∃ calls, ∀ m, calls ≤ m →
    Ddff.readAll U crc file fuel m (.start b) = .ok objs

/-- All objects are read exactly when the decoder gets all of the data. -/
theorem yields_iff {b : DDFFBlock} (hchain : Chain crc file b ts) {objs : List α}
    (hgood : ∀ a ∈ objs, F.good a) (hts : ts.flatten = F.encodeAll objs) :
    Yields crc file U b objs ↔ Feeds U.tell ts := by
  obtain ⟨us, hus, hend⟩ := exists_neverFed U.tell (n := ts.length) [] le_rfl
  constructor
  · rintro ⟨n, hn⟩
    by_contra hnot
    obtain ⟨calls, hcalls⟩ := readAll_eq (U := U) hchain hus
      (Nat.lt_succ_of_le (le_max_left ts.length n))
    obtain ⟨calls', hcalls'⟩ := hn _ ((le_max_right ts.length n).trans (Nat.le_succ _))
    have h := (hcalls _ (le_max_left calls calls')).symm.trans (hcalls' _ (le_max_right _ _))
    exact drain_ne_of_neverFed hgood hts hnot hus hend (Except.ok.inj h)
  · intro hfeeds
    have hall : us = ts := by
      rw [Feeds] at hfeeds
      rw [hfeeds, List.append_nil] at hus
      exact hus.symm
    refine ⟨ts.length + 1, fun fuel hfuel => ?_⟩
    obtain ⟨calls, hcalls⟩ := readAll_eq (U := U) hchain hus (Nat.lt_of_succ_le hfuel)
    refine ⟨calls, fun m hm => ?_⟩
    rw [hcalls m hm, hall, hts, F.drain_encodeAll hgood]

end Chains

end Dueca.Ddff
