import Dueca.Ddff.Reader

/-!
# The layout of a ddff file

A file is a list of blocks, one behind the other. The blocks of a stream are linked when each
holds the position of the next one, and the last holds a mark; a reader that is given the first
one then finds all of them. The first block of each stream is found by a scan of the file.
-/

namespace Dueca.Ddff

open Dueca.Lib

/-- The bytes of blocks one behind the other. -/
def fileBytes (crc : Bytes → UInt16) (bs : List Block) : Bytes := bs.flatMap (Block.bytes crc)

/-- Where blocks are, when the first of them is at a position. -/
def placed : ℕ → List Block → List (ℕ × Block)
  | _, [] => []
  | pos, b :: bs => (pos, b) :: placed (pos + b.blockSize) bs

/-- The space that blocks take. -/
def extent (bs : List Block) : ℕ := (bs.map Block.blockSize).sum

/-- The blocks of a stream, and where they are. -/
def view (s : ℕ) (bs : List Block) : List (ℕ × Block) :=
  (placed 0 bs).filter fun e => e.2.streamId = s

/-- Each block holds the position of the next one, and the last a mark. -/
def Links : List (ℕ × Block) → Prop
  | [] => True
  | [e] => isLastMark e.2.nextOffset
  | e :: f :: es => e.2.nextOffset = f.1 ∧ Links (f :: es)

@[simp] theorem extent_nil : extent [] = 0 := rfl

@[simp] theorem extent_cons (b : Block) (bs : List Block) :
    extent (b :: bs) = b.blockSize + extent bs := by
  simp only [extent, List.map_cons, List.sum_cons]

theorem extent_append (bs cs : List Block) : extent (bs ++ cs) = extent bs + extent cs := by
  simp only [extent, List.map_append, List.sum_append]

theorem placed_append (pos : ℕ) (bs cs : List Block) :
    placed pos (bs ++ cs) = placed pos bs ++ placed (pos + extent bs) cs := by
  induction bs generalizing pos with
  | nil => rfl
  | cons b bs ih =>
    simp only [List.cons_append, placed, ih, extent_cons, Nat.add_assoc]

theorem map_snd_placed (pos : ℕ) (bs : List Block) : (placed pos bs).map Prod.snd = bs := by
  induction bs generalizing pos with
  | nil => rfl
  | cons b bs ih => rw [placed, List.map_cons, ih]

theorem view_append (s : ℕ) (bs cs : List Block) :
    view s (bs ++ cs) = view s bs ++ (placed (extent bs) cs).filter fun e => e.2.streamId = s := by
  rw [view, placed_append, List.filter_append, Nat.zero_add, view]

section Files

variable {crc : Bytes → UInt16} {bs : List Block}

theorem fileBytes_append (bs cs : List Block) :
    fileBytes crc (bs ++ cs) = fileBytes crc bs ++ fileBytes crc cs := List.flatMap_append

variable (crc) in
theorem length_fileBytes (h : ∀ b ∈ bs, b.Fits) : (fileBytes crc bs).length = extent bs := by
  induction bs with
  | nil => rfl
  | cons b bs ih =>
    have hb := (h b List.mem_cons_self).length_bytes crc
    have htail := ih fun c hc => h c (List.mem_cons_of_mem b hc)
    simp only [fileBytes, List.flatMap_cons, List.length_append, extent_cons] at htail ⊢
    rw [hb, htail]

/-- A block on file, with what is before and behind it. -/
theorem exists_split_of_placed {e : ℕ × Block} {pos : ℕ} (he : e ∈ placed pos bs) :
    ∃ cs ds, bs = cs ++ e.2 :: ds ∧ e.1 = pos + extent cs := by
  induction bs generalizing pos with
  | nil => cases he
  | cons b bs ih =>
    obtain rfl | he := List.mem_cons.mp he
    · exact ⟨[], bs, rfl, rfl⟩
    · obtain ⟨cs, ds, rfl, hpos⟩ := ih he
      refine ⟨b :: cs, ds, rfl, ?_⟩
      rw [hpos, extent_cons, Nat.add_assoc]

variable (crc) in
/-- Each block is read at its position. -/
theorem read_placed (h : ∀ b ∈ bs, b.Fits) {e : ℕ × Block} (he : e ∈ placed 0 bs) :
    DDFFBlock.read crc (fileBytes crc bs) e.1 =
      .ok (e.2.parsed e.1, e.1 + e.2.blockSize) := by
  obtain ⟨cs, ds, rfl, hpos⟩ := exists_split_of_placed he
  have hlen : e.1 = (fileBytes crc cs).length := by
    rw [length_fileBytes crc fun c hc => h c (List.mem_append_left _ hc), hpos, Nat.zero_add]
  have hfile : fileBytes crc (cs ++ e.2 :: ds) =
      fileBytes crc cs ++ (e.2.bytes crc ++ fileBytes crc ds) := fileBytes_append cs (e.2 :: ds)
  rw [hlen]
  exact DDFFBlock.read_bytes crc hfile (h e.2 (by simp))

theorem Links.tail {e : ℕ × Block} {es : List (ℕ × Block)} (h : Links (e :: es)) : Links es := by
  cases es with
  | nil => trivial
  | cons f es => exact h.2

variable (crc) in
theorem position_lt (h : ∀ b ∈ bs, b.Fits) {e : ℕ × Block} (he : e ∈ placed 0 bs) :
    e.1 + controlBlockSize ≤ (fileBytes crc bs).length := by
  obtain ⟨cs, ds, rfl, hpos⟩ := exists_split_of_placed he
  have hsize := (h e.2 (by simp)).size
  rw [length_fileBytes crc h, extent_append, extent_cons, hpos]
  omega

/-- Linked blocks are a chain for the reader. -/
theorem chain_of_links (h : ∀ b ∈ bs, b.Fits) (hlen : (fileBytes crc bs).length < 2 ^ 63)
    {e : ℕ × Block} {es : List (ℕ × Block)} (hsub : ∀ f ∈ e :: es, f ∈ placed 0 bs)
    (hlinks : Links (e :: es)) :
    Chain crc (fileBytes crc bs) (e.2.parsed e.1) ((e :: es).map fun f => f.2.tail) := by
  induction es generalizing e with
  | nil =>
    obtain ⟨cs, ds, hsplit, -⟩ := exists_split_of_placed (hsub e List.mem_cons_self)
    exact .last hlinks (h e.2 (hsplit ▸ by simp)).length_tail.symm
  | cons f es ih =>
    obtain ⟨cs, ds, hsplit, -⟩ := exists_split_of_placed (hsub e List.mem_cons_self)
    have hf := hsub f (List.mem_cons_of_mem e List.mem_cons_self)
    have hpos := position_lt crc h hf
    have hmark : ¬ isLastMark (e.2.parsed e.1).nextOffset := by
      change ¬ (e.2.nextOffset = 2 ^ 63 - 1 ∨ e.2.nextOffset = -1)
      rw [hlinks.1]
      simp only [controlBlockSize] at hpos
      omega
    exact .link hlinks.1 hmark (read_placed crc h hf) (h e.2 (hsplit ▸ by simp)).length_tail.symm
      (ih (fun g hg => hsub g (List.mem_cons_of_mem e hg)) hlinks.tail)

end Files

/-! ### Finding the streams -/

/-- `_scan_streams`: the first block of each stream, from a position on. A missing block or a
wrong checksum ends the scan. -/
def scanStreams (crc : Bytes → UInt16) (file : Bytes) :
    ℕ → ℕ → List (ℕ × DDFFBlock) → Except ReadFault (List (ℕ × DDFFBlock))
  | 0, _, _ => .error .fuel
  | n + 1, pos, streams =>
    match DDFFBlock.read crc file pos with
    | .ok (hdr, pos) =>
      scanStreams crc file n pos
        (if streams.any (·.1 = hdr.streamId) then streams
          else streams ++ [(hdr.streamId, hdr)])
    | .error .ended => .ok streams
    | .error .crcFailure => .ok streams
    | .error e => .error e

/-- The entry of a stream. -/
def streamOf (streams : List (ℕ × DDFFBlock)) (s : ℕ) : Option DDFFBlock :=
  (streams.find? fun e => e.1 = s).map (·.2)

theorem scanStreams_ended (crc : Bytes → UInt16) (file : Bytes) (n : ℕ)
    (streams : List (ℕ × DDFFBlock)) :
    scanStreams crc file (n + 1) file.length streams = .ok streams := by
  have hread : DDFFBlock.read crc file file.length = .error .ended := by
    have hempty : fileRead file file.length controlBlockSize = [] := by
      rw [fileRead, if_pos (Int.natCast_nonneg _), List.drop_length, List.take_nil]
    rw [DDFFBlock.read, hempty]
    rfl
  rw [scanStreams, hread]

/-- A stream is added when it is not there yet. -/
theorem streamOf_add (streams : List (ℕ × DDFFBlock)) (t s : ℕ) (hdr : DDFFBlock) :
    streamOf (if streams.any (·.1 = t) then streams else streams ++ [(t, hdr)]) s =
      (streamOf streams s).or (if t = s then some hdr else none) := by
  split
  · rename_i hany
    split
    · rename_i hts
      subst hts
      obtain ⟨e, he, het⟩ := List.any_eq_true.mp hany
      have hsome : (streams.find? fun e => e.1 = t).isSome := List.find?_isSome.mpr ⟨e, he, het⟩
      obtain ⟨f, hf⟩ := Option.isSome_iff_exists.mp hsome
      simp [streamOf, hf]
    · simp
  · rw [streamOf, streamOf, List.find?_append]
    cases streams.find? fun e => e.1 = s with
    | some e => rfl
    | none =>
      by_cases hts : t = s
      · simp [hts]
      · simp [hts]

/-- The scan from a position on adds the first block of each stream that is not there yet. -/
theorem scanStreams_from {crc : Bytes → UInt16} {bs cs : List Block}
    (h : ∀ b ∈ cs ++ bs, b.Fits) {n : ℕ} (hn : bs.length < n) (streams : List (ℕ × DDFFBlock)) :
    ∃ found, scanStreams crc (fileBytes crc (cs ++ bs)) n (extent cs) streams = .ok found ∧
      ∀ s, streamOf found s = (streamOf streams s).or
        (((placed (extent cs) bs).find? fun e => e.2.streamId = s).map
          fun e => e.2.parsed e.1) := by
  induction bs generalizing n cs streams with
  | nil =>
    obtain ⟨n, rfl⟩ := Nat.exists_eq_add_one_of_ne_zero (Nat.ne_of_gt hn)
    refine ⟨streams, ?_, fun s => by simp [placed]⟩
    rw [List.append_nil] at h ⊢
    rw [← length_fileBytes crc h, scanStreams_ended]
  | cons b bs ih =>
    obtain ⟨n, rfl⟩ := Nat.exists_eq_add_one_of_ne_zero (Nat.ne_of_gt (Nat.zero_lt_of_lt hn))
    have hmem : (extent cs, b) ∈ placed 0 (cs ++ b :: bs) := by
      rw [placed_append, Nat.zero_add]
      exact List.mem_append_right _ List.mem_cons_self
    have hread := read_placed crc h hmem
    have hsplit : cs ++ b :: bs = cs ++ [b] ++ bs := by
      rw [List.append_assoc, List.singleton_append]
    have hextent : extent (cs ++ [b]) = extent cs + b.blockSize := by
      rw [extent_append, extent_cons, extent_nil, Nat.add_zero]
    have hall : ∀ c ∈ cs ++ [b] ++ bs, c.Fits := hsplit ▸ h
    obtain ⟨found, hfound, hstreams⟩ := ih hall (Nat.lt_of_succ_lt_succ hn)
      (if streams.any (·.1 = b.streamId) then streams
        else streams ++ [(b.streamId, b.parsed (extent cs))])
    refine ⟨found, ?_, fun s => ?_⟩
    · rw [scanStreams, hread]
      rw [← hsplit, hextent] at hfound
      exact hfound
    · rw [hstreams s, hextent, placed, streamOf_add, List.find?_cons]
      by_cases hs : b.streamId = s
      · subst hs
        simp
      · simp [hs]

theorem scanStreams_eq (crc : Bytes → UInt16) {bs : List Block} (h : ∀ b ∈ bs, b.Fits)
    {n : ℕ} (hn : bs.length < n) :
    ∃ found, scanStreams crc (fileBytes crc bs) n 0 [] = .ok found ∧
      ∀ s, streamOf found s = (view s bs).head?.map fun e => e.2.parsed e.1 := by
  have hall : ∀ b ∈ [] ++ bs, b.Fits := h
  obtain ⟨found, hfound, hstreams⟩ := scanStreams_from hall hn []
  refine ⟨found, hfound, fun s => ?_⟩
  rw [hstreams s, view, List.head?_filter]
  rfl

end Dueca.Ddff
