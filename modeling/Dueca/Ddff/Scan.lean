import Dueca.Lib.Loop
import Dueca.Ddff.Block

/-!
# The scan over the blocks of a ddff file

When a file is opened, the file handler goes from block to block with the block sizes in the
control blocks, and notes for each stream where its first and last blocks are. It stops where no
complete control block is left, and refuses the file when the first block of a stream has another
number than zero.
-/

namespace Dueca.Ddff

open Dueca.Lib Relation

/-- Exceptions of the scan. -/
inductive ScanFault
  | fileReadError (offset : ℕ)
  | fileInconsistentBufsize
  deriving DecidableEq, Repr

/-- `StreamSetInfo`, for a stream without reader and writer. -/
structure StreamSetInfo where
  lastblockLocation : Option ℕ := none
  firstblockLocation : Option ℕ := none
  blockSize : ℕ := 0
  deriving DecidableEq, Repr

/-- The link of a block that has no block after it. -/
def posTypeMax : ℤ := 2 ^ 63 - 1

/-- The first part of `checkBlock`: whether this is the first block of the stream. -/
def StreamSetInfo.checkFirst (offset : ℕ) (hdata : ControlBlock) (info : StreamSetInfo) :
    Except ScanFault StreamSetInfo :=
  match info.firstblockLocation with
  | some _ => .ok info
  | none =>
    if hdata.blockNum ≠ 0 then .error (.fileReadError offset)
    else if info.blockSize = 0 then
      .ok { info with firstblockLocation := some offset, blockSize := hdata.blockSize }
    else if info.blockSize ≠ hdata.blockSize then .error .fileInconsistentBufsize
    else .ok { info with firstblockLocation := some offset }

def StreamSetInfo.checkBlock (offset : ℕ) (hdata : ControlBlock) (info : StreamSetInfo) :
    Except ScanFault StreamSetInfo := do
  let info ← info.checkFirst offset hdata
  if hdata.nextOffset = posTypeMax ∧ info.lastblockLocation = none then
    return { info with lastblockLocation := some offset }
  else return info

/-- The position of the scan, and the streams so far. -/
structure Scan where
  offset : ℕ := 0
  streams : List StreamSetInfo := []
  deriving DecidableEq, Repr

/-- `streams`, extended when there is none with the id. -/
def extendStreams (streams : List StreamSetInfo) (streamId : ℕ) : List StreamSetInfo :=
  streams ++ List.replicate (streamId + 1 - streams.length) ({} : StreamSetInfo)

/-- The control block at a position; none when the file ends before. -/
def controlBlockAt (file : Bytes) (offset : ℕ) : Option ControlBlock :=
  if file.length < offset + controlBlockSize then none
  else some (unpackControlBlock ((file.drop offset).take controlBlockSize))

/-- A turn of the loop in `checkIndices`. -/
def scanBlock (file : Bytes) (s : Scan) : Scan ⊕ Except ScanFault (List StreamSetInfo) :=
  match controlBlockAt file s.offset with
  | none => .inr (.ok s.streams)
  | some hdata =>
    let streams := extendStreams s.streams hdata.streamId
    match (streams.getD hdata.streamId {}).checkBlock s.offset hdata with
    | .error e => .inr (.error e)
    | .ok info =>
      .inl ⟨s.offset + hdata.blockSize, streams.set hdata.streamId info⟩

/-- `checkIndices` for a file that is opened, with so many turns of the loop. -/
def checkIndices (file : Bytes) (turns : ℕ) : Option (Except ScanFault (List StreamSetInfo)) :=
  loop (scanBlock file) turns {}

/-! ### Blocks one comes to -/

/-- A block is refused when it is the first of its stream and has another number than zero. -/
def Refused (before : List ControlBlock) (hdata : ControlBlock) : Prop :=
  (∀ h ∈ before, h.streamId ≠ hdata.streamId) ∧ hdata.blockNum ≠ 0

/-- From block to block with the block sizes: where one comes to, with the control blocks before
that. -/
inductive BlockChain (file : Bytes) : ℕ → List ControlBlock → Prop
  | start : BlockChain file 0 []
  | next {offset before hdata} : BlockChain file offset before →
    controlBlockAt file offset = some hdata → ¬Refused before hdata →
    BlockChain file (offset + hdata.blockSize) (before ++ [hdata])

/-- No block one comes to has size zero, other than one that is refused. -/
def NoZeroBlock (file : Bytes) : Prop :=
  ∀ offset before hdata, BlockChain file offset before →
    controlBlockAt file offset = some hdata → ¬Refused before hdata → hdata.blockSize ≠ 0

/-! ### The scan comes to these blocks -/

variable {file : Bytes} {s t : Scan} {streams : List StreamSetInfo} {before : List ControlBlock}
variable {hdata : ControlBlock} {info info' : StreamSetInfo} {offset id : ℕ}

/-- The streams of which a block has been seen are those with a first block, and only these have
a block size. -/
def SeenStreams (before : List ControlBlock) (streams : List StreamSetInfo) : Prop :=
  ∀ id, ((streams.getD id {}).firstblockLocation = none ↔ ∀ h ∈ before, h.streamId ≠ id) ∧
    ((streams.getD id {}).firstblockLocation = none → (streams.getD id {}).blockSize = 0)

theorem getD_extendStreams (i : ℕ) : (extendStreams streams id).getD i {} = streams.getD i {} := by
  simp only [extendStreams, List.getD_eq_getElem?_getD, List.getElem?_append,
    List.getElem?_replicate]
  split
  · rfl
  · rename_i hlen
    rw [List.getElem?_eq_none (Nat.le_of_not_lt hlen)]
    split <;> rfl

theorem getD_set_extendStreams (i : ℕ) :
    ((extendStreams streams id).set id info).getD i {} =
      if id = i then info else streams.getD i {} := by
  have hlt : id < (extendStreams streams id).length := by
    rw [extendStreams, List.length_append, List.length_replicate]
    omega
  rw [List.getD_eq_getElem?_getD, List.getElem?_set]
  by_cases hid : id = i
  · subst hid
    rw [if_pos rfl, if_pos hlt, if_pos rfl]
    rfl
  · rw [if_neg hid, if_neg hid, ← List.getD_eq_getElem?_getD, getD_extendStreams]

/-- What `checkBlock` does for a stream that has a block size only if it has a first block. -/
theorem checkBlock_spec (hsize : info.firstblockLocation = none → info.blockSize = 0) :
    if info.firstblockLocation = none ∧ hdata.blockNum ≠ 0 then
      info.checkBlock offset hdata = .error (.fileReadError offset)
    else ∃ info', info.checkBlock offset hdata = .ok info' ∧ info'.firstblockLocation ≠ none := by
  unfold StreamSetInfo.checkBlock StreamSetInfo.checkFirst
  cases hfirst : info.firstblockLocation with
  | some first =>
    rw [if_neg (fun h => nomatch h.1)]
    dsimp only [bind, Except.bind]
    split
    · exact ⟨_, rfl, hfirst ▸ nofun⟩
    · exact ⟨_, rfl, hfirst ▸ nofun⟩
  | none =>
    by_cases hnum : hdata.blockNum ≠ 0
    · rw [if_pos ⟨rfl, hnum⟩]
      dsimp only
      rw [if_pos hnum]
      rfl
    · rw [if_neg fun h => hnum h.2]
      dsimp only
      rw [if_neg hnum, if_pos (hsize hfirst)]
      dsimp only [bind, Except.bind]
      split
      · exact ⟨_, rfl, nofun⟩
      · exact ⟨_, rfl, nofun⟩

theorem SeenStreams.refused_iff (h : SeenStreams before streams) :
    Refused before hdata ↔
      ((extendStreams streams hdata.streamId).getD hdata.streamId {}).firstblockLocation = none ∧
        hdata.blockNum ≠ 0 := by
  rw [getD_extendStreams, (h hdata.streamId).1, Refused]

theorem SeenStreams.set (h : SeenStreams before streams) (hinfo : info.firstblockLocation ≠ none) :
    SeenStreams (before ++ [hdata])
      ((extendStreams streams hdata.streamId).set hdata.streamId info) := by
  intro id
  rw [getD_set_extendStreams]
  by_cases hid : hdata.streamId = id
  · rw [if_pos hid]
    refine ⟨⟨fun hnone => absurd hnone hinfo, fun hall => ?_⟩, fun hnone => absurd hnone hinfo⟩
    exact absurd hid (hall hdata (List.mem_append_right _ (List.mem_singleton_self _)))
  · rw [if_neg hid]
    refine ⟨(h id).1.trans ⟨fun hall b hb => ?_, fun hall b hb => ?_⟩, (h id).2⟩
    · rcases List.mem_append.mp hb with hb | hb
      · exact hall b hb
      · exact List.mem_singleton.mp hb ▸ hid
    · exact hall b (List.mem_append_left _ hb)

theorem scanBlock_none (h : controlBlockAt file s.offset = none) :
    scanBlock file s = .inr (.ok s.streams) := by
  simp only [scanBlock, h]

theorem scanBlock_refused (hs : SeenStreams before s.streams)
    (h : controlBlockAt file s.offset = some hdata) (href : Refused before hdata) :
    scanBlock file s = .inr (.error (.fileReadError s.offset)) := by
  have hspec := @checkBlock_spec hdata
    ((extendStreams s.streams hdata.streamId).getD hdata.streamId {}) s.offset
    (by rw [getD_extendStreams]; exact (hs hdata.streamId).2)
  rw [if_pos (hs.refused_iff.mp href)] at hspec
  simp only [scanBlock, h, hspec]

/-- A turn for a block that is not refused. -/
theorem scanBlock_next (hs : SeenStreams before s.streams)
    (h : controlBlockAt file s.offset = some hdata) (href : ¬Refused before hdata) :
    ∃ streams, scanBlock file s = .inl ⟨s.offset + hdata.blockSize, streams⟩ ∧
      SeenStreams (before ++ [hdata]) streams := by
  have hspec := @checkBlock_spec hdata
    ((extendStreams s.streams hdata.streamId).getD hdata.streamId {}) s.offset
    (by rw [getD_extendStreams]; exact (hs hdata.streamId).2)
  rw [if_neg fun hnot => href (hs.refused_iff.mpr hnot)] at hspec
  obtain ⟨info, hinfo, hfirst⟩ := hspec
  exact ⟨_, by simp only [scanBlock, h, hinfo], hs.set hfirst⟩

theorem seenStreams_nil : SeenStreams [] [] := by
  intro id
  simp only [List.getD_nil, List.not_mem_nil, false_implies, implies_true, and_self]

/-- The scan has come to a block. -/
def ComesTo (file : Bytes) (s : Scan) : Prop :=
  ∃ before, BlockChain file s.offset before ∧ SeenStreams before s.streams

/-- The scan only comes to blocks one comes to with the block sizes. -/
theorem ComesTo.step (h : ComesTo file s) (hstep : scanBlock file s = .inl t) :
    ComesTo file t ∧ ∃ before hdata, BlockChain file s.offset before ∧
      controlBlockAt file s.offset = some hdata ∧ ¬Refused before hdata ∧
        t.offset = s.offset + hdata.blockSize := by
  obtain ⟨before, hchain, hseen⟩ := h
  cases hdata : controlBlockAt file s.offset with
  | none =>
    rw [scanBlock_none hdata] at hstep
    cases hstep
  | some hdata' =>
    by_cases href : Refused before hdata'
    · rw [scanBlock_refused hseen hdata href] at hstep
      cases hstep
    · obtain ⟨streams, hnext, hseen'⟩ := scanBlock_next hseen hdata href
      rw [hnext] at hstep
      cases hstep
      exact ⟨⟨_, hchain.next hdata href, hseen'⟩, before, hdata', hchain, rfl, href, rfl⟩

/-- The scan comes to all of these. -/
theorem BlockChain.follows (h : BlockChain file offset before) :
    ∃ streams, ReflTransGen (Follows (scanBlock file)) {} ⟨offset, streams⟩ ∧
      SeenStreams before streams := by
  induction h with
  | start => exact ⟨[], .refl, seenStreams_nil⟩
  | next _ hdata href ih =>
    obtain ⟨streams, hfollows, hseen⟩ := ih
    obtain ⟨streams', hnext, hseen'⟩ := scanBlock_next (s := ⟨_, streams⟩) hseen hdata href
    exact ⟨streams', hfollows.tail hnext, hseen'⟩

theorem comesTo_start : ComesTo file {} := ⟨[], .start, seenStreams_nil⟩

/-! ### The end of the scan -/

theorem controlBlockAt_lt (h : controlBlockAt file offset = some hdata) :
    offset < file.length := by
  unfold controlBlockAt at h
  split at h
  · cases h
  · unfold controlBlockSize at *
    omega

theorem NoZeroBlock.ends (h : NoZeroBlock file) : Ends (scanBlock file) {} := by
  refine ends_of_measure (I := ComesTo file) (fun s => file.length - s.offset)
    (fun s t hs hstep => ?_) comesTo_start
  obtain ⟨ht, before, hdata, hchain, hblock, href, hoffset⟩ := hs.step hstep
  have hlt := controlBlockAt_lt hblock
  have hsize := h _ _ _ hchain hblock href
  refine ⟨ht, ?_⟩
  omega

/-- At a block of size zero the scan stays. -/
theorem not_ends_of_zero (hchain : BlockChain file offset before)
    (hblock : controlBlockAt file offset = some hdata) (href : ¬Refused before hdata)
    (hzero : hdata.blockSize = 0) : ¬Ends (scanBlock file) {} := by
  obtain ⟨streams, hfollows, hseen⟩ := hchain.follows
  rw [ends_iff_of_follows hfollows]
  refine not_ends_of_invariant (I := fun s => s.offset = offset ∧
    ∃ before, SeenStreams before s.streams ∧ ¬Refused before hdata) (fun s hs => ?_)
    ⟨rfl, before, hseen, href⟩
  obtain ⟨rfl, before', hseen', href'⟩ := hs
  obtain ⟨streams', hnext, hseen''⟩ := scanBlock_next hseen' hblock href'
  refine ⟨_, hnext, by rw [hzero, Nat.add_zero], _, hseen'', fun h => ?_⟩
  exact h.1 hdata (List.mem_append_right _ (List.mem_singleton_self _)) rfl

/-- The scan never goes back. -/
theorem offset_le_of_follows (h : ReflTransGen (Follows (scanBlock file)) s t)
    (hs : ComesTo file s) : s.offset ≤ t.offset := by
  have hinv := invariant_of_follows (I := fun t => ComesTo file t ∧ s.offset ≤ t.offset)
    (fun t u ht hstep => ?_) ⟨hs, Nat.le_refl _⟩ h
  · exact hinv.2
  · obtain ⟨hu, _, hdata, -, -, -, hoffset⟩ := ht.1.step hstep
    exact ⟨hu, hoffset ▸ ht.2.trans (Nat.le_add_right _ _)⟩

/-- The scan of a file ends without going back to a block before one it has come to, if and only if
no block one comes to with the block sizes, and that is not refused, has size zero. -/
theorem checkIndices_ends_iff (file : Bytes) :
    ((∃ turns res, checkIndices file turns = some res) ∧
      ∀ s t, ReflTransGen (Follows (scanBlock file)) {} s →
        ReflTransGen (Follows (scanBlock file)) s t → s.offset ≤ t.offset) ↔
      NoZeroBlock file := by
  constructor
  · rintro ⟨hends, -⟩ offset before hdata hchain hblock href hzero
    exact not_ends_of_zero hchain hblock href hzero hends
  · intro h
    refine ⟨h.ends, fun s t hs ht => offset_le_of_follows ht ?_⟩
    exact invariant_of_follows (fun s t hs hstep => (hs.step hstep).1) comesTo_start hs

/-- A file of one control block with the size zero. -/
theorem not_checkIndices_zeros :
    ¬∃ turns res, checkIndices (List.replicate 28 0) turns = some res := by
  refine not_ends_of_zero .start
    (show _ = some (unpackControlBlock (List.replicate 28 0)) from rfl)
    (fun h => ?_) ?_
  · exact h.2 (by decide)
  · decide

end Dueca.Ddff
