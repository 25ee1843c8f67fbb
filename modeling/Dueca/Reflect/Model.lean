import Dueca.Lib.Run
import Dueca.Reflect.Message

/-!
# Messages through a shared memory area

A reflective packer writes messages into its area of shared memory, which is used cyclically. Each
other node has an unpacker that reads them in two stages: `distribute` checks the messages and
lists those for channels with a local end, `despatch` unpacks what is on the list. The unpacker
writes back up to where the area may be used again, and the packer goes by these indices.

What a node writes becomes visible at another one later, but in the order in which it was written.
-/

namespace Dueca.Reflect

open Dueca.Lib

/-- Ways in which the code leaves its course. -/
inductive Fault
  | entryinvalid
  | bufferOverrun
  | outsideArea
  | endlessLoop
  deriving DecidableEq

/-! ### The packer -/

/-- A request to pack data of a channel entry. -/
structure PackUnit where
  channel : ℕ
  entry : ℕ
  tick : ℕ
  deriving DecidableEq

/-- What an entry gives when it has to pack its data. -/
inductive Packing
  | data (code : UInt8) (rest : List UInt8)
  | noDataAvailable
  | entryinvalid
  deriving DecidableEq

/-- A message, and the words it became. -/
structure Parcel where
  message : Message
  words : List ℕ
  deriving DecidableEq

/-- The index of the reader that is furthest behind, given the indices of all readers. -/
def roundUpFree (areaSize writeIdx : ℕ) (cbs : List ℕ) : ℕ :=
  cbs.foldr
    (fun idx fullest =>
      if (writeIdx < idx ∧ (idx < fullest ∨ fullest < writeIdx)) ∨
          (idx < writeIdx ∧ idx < fullest ∧ fullest < writeIdx) then idx
      else fullest)
    (if writeIdx = 0 then areaSize - 1 else writeIdx - 1)

def freeSize (areaSize writeIdx : ℕ) (cbs : List ℕ) : ℕ :=
  (areaSize - writeIdx + roundUpFree areaSize writeIdx cbs) % areaSize

/-- Work off the queue, as far as there is room. Gives the words in the store, the messages that
are in it, and the rest of the queue. -/
def packQueue (packData : PackUnit → Packing) (stale : ℕ → UInt8) (room : ℕ) :
    List PackUnit → List ℕ → Except Fault (List ℕ × List Parcel × List PackUnit)
  | [], store => .ok (store, [], [])
  | u :: queue, store =>
    -- the head is packed before the entry is asked
    if room ≤ store.length then .ok (store, [], u :: queue)
    else
      match packData u with
      | .entryinvalid => .error .entryinvalid
      | .noDataAvailable => .ok (store, [], queue)
      | .data code rest =>
        let m : Message := ⟨u.channel, code, rest⟩
        let words := packMessage stale (4 * store.length) m
        if store.length + words.length ≤ room then do
          let (store', parcels, queue') ← packQueue packData stale room queue (store ++ words)
          pure (store', ⟨m, words⟩ :: parcels, queue')
        else .ok (store, [], u :: queue)

/-- A write to shared memory by the packer. -/
inductive Write
  | word (idx value : ℕ)
  | index (idx : ℕ)
  deriving DecidableEq

/-- A cyclic index goes up by one. -/
def next (areaSize idx : ℕ) : ℕ := if idx + 1 = areaSize then 0 else idx + 1

/-- Write words to the area, and then the new index. -/
def copyBuffer (areaSize : ℕ) : ℕ → List ℕ → List Write × ℕ
  | idx, [] => ([.index idx], idx)
  | idx, x :: xs =>
    let (writes, last) := copyBuffer areaSize (next areaSize idx) xs
    (.word idx x :: writes, last)

/-! ### The unpacker -/

/-- An unpacker, with its view of the area of one packer. `asked` is the history of the messages
it came across, by their channels and whether these had a local end; `delivered` is what the
channels were given to unpack. -/
structure Unpacker where
  area : List ℕ
  newWriteIdx : ℕ
  objectBufferSize : ℕ
  stage1 : ℕ
  stage2Commanded : ℕ
  stage2Done : ℕ
  work : List HeadInfo
  workDone : List ℕ
  published : ℕ
  asked : List (ℕ × Bool)
  delivered : List (ℕ × List UInt8)
  failures : ℕ
  deriving DecidableEq

/-- The index of the data, in the 16 bits in which it is passed. -/
def HeadInfo.getIndex (hi : HeadInfo) : ℕ := hi.index % 65536

def HeadInfo.words (hi : HeadInfo) : ℕ := (hi.size + 3) / 4

def readWord (area : List ℕ) (idx : ℕ) : Except Fault ℕ :=
  match area[idx]? with
  | some word => .ok word
  | none => .error .outsideArea

/-- Take the words of the data into the checksum. Gives nothing if the write index is met. -/
def amalgiData (area : List ℕ) (areaSize newWriteIdx : ℕ) :
    ℕ → ℕ → ℕ → Except Fault (Option (ℕ × ℕ))
  | 0, idx, sum => .ok (some (idx, sum))
  | n + 1, idx, sum =>
    let idx := next areaSize idx
    if idx = newWriteIdx then .ok none
    else do
      let word ← readWord area idx
      amalgiData area areaSize newWriteIdx n idx (amalgi word sum)

/-- How far a scan has come, and what it commissions. -/
structure Scan where
  stage1 : ℕ
  commanded0 : Option ℕ
  commanded : ℕ
  work : List HeadInfo
  asked : List (ℕ × Bool)
  failed : Bool
  deriving DecidableEq

/-- A message that passed the check. -/
def Scan.handle (s : Scan) (hi : HeadInfo) (here : Bool) (idx : ℕ) : Scan :=
  let s := { s with stage1 := idx, asked := s.asked ++ [(hi.channel, here)] }
  if here = false then s
  else if hi.size = 0 then { s with work := s.work ++ [hi] }
  else { s with
    commanded0 := some (s.commanded0.getD hi.getIndex)
    commanded := hi.getIndex
    work := s.work ++ [hi] }

/-- Check the messages up to the write index. -/
def scan (hasLocalEnd : ℕ → Bool) (area : List ℕ) (areaSize newWriteIdx : ℕ) :
    ℕ → ℕ → Scan → Except Fault Scan
  | 0, _, _ => .error .endlessLoop
  | fuel + 1, idx, s =>
    let idx := next areaSize idx
    if idx = newWriteIdx then .ok s
    else do
      let word ← readWord area idx
      let hi := headInfo areaSize word idx
      match ← amalgiData area areaSize newWriteIdx hi.words idx (amalgi word 0) with
      | none => pure { s with failed := true }
      | some (idx, sum) =>
        let idx := next areaSize idx
        if idx = newWriteIdx then pure { s with failed := true }
        else do
          let check ← readWord area idx
          if htonl check ≠ sum then pure { s with failed := true }
          else
            scan hasLocalEnd area areaSize newWriteIdx fuel idx
              (s.handle hi (hasLocalEnd hi.channel) idx)

namespace Unpacker

/-- The first stage. -/
def distribute (areaSize : ℕ) (hasLocalEnd : ℕ → Bool) (u : Unpacker) : Except Fault Unpacker := do
  let done := u.workDone.getLast?.getD u.stage2Done
  let s ← scan hasLocalEnd u.area areaSize u.newWriteIdx areaSize u.stage1
    { stage1 := u.stage1, commanded0 := none, commanded := u.stage2Commanded, work := []
      asked := [], failed := false }
  pure { u with
    workDone := []
    stage1 := s.stage1
    stage2Done := done
    stage2Commanded := s.commanded
    work := u.work ++ s.work
    asked := u.asked ++ s.asked
    -- up to where the area can be written again
    published := if done = u.stage2Commanded then s.commanded0.getD s.stage1 else done
    failures := u.failures + s.failed.toNat }

/-- The words of the data, from the area or, when it goes over the end, copied to the buffer. -/
def dataWords (areaSize : ℕ) (u : Unpacker) (hi : HeadInfo) : Except Fault (List ℕ) :=
  if hi.getIndex + hi.words ≤ areaSize then
    (List.range hi.words).mapM fun i => readWord u.area (hi.getIndex + i)
  else if u.objectBufferSize < hi.words then .error .bufferOverrun
  else (List.range hi.words).mapM fun i => readWord u.area ((hi.getIndex + i) % areaSize)

/-- The second stage, for the first message on the list. -/
def despatch (areaSize : ℕ) (u : Unpacker) : Except Fault Unpacker :=
  match u.work with
  | [] => .ok u
  | hi :: work =>
    if hi.size = 0 then .ok { u with work := work }
    else do
      let words ← u.dataWords areaSize hi
      pure { u with
        work := work
        delivered := u.delivered ++ [(hi.channel, (words.flatMap bytesOf).take hi.size)]
        workDone := u.workDone ++ [hi.getIndex] }

/-- A write of the packer becomes visible. -/
def see (u : Unpacker) : Write → Unpacker
  | .word idx value => { u with area := u.area.set idx value }
  | .index idx => { u with newWriteIdx := idx }

end Unpacker

/-! ### All nodes -/

/-- An unpacker, the writes of the packer it does not see yet, its index as the packer sees it,
and the later ones that the packer does not see yet. -/
structure Link where
  unpacker : Unpacker
  coming : List Write
  cb : ℕ
  releasing : List ℕ
  deriving DecidableEq

structure World where
  areaSize : ℕ
  objectBufferSize : ℕ
  areaWriteIdx : ℕ
  workQueue : List PackUnit
  parcels : List Parcel
  links : List Link
  deriving DecidableEq

/-- A memory area as it is initialised, with the buffer sizes of the unpackers. -/
def World.start (areaSize objectBufferSize : ℕ) (buffers : List ℕ) : World where
  areaSize := areaSize
  objectBufferSize := objectBufferSize
  areaWriteIdx := 1
  workQueue := []
  parcels := []
  links := buffers.map fun objectBufferSize =>
    { unpacker :=
        { area := List.replicate areaSize 0
          newWriteIdx := 1
          objectBufferSize := objectBufferSize
          stage1 := 0
          stage2Commanded := 0
          stage2Done := 0
          work := []
          workDone := []
          published := 0
          asked := []
          delivered := []
          failures := 0 }
      coming := []
      cb := 0
      releasing := [] }

inductive Step
  | notification (u : PackUnit)
  | packWorkR (packData : PackUnit → Packing) (stale : ℕ → UInt8)
  | arrive (i : ℕ)
  | distribute (i : ℕ) (hasLocalEnd : ℕ → Bool)
  | despatch (i : ℕ)
  | release (i : ℕ)

namespace Link

def arrive (l : Link) : Link :=
  match l.coming with
  | [] => l
  | write :: coming => { l with unpacker := l.unpacker.see write, coming := coming }

def release (l : Link) : Link :=
  match l.releasing with
  | [] => l
  | idx :: releasing => { l with cb := idx, releasing := releasing }

def distribute (areaSize : ℕ) (hasLocalEnd : ℕ → Bool) (l : Link) : Except Fault Link := do
  let u ← l.unpacker.distribute areaSize hasLocalEnd
  pure { l with unpacker := u, releasing := l.releasing ++ [u.published] }

def despatch (areaSize : ℕ) (l : Link) : Except Fault Link := do
  let u ← l.unpacker.despatch areaSize
  pure { l with unpacker := u }

end Link

namespace World

def room (w : World) : ℕ := freeSize w.areaSize w.areaWriteIdx (w.links.map Link.cb)

/-- What is packed from the queue; nothing if there is too little room. -/
def packing (packData : PackUnit → Packing) (stale : ℕ → UInt8) (w : World) :
    Except Fault (List ℕ × List Parcel × List PackUnit) :=
  let capacity := min w.objectBufferSize w.room
  if capacity * 4 < 80 then .ok ([], [], w.workQueue)
  else packQueue packData stale capacity w.workQueue []

def packWorkR (packData : PackUnit → Packing) (stale : ℕ → UInt8) (w : World) :
    Except Fault World := do
  let (store, parcels, queue) ← w.packing packData stale
  let (writes, last) := copyBuffer w.areaSize w.areaWriteIdx store
  pure { w with
    areaWriteIdx := last
    workQueue := queue
    parcels := w.parcels ++ parcels
    links := w.links.map fun l => { l with coming := l.coming ++ writes } }

/-- Something happens at one of the other nodes. -/
def onLink (w : World) (i : ℕ) (f : Link → Except Fault Link) : Except Fault World :=
  match w.links[i]? with
  | none => .ok w
  | some l => do
    let l' ← f l
    pure { w with links := w.links.set i l' }

end World

def step (w : World) : Step → Except Fault World
  | .notification u => .ok { w with workQueue := w.workQueue ++ [u] }
  | .packWorkR packData stale => w.packWorkR packData stale
  | .arrive i => w.onLink i fun l => .ok l.arrive
  | .distribute i hasLocalEnd => w.onLink i fun l => l.distribute w.areaSize hasLocalEnd
  | .despatch i => w.onLink i fun l => l.despatch w.areaSize
  | .release i => w.onLink i fun l => .ok l.release

end Dueca.Reflect
