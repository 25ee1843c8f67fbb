import Dueca.Lib.Run

/-!
# The data points of a channel entry

A `UChannelEntryData` is a point in the chain of an entry: a time, a data
pointer, links to the older and the newer point, a count of the read accesses
and a sequence id. The points live in a `Heap`; a freed point is absent from it,
and following a null pointer or a pointer to a freed point is a `Fault`.

The heap never hands out an address twice. The arena of the source does reuse
memory, but only a program that follows a pointer to a freed point can see it.
-/

namespace Dueca.Entry

open Dueca.Lib

/-- Where an operation on an entry stops: at a null pointer, at a pointer to a
freed point, at a failed assertion, in a loop without end, or since the caller
names a client that does not exist. -/
inductive Fault | nullPointer | freedPointer | assertion | endlessLoop | noClient
  deriving DecidableEq, Repr

/-- `MAX_TIMETICK`; a tick has 32 bits. -/
def maxTimetick : ℕ := 4294967295

/-- A span of ticks. The constructors assert that it does not end before it
starts. -/
structure DataTimeSpec where
  validityStart : ℕ
  validityEnd : ℕ
  ordered : validityStart ≤ validityEnd
  small : validityEnd ≤ maxTimetick
  deriving DecidableEq

/-- A span given by its ends. -/
def DataTimeSpec.of (start end_ : ℕ)
    (h : start ≤ end_ ∧ end_ ≤ 4294967295 := by decide) : DataTimeSpec where
  validityStart := start
  validityEnd := end_
  ordered := h.1
  small := h.2

theorem zero_ten : 0 ≤ 10 ∧ 10 ≤ 4294967295 := by decide

theorem ten_twenty : 10 ≤ 20 ∧ 20 ≤ 4294967295 := by decide

theorem twenty_thirty : 20 ≤ 30 ∧ 30 ≤ 4294967295 := by decide

variable {D : Type}

/-- A point in the chain of an entry. -/
structure UChannelEntryData (D : Type) where
  timeOrTimeEnd : ℕ
  data : Option D
  older : Option ℕ
  newer : Option ℕ
  readAccesses : ℕ
  seqId : ℕ
  deriving DecidableEq, Repr

/-- The points that exist. -/
abbrev Heap (D : Type) := ℕ → Option (UChannelEntryData D)

namespace UChannelEntryData

/-- The next sequence id, in 32 bits. -/
def nextSeqId (n : UChannelEntryData D) : ℕ := (n.seqId + 1) % 4294967296

/-- The validity of the data starts only after the tick. -/
def afterTick (n : UChannelEntryData D) (tick : ℕ) : Bool := tick < n.timeOrTimeEnd

/-- The validity of the data starts on or after the tick. -/
def onOrAfterTick (n : UChannelEntryData D) (tick : ℕ) : Bool := tick ≤ n.timeOrTimeEnd

/-- The validity of the data starts on or before the tick. -/
def beforeTick (n : UChannelEntryData D) (tick : ℕ) : Bool := n.timeOrTimeEnd ≤ tick

/-- A new sentinel behind `current`; the count starts at one. -/
def sentinel (ts : ℕ) (currentAddr : ℕ) (current : UChannelEntryData D) :
    UChannelEntryData D where
  timeOrTimeEnd := ts
  data := none
  older := some currentAddr
  newer := none
  readAccesses := 1
  seqId := current.nextSeqId

/-- A new point with data and a given sequence id. -/
def withData (ts : ℕ) (data : Option D) (current : Option ℕ) (seqId : ℕ) :
    UChannelEntryData D where
  timeOrTimeEnd := ts
  data := data
  older := current
  newer := none
  readAccesses := 1
  seqId := seqId

/-- One more access. -/
def increment (n : UChannelEntryData D) : UChannelEntryData D :=
  { n with readAccesses := n.readAccesses + 1 }

/-- One access less. The count is unsigned and does not stop at zero. -/
def decrement (n : UChannelEntryData D) : UChannelEntryData D :=
  { n with readAccesses := if n.readAccesses = 0 then 4294967295 else n.readAccesses - 1 }

end UChannelEntryData

open UChannelEntryData

/-! ### Pointers -/

/-- The point at an address. -/
def deref (h : Heap D) (a : ℕ) : Except Fault (UChannelEntryData D) :=
  match h a with
  | some n => .ok n
  | none => .error .freedPointer

/-- Follow a link that must not be null. -/
def follow (p : Option ℕ) : Except Fault ℕ :=
  match p with
  | some a => .ok a
  | none => .error .nullPointer

/-- A failed assertion ends the program. -/
def require (b : Bool) : Except Fault Unit :=
  if b then .ok () else .error .assertion

def store (h : Heap D) (a : ℕ) (n : UChannelEntryData D) : Heap D :=
  Function.update h a (some n)

/-- Change the point at an address. -/
def modifyAt (h : Heap D) (a : ℕ) (f : UChannelEntryData D → UChannelEntryData D) :
    Except Fault (Heap D) := do
  let n ← deref h a
  pure (store h a (f n))

def incrementReadAccess (h : Heap D) (a : ℕ) : Except Fault (Heap D) :=
  modifyAt h a increment

def releaseReadAccess (h : Heap D) (a : ℕ) : Except Fault (Heap D) :=
  modifyAt h a decrement

@[simp] theorem deref_eq_ok {h : Heap D} {a : ℕ} {n : UChannelEntryData D} :
    deref h a = .ok n ↔ h a = some n := by
  rw [deref]
  cases h a <;> simp

@[simp] theorem follow_eq_ok {p : Option ℕ} {a : ℕ} : follow p = .ok a ↔ p = some a := by
  cases p <;> simp [follow]

@[simp] theorem require_eq_ok {b : Bool} {u : Unit} : require b = .ok u ↔ b = true := by
  rw [require]
  cases b <;> simp

theorem modifyAt_eq_ok {h h' : Heap D} {a : ℕ}
    {f : UChannelEntryData D → UChannelEntryData D} :
    modifyAt h a f = .ok h' ↔ ∃ n, h a = some n ∧ store h a (f n) = h' := by
  simp only [modifyAt, bind_eq_ok, deref_eq_ok, pure_eq_ok]

@[simp] theorem store_self (h : Heap D) (a : ℕ) (n : UChannelEntryData D) :
    store h a n a = some n := by
  simp [store]

theorem store_of_ne {h : Heap D} {a b : ℕ} {n : UChannelEntryData D} (hb : b ≠ a) :
    store h a n b = h b := by
  simp [store, hb]

theorem store_apply (h : Heap D) (a : ℕ) (n : UChannelEntryData D) (b : ℕ) :
    store h a n b = if b = a then some n else h b := by
  simp [store, Function.update_apply]

/-! ### The clean-up -/

/-- The difference of two sequence ids is unsigned. -/
def idDifference (m n : ℕ) : ℕ := (m + 4294967296 - n) % 4294967296

/-- The data is older than the span requested, nobody holds it, and a later
point has data, or is a gap. -/
def obsolete (h : Heap D) (n : UChannelEntryData D) (now span : ℕ) : Except Fault Bool :=
  if (n.timeOrTimeEnd + span) % 4294967296 < now && n.readAccesses = 1 then
    match n.newer with
    | none => pure false
    | some b => do
      let m ← deref h b
      pure (m.data.isSome || m.seqId = 0)
  else pure false

/-- The point is not being read and can be recycled. -/
def tryRecycle (n : UChannelEntryData D) : Bool := n.readAccesses = 1

/-! ### Clients -/

/-- A reading client at one entry: its link (`UCEntryClientLink`) and the point
it currently accesses (`UCClientHandle::accessed`). -/
structure Client where
  sequentialRead : Bool
  linked : Bool := true
  readIndex : Option ℕ
  accessed : Option ℕ := none
  seqId : ℕ := 0
  deriving DecidableEq, Repr

/-- The times for which a point is valid, as told to a client. -/
def actualTime (h : Heap D) (n : UChannelEntryData D) (eventtype : Bool) :
    Except Fault (ℕ × ℕ) :=
  if eventtype then pure (n.timeOrTimeEnd, n.timeOrTimeEnd)
  else do
    let m ← deref h (← follow n.newer)
    pure (n.timeOrTimeEnd, m.timeOrTimeEnd)

/-- Access to a point by a client that does not read sequentially. -/
def getData (h : Heap D) (a : ℕ) (c : Client) (eventtype : Bool) :
    Except Fault (Heap D × Client × Option ((ℕ × ℕ) × D)) := do
  require c.accessed.isNone
  let n ← deref h a
  if n.newer.isNone || n.readAccesses = 0 then pure (h, c, none)
  else
    let ts ← actualTime h n eventtype
    pure (store h a n.increment, { c with accessed := some a }, n.data.map fun d => (ts, d))

/-- Access to the next point by a sequential client. The count was increased when
the client got there. -/
def getSequentialData (h : Heap D) (a : ℕ) (c : Client) (eventtype : Bool) :
    Except Fault (Client × Option ((ℕ × ℕ) × D)) := do
  require c.accessed.isNone
  let n ← deref h a
  require n.newer.isSome
  require (1 < n.readAccesses)
  let ts ← actualTime h n eventtype
  pure ({ c with accessed := some a }, n.data.map fun d => (ts, d))

/-- The client is ready with its point. -/
def returnData (h : Heap D) (c : Client) : Except Fault (Heap D × Client) := do
  let h ← releaseReadAccess h (← follow c.accessed)
  pure (h, { c with accessed := none })

/-- The client takes the data of its point along. -/
def assumeData (h : Heap D) (c : Client) : Except Fault (Heap D × Client) := do
  let h ← modifyAt h (← follow c.accessed) fun n => { n.decrement with data := none }
  pure (h, { c with accessed := none })

end Dueca.Entry
