import Dueca.Lib.Run
import Dueca.IpRing.Numbers

/-!
# The ring of nodes on an IP network

Node 0 starts a cycle by sending its data; then each node sends its data in turn. Node 0 goes on
to the next cycle when it has data from all, and a confirmation from all but the last, whose data
shows that it got that of the others. A node that waits in vain goes back to waiting for node 0,
and node 0 repeats the cycle.

Datagrams for a node keep their order per sender, and may be lost. A wait may time out whether or
not there is a datagram on its way.
-/

namespace Dueca.IpRing

open Function

variable {α : Type}

/-- The assertions of the code. -/
inductive Fault
  | ioCyclePhase
  | sendOrder
  deriving DecidableEq

inductive CommState
  | syncOnZero
  | dataReceive
  | dataSend
  | waitConfirm
  | sendConfirm
  deriving DecidableEq

/-- How far node 0 is with its cycle. -/
inductive MasterState
  | idle
  | receiving
  | confirming
  deriving DecidableEq

/-- A datagram with data. -/
structure Datagram (α : Type) where
  payload : α
  missedData : Bool
  packetNo : ℕ

/-- A confirmation. -/
structure Confirm where
  missedData : Bool
  packetNo : ℕ

/-- A node. `bytesToSend` is the payload in the store that is being sent. The last three are
histories: what it packed, what it handed over from each node, and what it sent, with how much it
had packed then. -/
structure Accessor (α : Type) where
  currentPacketNo : ℕ → ℕ
  bytesToSend : Option α
  iMissedData : Bool
  allOk : Bool
  ioCyclePhase : ℕ
  commState : CommState
  masterState : MasterState
  purgeExtraMessages : Bool
  packed : List α
  handed : ℕ → List α
  sent : List (ℕ × Datagram α)

namespace Accessor

/-- Pack new data, if the old data was accepted, and send it. -/
def sendMyData (order : ℕ) (fresh : α) (a : Accessor α) : Accessor α × Datagram α :=
  let payload := a.bytesToSend.getD fresh
  let packed := if a.bytesToSend.isSome then a.packed else a.packed ++ [fresh]
  let d : Datagram α :=
    { payload := payload, missedData := a.iMissedData, packetNo := a.currentPacketNo order }
  ({ a with
    bytesToSend := some payload
    packed := packed
    sent := a.sent ++ [(packed.length, d)] }, d)

/-- Something went wrong; node 0 repeats the cycle. -/
def setForCleaningRound (a : Accessor α) : Accessor α :=
  { a with
    currentPacketNo := update a.currentPacketNo 0 (nextRepeat (a.currentPacketNo 0))
    iMissedData := false
    masterState := .idle }

/-- Hand over the data from node `p`, if the datagram is of a new cycle. -/
def getDuecaData (p : ℕ) (d : Datagram α) (a : Accessor α) : Accessor α :=
  if packetAfter (upper d.packetNo) (upper (a.currentPacketNo p)) then
    { a with
      handed := update a.handed p (a.handed p ++ [d.payload])
      currentPacketNo := update a.currentPacketNo p d.packetNo }
  else a

/-- Wait for node 0 again. -/
def resync (a : Accessor α) : Accessor α :=
  { a with ioCyclePhase := 0, commState := .syncOnZero, purgeExtraMessages := true }

/-- The end of a cycle of node 0. -/
def endCycle (a : Accessor α) : Accessor α :=
  if a.allOk then
    { a with
      currentPacketNo := update a.currentPacketNo 0 (nextCycle (a.currentPacketNo 0))
      iMissedData := false
      bytesToSend := none
      masterState := .idle }
  else a.setForCleaningRound

/-- Go on to the confirmation from node `p`, if there is one. -/
def confirmFrom (p : ℕ) (a : Accessor α) : Accessor α :=
  if p = 0 then a.endCycle
  else { a with ioCyclePhase := p, masterState := .confirming }

/-- Go on to the data of node `p`, if there is one. -/
def receiveFrom (noOfSenders p : ℕ) (a : Accessor α) : Accessor α :=
  if p < noOfSenders then { a with ioCyclePhase := p, masterState := .receiving }
  else a.confirmFrom (noOfSenders - 2)

/-- Go on with the data of the next node, or with my own. -/
def receiveNext (noOfSenders order : ℕ) (a : Accessor α) : Accessor α :=
  let a := { a with ioCyclePhase := a.ioCyclePhase + 1 }
  if a.ioCyclePhase = order then { a with commState := .dataSend }
  else if a.ioCyclePhase = noOfSenders then
    if order = noOfSenders - 2 then { a with commState := .sendConfirm }
    else { a with commState := .waitConfirm, ioCyclePhase := order + 1 }
  else a

end Accessor

/-- What the environment does with a node that is running: whether a datagram arrives before the
time-out, how many more are there, and the data to pack. -/
structure Outcome (α : Type) where
  arrives : Bool
  extra : ℕ
  fresh : α

/-- The nodes, and the datagrams on their way, by sender and receiver. -/
structure Ring (α : Type) where
  noOfSenders : ℕ
  nodes : ℕ → Accessor α
  data : ℕ → ℕ → List (Datagram α)
  confirms : ℕ → ℕ → List Confirm

namespace Ring

def setNode (w : Ring α) (i : ℕ) (a : Accessor α) : Ring α :=
  { w with nodes := update w.nodes i a }

def sendData (w : Ring α) (i : ℕ) (d : Datagram α) : Ring α :=
  { w with data := update w.data i fun t => w.data i t ++ [d] }

def sendConfirm (w : Ring α) (i : ℕ) (d : Confirm) : Ring α :=
  { w with confirms := update w.confirms i fun t => w.confirms i t ++ [d] }

/-- What is left after a datagram was read. -/
def leaveData (w : Ring α) (s t : ℕ) (rest : List (Datagram α)) : Ring α :=
  { w with data := update w.data s (update (w.data s) t rest) }

def leaveConfirms (w : Ring α) (s t : ℕ) (rest : List Confirm) : Ring α :=
  { w with confirms := update w.confirms s (update (w.confirms s) t rest) }

/-- Node 0, up to its next wait. -/
def despatch0 (w : Ring α) (o : Outcome α) : Ring α :=
  let a := w.nodes 0
  match a.masterState with
  | .idle =>
    let (a, d) := a.sendMyData 0 o.fresh
    (w.setNode 0 ({ a with allOk := true }.receiveFrom w.noOfSenders 1)).sendData 0 d
  | .receiving =>
    match if o.arrives then w.data a.ioCyclePhase 0 else [] with
    | [] => w.setNode 0 a.setForCleaningRound
    | d :: rest =>
      let w := w.leaveData a.ioCyclePhase 0 rest
      -- until the number is the one that was sent
      if a.currentPacketNo 0 ≠ d.packetNo then w
      else
        let a := a.getDuecaData a.ioCyclePhase d
        w.setNode 0 ({ a with allOk := a.allOk && !d.missedData }.receiveFrom w.noOfSenders
          (a.ioCyclePhase + 1))
  | .confirming =>
    match if o.arrives then w.confirms a.ioCyclePhase 0 else [] with
    | [] => w.setNode 0 a.setForCleaningRound
    | d :: rest =>
      let w := w.leaveConfirms a.ioCyclePhase 0 rest
      if a.currentPacketNo 0 ≠ d.packetNo then w
      else
        w.setNode 0 ({ a with allOk := a.allOk && !d.missedData }.confirmFrom (a.ioCyclePhase - 1))

/-- The confirmation of node `i`; then it waits for node 0 again. -/
def sendMyConfirm (w : Ring α) (i : ℕ) (a : Accessor α) : Except Fault (Ring α) :=
  if ¬ 2 < w.noOfSenders ∨ ¬ i < w.noOfSenders - 1 then throw .sendOrder
  else
    pure ((w.setNode i { a with ioCyclePhase := 0, commState := .syncOnZero }).sendConfirm i
      { missedData := a.iMissedData, packetNo := a.currentPacketNo i })

/-- The last of the datagrams that are there, if extra ones are to be purged; and what is left. -/
def spinToLast (purge : Bool) (extra : ℕ) (d : Datagram α) (rest : List (Datagram α)) :
    Datagram α × List (Datagram α) :=
  if purge || d.missedData then (((rest.take extra).getLast?).getD d, rest.drop extra)
  else (d, rest)

/-- Another node, up to its next wait. -/
def despatch1toN (w : Ring α) (i : ℕ) (o : Outcome α) : Except Fault (Ring α) :=
  let a := w.nodes i
  match a.commState with
  | .dataSend =>
    if a.ioCyclePhase ≠ i then throw .ioCyclePhase
    else
      let (a, d) := a.sendMyData i o.fresh
      let phase := a.ioCyclePhase + 1
      let a := if phase = w.noOfSenders then { a with ioCyclePhase := 0, commState := .syncOnZero }
        else { a with ioCyclePhase := phase, commState := .dataReceive }
      pure ((w.setNode i a).sendData i d)
  | .dataReceive =>
    if ¬ a.ioCyclePhase < w.noOfSenders ∨ a.ioCyclePhase = i ∨ a.ioCyclePhase = 0 then
      throw .ioCyclePhase
    else
      match if o.arrives then w.data a.ioCyclePhase i else [] with
      | [] => pure (w.setNode i a.resync)
      | d :: rest =>
        let w := w.leaveData a.ioCyclePhase i rest
        -- until the number is not older than that of node 0
        if packetAfter (a.currentPacketNo i) d.packetNo then pure w
        else pure (w.setNode i ((a.getDuecaData a.ioCyclePhase d).receiveNext w.noOfSenders i))
  | .waitConfirm =>
    if ¬ i < w.noOfSenders - 2 ∨ ¬ 3 < w.noOfSenders then throw .sendOrder
    else
      match if o.arrives then w.confirms (i + 1) i else [] with
      | [] => pure (w.setNode i a.resync)
      | d :: rest =>
        let w := w.leaveConfirms (i + 1) i rest
        if packetAfter (a.currentPacketNo i) d.packetNo then pure w
        else w.sendMyConfirm i a
  | .sendConfirm => w.sendMyConfirm i a
  | .syncOnZero =>
    if a.ioCyclePhase ≠ 0 then throw .ioCyclePhase
    else
      let a := { a with iMissedData := false }
      match if o.arrives then w.data 0 i else [] with
      | [] => pure (w.setNode i a)
      | d :: rest =>
        let (d, rest) := spinToLast a.purgeExtraMessages o.extra d rest
        let w := w.leaveData 0 i rest
        -- with a new cycle, old data is not sent again
        let a := { a with
          purgeExtraMessages := false
          bytesToSend :=
            if packetAfter (upper d.packetNo) (upper (a.currentPacketNo 0)) then none
            else a.bytesToSend }
        let a := a.getDuecaData 0 d
        let a := { a with
          currentPacketNo := update a.currentPacketNo i d.packetNo
          ioCyclePhase := 1
          commState := if i = 1 then .dataSend else .dataReceive }
        pure (w.setNode i a)

end Ring

/-- A node goes on, or a datagram is lost. -/
inductive Step (α : Type)
  | run (i : ℕ) (o : Outcome α)
  | loseData (s t k : ℕ)
  | loseConfirm (s t k : ℕ)

def step (w : Ring α) : Step α → Except Fault (Ring α)
  | .run i o =>
    if i = 0 then pure (w.despatch0 o)
    else if i < w.noOfSenders then w.despatch1toN i o
    else pure w
  | .loseData s t k => pure (w.leaveData s t ((w.data s t).eraseIdx k))
  | .loseConfirm s t k => pure (w.leaveConfirms s t ((w.confirms s t).eraseIdx k))

/-- A node before any communication. -/
def Accessor.start (α : Type) (order : ℕ) : Accessor α where
  currentPacketNo := if order = 0 then update (fun _ => 0) 0 0x1000 else fun _ => 0
  bytesToSend := none
  iMissedData := false
  allOk := true
  ioCyclePhase := 0
  commState := .syncOnZero
  masterState := .idle
  purgeExtraMessages := true
  packed := []
  handed := fun _ => []
  sent := []

/-- Node 0 and a number of others, before any communication. -/
def Ring.start (α : Type) (others : ℕ) : Ring α where
  noOfSenders := others + 1
  nodes := Accessor.start α
  data := fun _ _ => []
  confirms := fun _ _ => []

end Dueca.IpRing
