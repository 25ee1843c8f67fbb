import Dueca.Lib.Run
import Dueca.Channel.Messages

/-!
# Connecting channel ends

A node that needs a channel asks the channel manager of node 0 for it. The manager keeps a
`ChannelOrganiser` for each name, which issues ids to the ends, appoints the first writing end
as master, and tells all ends where their data has to go. It does so with updates that all nodes
read in order.

What packer a destination gets is left out, and so is the removal of ends by a node, which is
nowhere requested.
-/

namespace Dueca.Connect

open Dueca.Lib

/-- Classes of transport. -/
inductive TransportClass
  | undefinedTransport
  | regular
  | highPriority
  | bulk
  deriving DecidableEq, Repr

/-- The name of a `NameSet` without class and entity. -/
def emptyNameSet : String := "://"

/-- `validId`. -/
def validId (id : GlobalId) : Prop := id.location ≠ 0xff ∧ id.object ≠ 0xffff

instance (id : GlobalId) : Decidable (validId id) := inferInstanceAs (Decidable (_ ∧ _))

inductive NotificationType
  | newChannelEnd
  | removeEnd
  | isWritingEnd
  deriving DecidableEq, Repr

/-- What a node tells the manager. -/
structure ChannelChangeNotification where
  notificationType : NotificationType
  nameSet : String
  globalId : GlobalId
  transportclass : TransportClass := .undefinedTransport
  deriving DecidableEq, Repr

inductive UpdateType
  | addDestination
  | removeDestination
  | idIssued
  | setMaster
  | deleteEnd
  deriving DecidableEq, Repr

/-- What the manager tells a channel end. -/
structure ChannelEndUpdate where
  update : UpdateType
  nameSet : String := emptyNameSet
  endId : GlobalId
  destinationId : GlobalId := {}
  transportclass : TransportClass := .undefinedTransport
  deriving DecidableEq, Repr

/-! ### The manager -/

/-- The administration for a channel: its object id, its master, and the ids of its ends. -/
structure ChannelOrganiser where
  ns : String := emptyNameSet
  commonEndId : ℕ := 0xffff
  masterId : GlobalId := {}
  transportclass : TransportClass := .undefinedTransport
  endSpec : List GlobalId := []
  deriving DecidableEq, Repr

namespace ChannelOrganiser

variable (o : ChannelOrganiser)

def idIssued (endId : GlobalId) (nameSet : String) : ChannelEndUpdate :=
  { update := .idIssued, nameSet := nameSet, endId := endId }

def setMaster (endId : GlobalId) : ChannelEndUpdate :=
  { update := .setMaster, endId := endId, destinationId := o.masterId,
    transportclass := o.transportclass }

def addDestination (endId destinationId : GlobalId) : ChannelEndUpdate :=
  { update := .addDestination, endId := endId, destinationId := destinationId }

/-- A new end gets its id. When there is a master, it is told so, and it is connected with the
ends before it. -/
def newChannelEnd (nameSet : String) (endId : GlobalId) :
    ChannelOrganiser × List ChannelEndUpdate :=
  let o := { o with endSpec := o.endSpec ++ [endId] }
  (o, idIssued endId nameSet ::
    if validId o.masterId then
      o.setMaster endId :: (o.endSpec.takeWhile (· ≠ endId)).flatMap fun e =>
        [addDestination e endId, addDestination endId e]
    else [])

def removeEnd (endId : GlobalId) : ChannelOrganiser × List ChannelEndUpdate :=
  ({ o with endSpec := o.endSpec.erase endId }, [{ update := .deleteEnd, endId := endId }])

/-- The first writing end is the master. All ends are told so, and are connected. -/
def isWritingEnd (endId : GlobalId) (transportclass : TransportClass) :
    ChannelOrganiser × List ChannelEndUpdate :=
  if validId o.masterId then (o, [])
  else
    let o := { o with masterId := endId, transportclass := transportclass }
    (o, o.endSpec.flatMap fun e =>
      o.setMaster e :: (o.endSpec.filter (e ≠ ·)).map (addDestination e))

def handleEvent (notif : ChannelChangeNotification) : ChannelOrganiser × List ChannelEndUpdate :=
  let currentEndId : GlobalId := ⟨notif.globalId.location, o.commonEndId⟩
  match notif.notificationType with
  | .newChannelEnd => o.newChannelEnd notif.nameSet currentEndId
  | .removeEnd => o.removeEnd currentEndId
  | .isWritingEnd => o.isWritingEnd currentEndId notif.transportclass

end ChannelOrganiser

/-- The first organiser with the name handles a notification. -/
def handleFirst (notif : ChannelChangeNotification) :
    List ChannelOrganiser → List ChannelOrganiser × List ChannelEndUpdate
  | [] => ([], [])
  | o :: os =>
    if o.ns = notif.nameSet then ((o.handleEvent notif).1 :: os, (o.handleEvent notif).2)
    else (o :: (handleFirst notif os).1, (handleFirst notif os).2)

/-- The registry in node 0. The index of an organiser is its object id, the first two of which
are for local channels. -/
structure ChannelManager where
  channelIdCount : ℕ := 2
  channelOrganisation : List ChannelOrganiser := []
  deriving DecidableEq, Repr

namespace ChannelManager

/-- A new organiser, for a name that is not known yet. -/
def addOrganiser (m : ChannelManager) (nameSet : String) : ChannelManager :=
  let oid := (m.channelIdCount + 1) % 2 ^ 16
  { channelIdCount := oid
    channelOrganisation := m.channelOrganisation ++
      List.replicate (oid - m.channelOrganisation.length) {} ++
      [{ ns := nameSet, commonEndId := oid }] }

def handleChannelConfigurationRequest (m : ChannelManager) (notif : ChannelChangeNotification) :
    ChannelManager × List ChannelEndUpdate :=
  let m := if m.channelOrganisation.any (·.ns = notif.nameSet) then m
    else m.addOrganiser notif.nameSet
  ({ m with channelOrganisation := (handleFirst notif m.channelOrganisation).1 },
    (handleFirst notif m.channelOrganisation).2)

end ChannelManager

/-! ### The nodes -/

/-- An assertion that fails, an update for an end that is not there, and an input that is not
possible. -/
inductive Fault
  | assertion
  | noEnd
  | disabled
  deriving DecidableEq, Repr

/-- A channel end. `log` is all updates that it has interpreted. -/
structure ChannelEnd where
  ns : String
  id : GlobalId := {}
  masterId : GlobalId := {}
  transportClass : TransportClass := .undefinedTransport
  isMaster : Bool := false
  service : Bool := false
  destinations : List ℕ := []
  log : List ChannelEndUpdate := []
  deriving DecidableEq, Repr

namespace ChannelEnd

variable (e : ChannelEnd)

/-- What is sent for an end that has become a writing end. -/
def report : ChannelChangeNotification :=
  ⟨.isWritingEnd, e.ns, e.id, e.transportClass⟩

/-- `addRemoteDestination`. -/
def addRemoteDestination (location : ℕ) : Except Fault ChannelEnd :=
  if e.transportClass = .undefinedTransport then .error .assertion
  else .ok { e with destinations := e.destinations ++ [location] }

/-- `installService`. -/
def installService : Except Fault ChannelEnd :=
  if e.service then .error .assertion else .ok { e with service := true }

/-- Interpret an update in a node. The result is the end, and what is sent to the manager. -/
def adjustChannelEnd (location : ℕ) (u : ChannelEndUpdate) :
    Except Fault (ChannelEnd × List ChannelChangeNotification) :=
  let e := { e with log := e.log ++ [u] }
  match u.update with
  | .idIssued =>
    if u.endId.location = location then
      let e := { e with id := u.endId }
      .ok (e, if e.transportClass = .undefinedTransport then [] else [e.report])
    else .ok (e, [])
  | .setMaster =>
    if u.endId.location = location then
      let e := { e with masterId := u.destinationId, transportClass := u.transportclass }
      let e := { e with isMaster := e.id = e.masterId }
      e.installService.map (·, [])
    else .ok (e, [])
  | .addDestination =>
    if u.endId = e.id then (e.addRemoteDestination u.destinationId.location).map (·, [])
    else .ok (e, [])
  | .removeDestination => .ok (e, [])
  | .deleteEnd => .ok (e, [])

/-- `addWriteToken`: the first one defines the class of transport. -/
def addWriteToken (tclass : TransportClass) : ChannelEnd × List ChannelChangeNotification :=
  if e.transportClass = .undefinedTransport then
    let e := { e with transportClass := tclass }
    (e, if validId e.id then [e.report] else [])
  else (e, [])

end ChannelEnd

/-- A node: its channel ends, the names that it has registered by object id, the notifications
that it has sent and that the manager has not read, and how many updates it has read. -/
structure Node where
  ends : List ChannelEnd := []
  registry : List (ℕ × String) := []
  requests : List ChannelChangeNotification := []
  read : ℕ := 0
  deriving DecidableEq, Repr

namespace Node

variable (n : Node)

/-- `findOrCreateChannel`, which requests an id for a new channel. -/
def findOrCreateChannel (location : ℕ) (nameSet : String) : Node :=
  if n.ends.any (·.ns = nameSet) then n
  else
    { n with
      ends := n.ends ++ [{ ns := nameSet }]
      requests := n.requests ++ [⟨.newChannelEnd, nameSet, ⟨location, 0xffff⟩,
        .undefinedTransport⟩] }

/-- Change the end with a name, which may send notifications. -/
def atEnd (nameSet : String)
    (f : ChannelEnd → Except Fault (ChannelEnd × List ChannelChangeNotification)) :
    List ChannelEnd → Except Fault (List ChannelEnd × List ChannelChangeNotification)
  | [] => .error .noEnd
  | e :: es =>
    if e.ns = nameSet then (f e).map fun x => (x.1 :: es, x.2)
    else (atEnd nameSet f es).map fun x => (e :: x.1, x.2)

/-- An id is entered in the registry, when there is an end with the name. -/
def enterId (u : ChannelEndUpdate) : Node :=
  if u.update = .idIssued ∧ n.ends.any (·.ns = u.nameSet) = true then
    { n with registry := (u.endId.object, u.nameSet) :: n.registry }
  else n

/-- `handleChannelRegistryUpdate` -/
def handleChannelRegistryUpdate (location : ℕ) (u : ChannelEndUpdate) : Except Fault Node :=
  let n := { n with read := n.read + 1 }
  if u.endId.location = location then
    let n := n.enterId u
    match n.registry.lookup u.endId.object with
    | none => .error .noEnd
    | some nameSet =>
      (atEnd nameSet (·.adjustChannelEnd location u) n.ends).map fun x =>
        { n with ends := x.1, requests := n.requests ++ x.2 }
  else .ok n

end Node

/-! ### All together -/

/-- The manager, all updates that it has sent, and the nodes by their location. -/
structure System where
  manager : ChannelManager := {}
  updates : List ChannelEndUpdate := []
  nodes : List Node
  deriving DecidableEq, Repr

/-- What can happen: a node creates a channel end or a write token for it, the manager reads the
next notification of a node, and a node reads the next update. -/
inductive Input
  | findOrCreateChannel (k : ℕ) (nameSet : String)
  | addWriteToken (k : ℕ) (nameSet : String) (tclass : TransportClass)
  | configurationRequest (k : ℕ)
  | registryUpdate (k : ℕ)
  deriving DecidableEq, Repr

def step (sys : System) : Input → Except Fault System
  | .findOrCreateChannel k nameSet =>
    match sys.nodes[k]? with
    | none => .error .disabled
    | some n => .ok { sys with nodes := sys.nodes.set k (n.findOrCreateChannel k nameSet) }
  | .addWriteToken k nameSet tclass =>
    match sys.nodes[k]? with
    | none => .error .disabled
    | some n =>
      -- an undefined class is refused with an exception
      if tclass = .undefinedTransport ∨ n.ends.any (·.ns = nameSet) = false
      then .error .disabled
      else
        (Node.atEnd nameSet (fun e => .ok (e.addWriteToken tclass)) n.ends).map fun x =>
          { sys with
            nodes := sys.nodes.set k { n with ends := x.1, requests := n.requests ++ x.2 } }
  | .configurationRequest k =>
    match sys.nodes[k]? with
    | none => .error .disabled
    | some n =>
      match n.requests with
      | [] => .error .disabled
      | r :: rs =>
        let (m, us) := sys.manager.handleChannelConfigurationRequest r
        .ok { sys with
          manager := m
          updates := sys.updates ++ us
          nodes := sys.nodes.set k { n with requests := rs } }
  | .registryUpdate k =>
    match sys.nodes[k]? with
    | none => .error .disabled
    | some n =>
      match sys.updates[n.read]? with
      | none => .error .disabled
      | some u => (n.handleChannelRegistryUpdate k u).map fun n =>
          { sys with nodes := sys.nodes.set k n }

/-- A number of nodes, without channels. -/
def System.start (nodes : ℕ) : System where
  nodes := List.replicate nodes {}

end Dueca.Connect
