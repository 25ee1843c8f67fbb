import Dueca.Lib.Run
import Dueca.Objects.Registry

/-!
# The object managers

Each node has an object manager, which gives the objects of the node their numbers, and has them in
a registry. The names go to node 0, in order: these of node 0 at once, those of other nodes over a
channel, once that can be used. Node 0 thus has for each node a list of names, with the name of an
object in the place of its number. That a name comes in its place is asserted.

The number of an object is taken before the registry has been asked whether the name is free.
-/

namespace Dueca.Objects

/-- A composed name, `class://entity/part`. -/
abbrev NameSet := List Char

/-- `NameSet("", "", "")` -/
def nsdum : NameSet := [':', '/', '/']

structure GlobalId where
  locationId : ℕ
  objectId : ℕ
  deriving DecidableEq

structure ModuleIdList (O : Type) where
  ns : NameSet
  object : GlobalId
  cmp : Option O

/-- What `ModuleIdList()` gives. -/
def ModuleIdList.empty {O : Type} : ModuleIdList O := ⟨nsdum, ⟨0xff, 0xffff⟩, none⟩

/-- The event that goes to node 0. -/
structure ObjectInfo where
  id : GlobalId
  nameSet : NameSet

/-- An object manager. Numbers have 16 bits. The write token is there, and valid, from some moment
on. -/
structure ObjectManager (O : Type) where
  objectRegistry : Registry (ModuleIdList O)
  location : ℕ
  noNodes : ℕ
  objectIdCount : ℕ
  objectIdSent : ℕ
  writeValid : Bool
  allObjectNames : List (List NameSet)

namespace ObjectManager

variable {O : Type}

/-- The manager when `complete` has reserved room for the names, at node 0. -/
def init (location noNodes : ℕ) : ObjectManager O where
  objectRegistry := Registry.init .empty 20
  location := location
  noNodes := noNodes
  objectIdCount := 0
  objectIdSent := 0
  writeValid := false
  allObjectNames := if location = 0 then List.replicate noNodes [] else []

variable (m : ObjectManager O)

def containsId (id : ℕ) : Bool := m.objectRegistry.contains (·.ns) .empty id

def containsName (ns : NameSet) : Bool := m.objectRegistry.containsName (·.ns) ns

/-- `getNameSet`, with an `ObjectId` -/
def getNameSet (id : ℕ) : NameSet :=
  if m.containsId id then (m.objectRegistry.find .empty id).ns else nsdum

/-- `getObject` -/
def getObject (id : ℕ) : Option O :=
  if m.containsId id then (m.objectRegistry.find .empty id).cmp else none

/-- `findObject` -/
def findObject (ns : NameSet) : Option O :=
  if m.containsName ns then (m.objectRegistry.findName (·.ns) .empty ns).cmp else none

/-- `sendAllToNode0`. The loop goes on while less has been sent than counted. -/
def sendAllToNode0 : ObjectManager O × List ObjectInfo :=
  if m.location > 0 ∧ m.writeValid then
    ({ m with objectIdSent := max m.objectIdSent m.objectIdCount },
      (List.range' m.objectIdSent (m.objectIdCount - m.objectIdSent)).map fun i =>
        ⟨⟨m.location, i⟩, m.getNameSet i⟩)
  else (m, [])

/-- A name at the end of the list for a node, where it is asserted that this is its place. -/
def storeName (id : GlobalId) (ns : NameSet) : Except Unit (ObjectManager O) :=
  match m.allObjectNames[id.locationId]? with
  | none => .error ()
  | some names =>
    if id.objectId = names.length then
      .ok { m with allObjectNames := m.allObjectNames.set id.locationId (names ++ [ns]) }
    else .error ()

/-- `requestId`: the manager with the new id, if the name was free, and what is written. It fails
on an assertion. -/
def requestId (o : O) (ns : NameSet) :
    Except Unit (ObjectManager O × Option GlobalId × List ObjectInfo) :=
  let newId : GlobalId := ⟨m.location, m.objectIdCount⟩
  let m := { m with objectIdCount := (m.objectIdCount + 1) % 2 ^ 16 }
  match m.objectRegistry.insert (·.ns) .empty newId.objectId ⟨ns, newId, some o⟩ with
  | .error _ => .ok (m, none, [])
  | .ok reg =>
    let m := { m with objectRegistry := reg }
    if m.location > 0 then .ok (m.sendAllToNode0.1, some newId, m.sendAllToNode0.2)
    else
      match m.storeName ⟨0, newId.objectId⟩ ns with
      | .error _ => .error ()
      | .ok m => .ok (m, some newId, [])

/-- `releaseId` -/
def releaseId (id : ℕ) : ObjectManager O :=
  if m.containsId id then
    { m with objectRegistry := m.objectRegistry.remove (·.ns) .empty id }
  else m

/-- `readForeignObjects`, with two assertions. -/
def readForeignObjects (e : ObjectInfo) : Except Unit (ObjectManager O) :=
  if e.id.locationId < m.noNodes then m.storeName e.id e.nameSet else .error ()

end ObjectManager

/-! ### The nodes -/

/-- The nodes `0` to `k`, and what these have written that node 0 has not read. -/
structure System (k : ℕ) (O : Type) where
  managers : Fin (k + 1) → ObjectManager O
  written : Fin (k + 1) → List ObjectInfo

/-- A call at a node: a request, a release, a change of the validity of the write token, another
call of `sendAllToNode0`, and a read at node 0 of what the node has written. -/
inductive Call (k : ℕ) (O : Type)
  | request (n : Fin (k + 1)) (o : O) (ns : NameSet)
  | release (n : Fin (k + 1)) (id : ℕ)
  | tokenValid (n : Fin (k + 1)) (valid : Bool)
  | sendAll (n : Fin (k + 1))
  | read (n : Fin (k + 1))

inductive Answer
  | issued (id : GlobalId)
  | refused
  | done
  deriving DecidableEq

namespace System

variable {k : ℕ} {O : Type}

def init (k : ℕ) (O : Type) : System k O := ⟨fun n => .init n (k + 1), fun _ => []⟩

/-- A node with its manager changed, and with more that it has written. -/
def set (s : System k O) (n : Fin (k + 1)) (m : ObjectManager O) (out : List ObjectInfo) :
    System k O :=
  ⟨Function.update s.managers n m, Function.update s.written n (s.written n ++ out)⟩

/-- A call, which fails when an assertion does. -/
def step (s : System k O) : Call k O → Except Unit (System k O × Answer)
  | .request n o ns =>
    match (s.managers n).requestId o ns with
    | .error e => .error e
    | .ok (m, none, out) => .ok (s.set n m out, .refused)
    | .ok (m, some id, out) => .ok (s.set n m out, .issued id)
  | .release n id => .ok (s.set n ((s.managers n).releaseId id) [], .done)
  | .tokenValid n valid => .ok (s.set n { s.managers n with writeValid := valid } [], .done)
  | .sendAll n =>
    .ok (s.set n (s.managers n).sendAllToNode0.1 (s.managers n).sendAllToNode0.2, .done)
  | .read n =>
    match s.written n with
    | [] => .ok (s, .done)
    | e :: rest =>
      match (s.managers 0).readForeignObjects e with
      | .error e => .error e
      | .ok m =>
        .ok (⟨Function.update s.managers 0 m, Function.update s.written n rest⟩, .done)

end System

end Dueca.Objects
