import Dueca.Lib.Tree
import Dueca.Lib.Run

/-!
# A tree of status reports

A `Summary` is a node in a tree. Its id is the list of the parts of a name; that of a child has one
part more. A leaf has a status that is reported, and an inner node one that is calculated from those
of its children when somebody asks for it, and kept until it is dirty.

`Keeping` also records the status last given for each id, and the ids that have been inserted.
Nothing in the model reads these records.
-/

namespace Dueca.Status

open Dueca.Lib

variable {N S : Type}

/-! ### Ids -/

/-- The parts of a name. -/
abbrev ModuleId (N : Type) := List N

/-- The first parts of the other id are those of this one. -/
def isMeOrDescendant [DecidableEq N] (me o : ModuleId N) : Bool := me.isPrefixOf o

def isMe [DecidableEq N] (me o : ModuleId N) : Bool := o.length = me.length && isMeOrDescendant me o

/-! ### The tree -/

/-- A node, with its branches. -/
inductive Summary (N S : Type)
  | mk (linkId : ModuleId N) (status : S) (dirty : Bool) (branches : List (Summary N S))

namespace Summary

def linkId : Summary N S → ModuleId N
  | mk l _ _ _ => l

def dirty : Summary N S → Bool
  | mk _ _ d _ => d

def branches : Summary N S → List (Summary N S)
  | mk _ _ _ bs => bs

/-- Induction with all branches. -/
@[elab_as_elim]
theorem induction {P : Summary N S → Prop} (mk : ∀ l st d bs, (∀ b ∈ bs, P b) → P (.mk l st d bs))
    (t : Summary N S) : P t :=
  @Summary.rec N S P (fun bs => ∀ b ∈ bs, P b) mk (fun _ h => absurd h List.not_mem_nil)
    (fun _ _ hb hbs _ h => (List.mem_cons.mp h).elim (fun heq => heq ▸ hb) (hbs _)) t

section Status

variable (combine : S → S → S) (clear : S)

mutual

/-- The status, and the node afterwards. -/
def getOrCalculateStatus : Summary N S → S × Summary N S
  | mk l st d bs =>
    if d = true ∧ bs ≠ [] then
      let res := getOrCalculateAll clear bs
      (res.1, mk l res.1 false res.2)
    else (st, mk l st false bs)

/-- The loop over the branches. -/
def getOrCalculateAll : S → List (Summary N S) → S × List (Summary N S)
  | acc, [] => (acc, [])
  | acc, b :: bs =>
    let res := getOrCalculateStatus b
    let rest := getOrCalculateAll (combine acc res.1) bs
    (rest.1, res.2 :: rest.2)

end

end Status

variable [DecidableEq N] [DecidableEq S]

mutual

/-- `updateStatus`: nothing when the id is not found; otherwise whether nodes become dirty from here
upwards, and the node afterwards. -/
def updateStatus (id : ModuleId N) (newstatus : S) : Summary N S → Option (Bool × Summary N S)
  | mk l st d bs =>
    if isMe l id then
      if st = newstatus then some (false, mk l st d bs) else some (true, mk l newstatus true bs)
    else if bs ≠ [] ∧ isMeOrDescendant l id = true then
      match updateBranches id newstatus bs with
      | some (changed, bs') => some (changed, mk l st (d || changed) bs')
      | none => none
    else none

/-- The first branch that finds the id. -/
def updateBranches (id : ModuleId N) (newstatus : S) :
    List (Summary N S) → Option (Bool × List (Summary N S))
  | [] => none
  | b :: bs =>
    match updateStatus id newstatus b with
    | some (changed, b') => some (changed, b' :: bs)
    | none =>
      match updateBranches id newstatus bs with
      | some (changed, bs') => some (changed, b :: bs')
      | none => none

end

/-- A new node for the id without its last `n` parts, and the nodes that are inserted below it for
these. -/
def chain (id : ModuleId N) (status : S) : ℕ → Summary N S
  | 0 => mk id status true []
  | n + 1 => mk (id.take (id.length - (n + 1))) status true [chain id status n]

mutual

/-- `insertLinkAndStatus`: nothing when the id does not belong here. -/
def insertLinkAndStatus (id : ModuleId N) (status : S) : Summary N S → Option (Summary N S)
  | mk l st d bs =>
    if isMeOrDescendant l id = false then none
    else if isMe l id then some (mk l st d bs)
    else
      match insertInBranches id status bs with
      | some bs' => some (mk l st d bs')
      | none => some (mk l st d (bs ++ [chain id status (id.length - (l.length + 1))]))

/-- The first branch to which the id belongs. -/
def insertInBranches (id : ModuleId N) (status : S) :
    List (Summary N S) → Option (List (Summary N S))
  | [] => none
  | b :: bs =>
    match insertLinkAndStatus id status b with
    | some b' => some (b' :: bs)
    | none =>
      match insertInBranches id status bs with
      | some bs' => some (b :: bs')
      | none => none

end

mutual

/-- `findSummary`. -/
def findSummary (id : ModuleId N) : Summary N S → Option (Summary N S)
  | mk l st d bs =>
    if isMe l id then some (mk l st d bs)
    else if bs ≠ [] ∧ isMeOrDescendant l id = true then findInBranches id bs
    else none

/-- Only the first branch with a fitting id is asked. -/
def findInBranches (id : ModuleId N) : List (Summary N S) → Option (Summary N S)
  | [] => none
  | b :: bs => if isMeOrDescendant b.linkId id then findSummary id b else findInBranches id bs

end

mutual

/-- `existsSummary`. -/
def existsSummary (id : ModuleId N) : Summary N S → Bool
  | mk l _ _ bs =>
    if isMe l id then true
    else if bs ≠ [] ∧ isMeOrDescendant l id = true then existsInBranches id bs
    else false

def existsInBranches (id : ModuleId N) : List (Summary N S) → Bool
  | [] => false
  | b :: bs => if isMeOrDescendant b.linkId id then existsSummary id b else existsInBranches id bs

end

mutual

/-- The tree with another node in the place of the one that `findSummary` finds. -/
def replace (id : ModuleId N) (node : Summary N S) : Summary N S → Summary N S
  | mk l st d bs =>
    if isMe l id then node
    else if bs ≠ [] ∧ isMeOrDescendant l id = true then mk l st d (replaceInBranches id node bs)
    else mk l st d bs

def replaceInBranches (id : ModuleId N) (node : Summary N S) :
    List (Summary N S) → List (Summary N S)
  | [] => []
  | b :: bs =>
    if isMeOrDescendant b.linkId id then replace id node b :: bs
    else b :: replaceInBranches id node bs

end

end Summary

/-! ### The tree in use -/

/-- A tree, with the status last given for each id, and the ids for which the insertion has returned
true. -/
structure Keeping (N S : Type) where
  root : Summary N S
  given : ModuleId N → S
  inserted : List (ModuleId N)

/-- A root alone. -/
def Keeping.init (id : ModuleId N) (status : S) : Keeping N S where
  root := .mk id status true []
  given := fun _ => status
  inserted := [id]

/-- The calls. -/
inductive StatusOp (N S : Type)
  | insertLinkAndStatus (id : ModuleId N) (status : S)
  | updateStatus (id : ModuleId N) (newstatus : S)
  | getOrCalculateStatus (id : ModuleId N)
  deriving DecidableEq

namespace Keeping

variable [DecidableEq N] [DecidableEq S] (combine : S → S → S) (clear : S)

/-- One call. The status of a node is asked for with the node that `findSummary` gives, which throws
when there is none. -/
def step (k : Keeping N S) : StatusOp N S → Except Unit (Keeping N S)
  | .insertLinkAndStatus id status =>
    match k.root.insertLinkAndStatus id status with
    | some root =>
      .ok
        { root := root
          given := Function.update k.given id status
          inserted := k.inserted ++ [id] }
    | none => .ok k
  | .updateStatus id newstatus =>
    match k.root.updateStatus id newstatus with
    | some (_, root) =>
      .ok { k with root := root, given := Function.update k.given id newstatus }
    | none => .ok k
  | .getOrCalculateStatus id =>
    match k.root.findSummary id with
    | some node =>
      .ok { k with root := .replace id (node.getOrCalculateStatus combine clear).2 k.root }
    | none => .ok k

end Keeping

end Dueca.Status
