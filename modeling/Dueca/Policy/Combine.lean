import Dueca.Lib.Product
import Mathlib.Algebra.Order.Ring.Rat
import Mathlib.Algebra.Field.Rat

/-!
# Combined conditions

A condition gives lists of match references, under the names of variables. A combination goes
through the tuples with one reference of each of its input variables. The members of a tuple are to
agree on the match elements; for an agreeing tuple there is a reference in the result, with the
product of the values of its members (and), or the greatest one (or).

The members are compared with a running value, which is that of the first member that has one. So
a member without a value fits before this one, but not after it.
-/

namespace Dueca.Policy

open Dueca.Lib

/-- A match reference: its value, and its other attributes, each of them possibly `None`. -/
structure MatchReference (E X : Type) where
  value : ℚ
  attrs : E → Option (Option X)

/-- The input variables from which a result takes an element. -/
structure Selection (V : Type) where
  first : V
  others : List V

/-- Both kinds of combination. -/
inductive Kind
  | and
  | or
  deriving DecidableEq

def Kind.op : Kind → ℚ → ℚ → ℚ
  | and => (· * ·)
  | or => max

variable {V E X : Type} [DecidableEq V] [DecidableEq E] [DecidableEq X]

/-! ### A tuple -/

/-- The loop over the further inputs, for one element: whether they fit, and the running value. -/
def matchElt (elt : E) : Option X → List (MatchReference E X) → Except Unit (Bool × Option X)
  | eltval, [] => .ok (true, eltval)
  | eltval, iv :: inputs =>
    match iv.attrs elt with
    | none => .error ()
    | some nval =>
      match eltval with
      | none => matchElt elt nval inputs
      | some x => if some x ≠ nval then .ok (false, some x) else matchElt elt (some x) inputs

/-- The loop over the match elements. It goes on after a mismatch. -/
def matchElts (i0 : MatchReference E X) (inputs : List (MatchReference E X)) :
    Bool → (E → Option (Option X)) → List E → Except Unit (Bool × (E → Option (Option X)))
  | matching, matchresult, [] => .ok (matching, matchresult)
  | matching, matchresult, elt :: matchelts =>
    match i0.attrs elt with
    | none => .error ()
    | some eltval =>
      match matchElt elt eltval inputs with
      | .error e => .error e
      | .ok (found, none) => matchElts i0 inputs (matching && found) matchresult matchelts
      | .ok (found, some x) =>
        matchElts i0 inputs (matching && found) (Function.update matchresult elt (some (some x)))
          matchelts

/-- An element of the input for a variable. -/
def inputElt (inputvars : List V) (inputs : List (MatchReference E X)) (ekey : E) (eit : V) :
    Except Unit (Option X) :=
  match inputvars.idxOf? eit with
  | none => .error ()
  | some idx =>
    match inputs[idx]? with
    | none => .error ()
    | some iv =>
      match iv.attrs ekey with
      | none => .error ()
      | some x => .ok x

/-- The loop over the further variables of a selection. How values are combined depends on the class
of the first one. -/
def combineFurther (cfun : Option X → Option X → Option X) (inputvars : List V)
    (inputs : List (MatchReference E X)) (ekey : E) : Option X → List V → Except Unit (Option X)
  | res, [] => .ok res
  | res, eit :: eits =>
    match inputElt inputvars inputs ekey eit with
    | .error e => .error e
    | .ok x => combineFurther cfun inputvars inputs ekey (cfun res x) eits

/-- `_combine_elts`. -/
def combineElts (funmapping : Option X → Option X → Option X → Option X) (inputvars : List V)
    (selection : Selection V) (ekey : E) (inputs : List (MatchReference E X)) :
    Except Unit (Option X) :=
  match inputElt inputvars inputs ekey selection.first with
  | .error e => .error e
  | .ok first => combineFurther (funmapping first) inputvars inputs ekey first selection.others

/-- The loop over the result elements. -/
def addResults (funmapping : Option X → Option X → Option X → Option X) (inputvars : List V)
    (inputs : List (MatchReference E X)) :
    (E → Option (Option X)) → List (E × Selection V) → Except Unit (E → Option (Option X))
  | attrs, [] => .ok attrs
  | attrs, (ekey, eit) :: resultelts =>
    match combineElts funmapping inputvars eit ekey inputs with
    | .error e => .error e
    | .ok x =>
      addResults funmapping inputvars inputs (Function.update attrs ekey (some x)) resultelts

/-- The loop body for a tuple: the reference that is added to the result, if any. -/
def combineTuple (kind : Kind) (funmapping : Option X → Option X → Option X → Option X)
    (inputvars : List V) (matchelts : List E) (resultelts : List (E × Selection V)) (trim : Bool) :
    List (MatchReference E X) → Except Unit (Option (MatchReference E X))
  | [] => .error ()
  | i0 :: inputs =>
    match matchElts i0 inputs true (fun _ => none) matchelts with
    | .error e => .error e
    | .ok (false, _) => .ok none
    | .ok (true, matchresult) =>
      let value := inputs.foldl (fun value iv => kind.op value iv.value) i0.value
      if value ≠ 0 ∨ trim = false then
        match addResults funmapping inputvars (i0 :: inputs) matchresult resultelts with
        | .error e => .error e
        | .ok attrs => .ok (some { value := value, attrs := attrs })
      else .ok none

/-! ### All tuples -/

/-- The loop over the tuples. -/
def combineTuples (body : List (MatchReference E X) → Except Unit (Option (MatchReference E X))) :
    List (List (MatchReference E X)) → Except Unit (List (MatchReference E X))
  | [] => .ok []
  | inputs :: rest =>
    match body inputs with
    | .error e => .error e
    | .ok none => combineTuples body rest
    | .ok (some mr) =>
      match combineTuples body rest with
      | .error e => .error e
      | .ok res => .ok (mr :: res)

/-- The lists of the variables, in their order. -/
def lists (kwargs : V → Option (List (MatchReference E X))) :
    List V → Except Unit (List (List (MatchReference E X)))
  | [] => .ok []
  | v :: vs =>
    match kwargs v with
    | none => .error ()
    | some l =>
      match lists kwargs vs with
      | .error e => .error e
      | .ok ls => .ok (l :: ls)

/-- What `_combine_and` and `_combine_or` share. -/
def combine (kind : Kind) (funmapping : Option X → Option X → Option X → Option X)
    (kwargs : V → Option (List (MatchReference E X))) (inputvars : List V) (matchelts : List E)
    (resultelts : List (E × Selection V)) (trim : Bool) : Except Unit (List (MatchReference E X)) :=
  match lists kwargs inputvars with
  | .error e => .error e
  | .ok ls =>
    combineTuples (combineTuple kind funmapping inputvars matchelts resultelts trim) (product ls)

/-- `_combine_and`. -/
def combineAnd (funmapping : Option X → Option X → Option X → Option X)
    (kwargs : V → Option (List (MatchReference E X))) (inputvars : List V) (matchelts : List E)
    (resultelts : List (E × Selection V)) (trim : Bool) : Except Unit (List (MatchReference E X)) :=
  combine .and funmapping kwargs inputvars matchelts resultelts trim

/-- `_combine_or`. -/
def combineOr (funmapping : Option X → Option X → Option X → Option X)
    (kwargs : V → Option (List (MatchReference E X))) (inputvars : List V) (matchelts : List E)
    (resultelts : List (E × Selection V)) (trim : Bool) : Except Unit (List (MatchReference E X)) :=
  combine .or funmapping kwargs inputvars matchelts resultelts trim

/-! ### The trim option -/

/-- `XML_interpret_bool`; `none` for `None`, which is no true value. -/
def XMLInterpretBool (val : String) : Option Bool :=
  if val.toLower ∈ ["true", "yes"] then some true
  else if val.toLower ∈ ["false", "no"] then some false
  else val.toInt?.map (· ≠ 0)

/-- The parameters of a condition that are not bound to names of the constructor. -/
def kwargsOf (names : List String) (params : String → Option String) : String → Option String :=
  fun name => if name ∈ names then none else params name

/-- The option as it has been given. -/
def trimGiven (params : String → Option String) : Option Bool :=
  XMLInterpretBool ((params "trim").getD "false")

def ConditionAnd.trim (params : String → Option String) : Option Bool :=
  XMLInterpretBool ((params "trim").getD "false")

/-- The option is looked up among the parameters not bound to names, but it is bound to one. -/
def ConditionOr.trim (params : String → Option String) : Option Bool :=
  XMLInterpretBool ((kwargsOf ["trim", "matchelts"] params "trim").getD "false")

/-- No option that is given has an effect. -/
theorem ConditionOr.trim_eq (params : String → Option String) :
    ConditionOr.trim params = some false := by
  rw [ConditionOr.trim, kwargsOf, if_pos List.mem_cons_self]
  decide +kernel

/-- The result variable of a condition with these parameters. -/
def resultvar (kind : Kind) (params : String → Option String)
    (funmapping : Option X → Option X → Option X → Option X)
    (kwargs : V → Option (List (MatchReference E X))) (inputvars : List V) (matchelts : List E)
    (resultelts : List (E × Selection V)) : Except Unit (List (MatchReference E X)) :=
  match kind with
  | .and => combineAnd funmapping kwargs inputvars matchelts resultelts
      (ConditionAnd.trim params = some true)
  | .or => combineOr funmapping kwargs inputvars matchelts resultelts
      (ConditionOr.trim params = some true)

end Dueca.Policy
