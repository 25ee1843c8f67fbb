import Dueca.Lib.Backtrack
import Dueca.Lib.Run

/-!
# The list of communication objects

A `comm-objects.lst` has a line for each reference to a DCO object: its project, module and name,
where the project may be left out for the own one. Further lines are empty or comments. A line that
is read from file is decoded with the own project filled in. To look for a reference, or to add it,
a line is composed and decoded, without an own project.
-/

namespace Dueca.Policy

open Dueca.Lib

abbrev Text := List Char

/-! ### Regular expressions -/

/-- `\s`, which is also what `strip` removes. -/
def isSpace (c : Char) : Bool :=
  c.toNat ∈ [0x9, 0xa, 0xb, 0xc, 0xd, 0x1c, 0x1d, 0x1e, 0x1f, 0x20, 0x85, 0xa0, 0x1680, 0x2000,
    0x2001, 0x2002, 0x2003, 0x2004, 0x2005, 0x2006, 0x2007, 0x2008, 0x2009, 0x200a, 0x2028, 0x2029,
    0x202f, 0x205f, 0x3000]

/-- `[^ \t/]` -/
def notSep (c : Char) : Bool := c ∉ [' ', '\t', '/']

/-- Texts are compared by their characters. -/
theorem Text.lawful : LawfulBEq Text := inferInstance

/-- `[^ \t/.]` -/
def notSepDot (c : Char) : Bool := c ∉ [' ', '\t', '/', '.']

/-- `.` -/
def notNewline (c : Char) : Bool := c ≠ '\n'

/-- `$` -/
def atEnd (s : Text) : Option Unit := if s = [] ∨ s = ['\n'] then some () else none

/-- `#.*` and the end -/
def hashEnd (s : Text) : Option Unit := lit ['#'] (star notNewline (fun _ s => atEnd s) []) s

/-- `\s*(#.*)?$` -/
def lineEnd (s : Text) : Option Unit :=
  star isSpace (fun _ s => (hashEnd s).or (atEnd s)) [] s

/-- `([^ \t/]+)/([^ \t/.]+)\.dco\s*(#.*)?$`, after the project. -/
def moduleDco (project : Option Text) (s : Text) : Option (Option Text × Text × Text) :=
  plus notSep (fun module => lit ['/'] (plus notSepDot fun dco => lit ['.', 'd', 'c', 'o']
    fun s => (lineEnd s).map fun _ => (project, module, dco))) s

/-- `_dcoline` -/
def dcoline (s : Text) : Option (Option Text × Text × Text) :=
  star isSpace (fun _ s =>
    (plus notSep (fun project => lit ['/'] (moduleDco (some project))) s).or (moduleDco none s))
    [] s

/-- `_commentline` -/
def commentline (s : Text) : Option Unit := star isSpace (fun _ s => hashEnd s) [] s

def rstrip (s : Text) : Text := (s.reverse.dropWhile isSpace).reverse

def strip (s : Text) : Text := rstrip (s.dropWhile isSpace)

/-! ### A line -/

/-- A project, a module, and the name of an object. -/
abbrev Reference := Text × Text × Text

structure CommObjectDef where
  line : Text
  baseProject : Option Text
  homedco : Option Bool
  module : Option Text
  dco : Option Text
  deriving DecidableEq

namespace CommObjectDef

/-- `__eq__` -/
def eq (d o : CommObjectDef) : Bool :=
  d.baseProject = o.baseProject && d.module = o.module && d.dco = o.dco

def remove (d : CommObjectDef) (comment : Text) : CommObjectDef :=
  { d with
    baseProject := none
    module := none
    dco := none
    line := '#' :: rstrip d.line ++ " #  ".toList ++ comment ++ ['\n'] }

/-- What the iterator of the list makes of it: without a base project it is passed over. -/
def reference (d : CommObjectDef) : Option Reference :=
  match d.baseProject, d.module, d.dco with
  | some project, some module, some dco => some (project, module, dco)
  | _, _, _ => none

end CommObjectDef

/-- A `CommObjectDef` that is made from a line. -/
def ofLine (line : Text) (ownproject : Option Text) : Except Unit CommObjectDef :=
  let blank : CommObjectDef :=
    { line := if line.getLast? = some '\n' then line else line ++ ['\n']
      baseProject := none
      homedco := none
      module := some "comm-objects".toList
      dco := none }
  if strip line = [] then .ok blank
  else if (commentline line).isSome then .ok blank
  else
    match dcoline line with
    | none => .error ()
    | some (project, module, dco) =>
      .ok
        { blank with
          baseProject := project.or ownproject
          homedco := some project.isNone
          module := some module
          dco := some dco }

/-- The line for a reference. -/
def composedLine (project : Option Text) (module dco comment : Text) : Text :=
  project.elim [] (· ++ ['/']) ++ module ++ '/' :: dco ++ ".dco".toList ++
  (if comment = [] then [] else "  # ".toList ++ comment) ++ ['\n']

/-- A `CommObjectDef` that is made from a reference. -/
def compose (project : Option Text) (module dco comment : Text) : Except Unit CommObjectDef :=
  ofLine (composedLine project module dco comment) none

/-! ### The list -/

/-- The lines of a text, with the line breaks. -/
def readLines : Text → Text → List Text
  | [], [] => []
  | line@(_ :: _), [] => [line]
  | line, c :: s => if c = '\n' then (line ++ [c]) :: readLines [] s else readLines (line ++ [c]) s

/-- The list, with the file it stands for. -/
structure CommObjectsList where
  project : Text
  dco : List CommObjectDef
  clean : Bool
  file : Text

/-- All lines, or a `ValueError`. -/
def ofLines (project : Text) : List Text → Except Unit (List CommObjectDef)
  | [] => .ok []
  | line :: lines =>
    match ofLine line (some project) with
    | .error e => .error e
    | .ok d =>
      match ofLines project lines with
      | .error e => .error e
      | .ok ds => .ok (d :: ds)

namespace CommObjectsList

/-- The constructor reads the file. -/
def read (project file : Text) : Except Unit CommObjectsList :=
  match ofLines project (readLines [] file) with
  | .error e => .error e
  | .ok ds => .ok { project := project, dco := ds, clean := true, file := file }

/-- `contains`; the module comes last. -/
def contains (l : CommObjectsList) (project : Option Text) (dco module : Text) :
    Except Unit Bool :=
  match compose project module dco [] with
  | .error e => .error e
  | .ok searchfor => .ok (l.dco.any (·.eq searchfor))

/-- `add` -/
def add (l : CommObjectsList) (project : Option Text) (module dco comment : Text) :
    Except Unit CommObjectsList :=
  match l.contains project module dco with
  | .error e => .error e
  | .ok true => .ok l
  | .ok false =>
    match compose project module dco comment with
    | .error e => .error e
    | .ok d => .ok { l with dco := l.dco ++ [d], clean := false }

/-- The first line with the reference is replaced. -/
def removeFirst (searchfor : CommObjectDef) (comment : Text) :
    List CommObjectDef → Option (List CommObjectDef)
  | [] => none
  | d :: ds =>
    if d.eq searchfor then some (d.remove comment :: ds)
    else
      match removeFirst searchfor comment ds with
      | some ds => some (d :: ds)
      | none => none

/-- `delete` -/
def delete (l : CommObjectsList) (project : Option Text) (module dco comment : Text) :
    Except Unit CommObjectsList :=
  match compose project module dco [] with
  | .error e => .error e
  | .ok searchfor =>
    match removeFirst searchfor comment l.dco with
    | some ds => .ok { l with dco := ds, clean := false }
    | none => .ok l

/-- `_sync`, once the file has been read. -/
def sync (l : CommObjectsList) : CommObjectsList :=
  if l.clean then l else { l with file := l.dco.flatMap (·.line), clean := true }

/-- The references that the iterator gives. -/
def references (l : CommObjectsList) : List Reference := l.dco.filterMap (·.reference)

end CommObjectsList

/-! ### Calls -/

inductive Edit
  | add (project : Option Text) (module dco comment : Text)
  | delete (project : Option Text) (module dco comment : Text)
  | contains (project : Option Text) (dco module : Text)
  | sync
  deriving DecidableEq

/-- A list in use, with the answers of `contains`. -/
structure Editing where
  list : CommObjectsList
  answers : List Bool

namespace Editing

def step (e : Editing) : Edit → Except Unit Editing
  | .add project module dco comment =>
    match e.list.add project module dco comment with
    | .error e => .error e
    | .ok l => .ok { e with list := l }
  | .delete project module dco comment =>
    match e.list.delete project module dco comment with
    | .error e => .error e
    | .ok l => .ok { e with list := l }
  | .contains project dco module =>
    match e.list.contains project dco module with
    | .error e => .error e
    | .ok answer => .ok { e with answers := e.answers ++ [answer] }
  | .sync => .ok { e with list := e.list.sync }

end Editing

end Dueca.Policy
