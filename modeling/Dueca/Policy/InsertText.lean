import Dueca.Lib.Loop
import Dueca.Lib.Splice
import Dueca.Policy.CommObjects
import Dueca.Policy.ReadFile

/-!
# Inserting text at matches

A find-pattern condition collects the matches of a pattern in a file: each search starts where the
match before it ends. An insert-text action takes match references, and goes through these; it
renames the file of a reference, and writes the text again, with the new text at the matches.

The matches are positions in the text that the condition has read. When a second reference names
the same file, these positions are used for a text that has changed. There is a test on this, but
the set of files in which it looks stays empty.
-/

namespace Dueca.Policy

open Dueca.Lib

variable {M : Type}

/-! ### Matches in a file -/

/-- A regular expression: for the positions of a text where it matches, the end of the match and
the match object. -/
structure Pattern (M : Type) where
  matchAt : Text → ℕ → Option (ℕ × M)
  fits : ∀ text p e m, matchAt text p = some (e, m) → p ≤ e ∧ e ≤ text.length

structure MatchSpan (M : Type) where
  span : ℕ × ℕ
  matchre : M
  deriving DecidableEq

/-- The leftmost match at an offset or after it. -/
def Pattern.search (pattern : Pattern M) (text : Text) (offset : ℕ) : Option (MatchSpan M) :=
  (List.range' offset (text.length + 1 - offset)).findSome? fun p =>
    (pattern.matchAt text p).map fun m => ⟨(p, m.1), m.2⟩

/-- `MatchFunctionPattern.__call__` -/
def matchFunctionPattern (pattern : Pattern M) (text : Text) (span : Option (ℕ × ℕ)) :
    Option (MatchSpan M) :=
  match span with
  | none => pattern.search text 0
  | some span => pattern.search text span.2

/-- A turn of the loop, with the matches so far and the last one found. -/
def collectBody (pattern : Pattern M) (text : Text) (limit : ℤ) :
    List (MatchSpan M) × Option (MatchSpan M) →
      (List (MatchSpan M) × Option (MatchSpan M)) ⊕ List (MatchSpan M)
  | (found, none) => .inr found
  | (found, some s) =>
    if limit = 0 ∨ (found.length : ℤ) < limit then
      .inl (found ++ [s], matchFunctionPattern pattern text (some s.span))
    else .inr found

/-- Where the loop starts. -/
def collectStart (pattern : Pattern M) (text : Text) :
    List (MatchSpan M) × Option (MatchSpan M) :=
  ([], matchFunctionPattern pattern text none)

/-! ### Match references -/

/-- What an action uses of a match reference. The `filename` and the `matches` are attributes that
a reference may be without. -/
structure FileReference (M : Type) where
  value : Bool
  filename : Option Name
  spans : Option (List (MatchSpan M))

/-- The reference that a find-pattern condition gives for the matches in a file. -/
def FileReference.ofMatches (fname : Name) (found : List (MatchSpan M)) : FileReference M :=
  ⟨!found.isEmpty, some fname, some found⟩

/-- `MatchReferenceFile`, with a number of turns for its loop. -/
def matchReferenceFile (pattern : Pattern M) (text : Text) (fname : Name) (limit : ℤ) (n : ℕ) :
    Option (FileReference M) :=
  (loop (collectBody pattern text limit) n (collectStart pattern text)).map
    (FileReference.ofMatches fname)

/-- What may be raised. -/
inductive Raised
  | attributeError
  | valueError
  | fileNotFound
  | format
  deriving DecidableEq

attribute [local instance] Text.lawful in
/-- `doubleFile`. Nothing is ever put in the set of files. -/
def doubleFile (files : List Name) : List (FileReference M) → Except Raised Unit
  | [] => .ok ()
  | e :: l =>
    if e.value then
      match e.filename with
      | none => .error .attributeError
      | some f => if f ∈ files then .error .valueError else doubleFile files l
    else doubleFile files l

/-! ### The action -/

inductive Mode
  | replace
  | before
  | after
  deriving DecidableEq

/-- The text is copied up to here, -/
def Mode.upto : Mode → ℕ × ℕ → ℕ
  | replace, span => span.1
  | before, span => span.1
  | after, span => span.2

/-- and after the new text from here on. -/
def Mode.idxw : Mode → ℕ × ℕ → ℕ
  | replace, span => span.2
  | before, span => span.1
  | after, span => span.2

/-- The mode, and the text that is made for a match. Making it may fail, on a format. -/
structure ActionInsertText (M : Type) where
  mode : Mode
  getString : M → Option Text

/-- The texts of the files. -/
abbrev FileTexts := Name → Option Text

/-- The name under which the old text is kept. -/
def backup (f : Name) : Name := f ++ ['~']

namespace ActionInsertText

variable (a : ActionInsertText M)

/-- The loop over the matches: what is written, and whether an exception came in between. -/
def writeMatches (txt0 : Text) : ℕ → Text → List (MatchSpan M) → Text × Bool
  | idxw, f1, [] => (f1 ++ txt0.drop idxw, true)
  | idxw, f1, rep :: reps =>
    let f1 := f1 ++ slice txt0 idxw (a.mode.upto rep.span)
    match a.getString rep.matchre with
    | none => (f1, false)
    | some text => writeMatches txt0 (a.mode.idxw rep.span) (f1 ++ text) reps

/-- `os.rename` -/
def rename (fs : FileTexts) (f g : Name) : Option FileTexts :=
  (fs f).map fun txt => Function.update (Function.update fs g (some txt)) f none

/-- From `rfile` to `wfile`. The second file is opened before the first one is read, and it stays
when an exception comes. -/
def rewrite (fs : FileTexts) (rfile wfile : Name) (spans : Option (List (MatchSpan M))) :
    FileTexts × Except Raised Unit :=
  match fs rfile with
  | none => (fs, .error .fileNotFound)
  | some txt0 =>
    match spans with
    | none => (Function.update fs wfile (some []), .error .attributeError)
    | some reps =>
      let written := a.writeMatches txt0 0 [] reps
      (Function.update fs wfile (some written.1),
        if written.2 then .ok () else .error .format)

/-- The body of the loop, for the file of a reference: the files afterwards, and the file that was
written. -/
def enactFile (dryrun : Bool) (fs : FileTexts) (f : Name)
    (spans : Option (List (MatchSpan M))) : FileTexts × Except Raised Name :=
  if dryrun then
    let wfile := f ++ ".dryrun".toList
    let (fs, res) := a.rewrite fs f wfile spans
    (fs, res.map fun _ => wfile)
  else
    match rename fs f (backup f) with
    | none => (fs, .error .fileNotFound)
    | some fs =>
      let (fs, res) := a.rewrite fs (backup f) f spans
      (fs, res.map fun _ => f)

/-- The loop over the references, with the files that have been written. It is left with an
exception. -/
def enactRef (dryrun : Bool) (st : FileTexts × Except Raised (List Name))
    (it : FileReference M) : FileTexts × Except Raised (List Name) :=
  match st with
  | (fs, .error e) => (fs, .error e)
  | (fs, .ok files) =>
    match it.filename with
    | none => (fs, .error .attributeError)
    | some f =>
      let (fs, res) := a.enactFile dryrun fs f it.spans
      (fs, res.map fun wfile => files ++ [wfile])

/-- `enact`: the files afterwards, and those that have been written. -/
def enact (dryrun : Bool) (fs : FileTexts) (refs : List (FileReference M)) :
    FileTexts × Except Raised (List Name) :=
  let todo := refs.filter (·.value)
  match doubleFile [] todo with
  | .error e => (fs, .error e)
  | .ok _ => todo.foldl (a.enactRef dryrun) (fs, .ok [])

end ActionInsertText

end Dueca.Policy
