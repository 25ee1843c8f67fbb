import Dueca.Lib.Base64
import Dueca.Lib.Loop
import Mathlib.Data.List.DropRight

/-!
# Coding of snapshots

A snapshot has the state of a module as a string of bytes. It is saved in a toml document, where
the bytes are a string, in Base64 or as they are, or an array of numbers, or in a file that the
document names, as bytes, in Base64, or with the text of one number on each line.

What comes from libraries are parameters: the iterators for Base64, and the text of floating point
numbers. The toml library gives back what has been stored.
-/

namespace Dueca.Dusime

open Dueca.Lib

abbrev Bytes := List UInt8

abbrev Text := List Char

inductive SnapCoding
  | unSpecified
  | base64
  | json
  | xml
  | floats
  | doubles
  | binaryFile
  | floatFile
  | doubleFile
  | jsonFile
  | xmlFile
  | base64File
  deriving DecidableEq

namespace SnapCoding

/-- The names of the enumerated values. -/
def names : List (SnapCoding × String) :=
  [(unSpecified, "UnSpecified"), (base64, "Base64"), (json, "JSON"), (xml, "XML"),
    (floats, "Floats"), (doubles, "Doubles"), (binaryFile, "BinaryFile"),
    (floatFile, "FloatFile"), (doubleFile, "DoubleFile"), (jsonFile, "JSONFile"),
    (xmlFile, "XMLFile"), (base64File, "Base64File")]

/-- `getString`. It throws when there is no name. -/
def getString (coding : SnapCoding) : Option String :=
  (names.find? fun e => e.1 = coding).map (·.2)

def readFromString (s : String) : Option SnapCoding := (names.find? fun e => e.2 = s).map (·.1)

/-- The data go to a file, which is so from `BinaryFile` on. -/
def saveExternal : SnapCoding → Bool
  | binaryFile | floatFile | doubleFile | jsonFile | xmlFile | base64File => true
  | unSpecified | base64 | json | xml | floats | doubles => false

end SnapCoding

structure Snapshot where
  data : Bytes
  originator : Text
  coding : SnapCoding
  dataSize : ℕ

/-- What a toml table has for a key `data`. A floating point number stands as its bytes. -/
inductive TomlData
  | string (s : Bytes)
  | array (numbers : List Bytes)

/-- A toml table, with the keys that are used. -/
structure Coded where
  coding : Option String
  origin : Option Text
  data : Option TomlData
  file : Option Text

/-- The contents of files. -/
abbrev FileStore := Text → Option Bytes

inductive Raised
  | assertion
  | conversionNotDefined
  | tomlError
  | amorphReStoreEmpty
  | cannotFindSnapshotFile
  deriving DecidableEq

/-! ### Libraries -/

/-- The iterators for Base64. Digits are filled up with zeros, and `=` is read as zeros. -/
structure Base64Iterators where
  encode : Bytes → Bytes
  decode : Bytes → Bytes
  decode_encode : ∀ d, decode (encode d ++ List.replicate (fillLength d.length) fillChar) =
    d ++ List.replicate (fillLength d.length) 0

/-- What `>>` gives for a number: the number with what remains of the stream, the end of the
stream, or a failure, when what comes is not a number. -/
inductive Extract
  | number (v rest : Bytes)
  | eof
  | fail

/-- The end of a line. -/
def newline : UInt8 := 10

/-- Numbers of `w` bytes, as text with a given precision. Reading the text of a number may give
another number, or fail. Blanks before a number are skipped. -/
structure NumberText (w : ℕ) where
  print : Bytes → Bytes
  reread : Bytes → Option Bytes
  extract : Bytes → Extract
  length_reread : ∀ v v', v.length = w → reread v = some v' → v'.length = w
  extract_print : ∀ v rest, v.length = w → extract (print v ++ newline :: rest) =
    match reread v with
    | some v' => .number v' (newline :: rest)
    | none => .fail
  extract_newline : ∀ rest, extract (newline :: rest) = extract rest
  extract_nil : extract [] = .eof

/-- Base64, floats with 8 digits, and doubles with 15 digits. -/
structure Libraries where
  iterators : Base64Iterators
  float : NumberText 4
  double : NumberText 8

/-! ### Base64 -/

/-- `decode64`: zeros at the end are trimmed. -/
def decode64 (it : Base64Iterators) (val : Bytes) : Bytes := (it.decode val).rdropWhile (· = 0)

def encode64 (it : Base64Iterators) (val : Bytes) : Bytes :=
  it.encode val ++ List.replicate ((3 - val.length % 3) % 3) fillChar

/-! ### Numbers -/

/-- The loop that unpacks numbers of `w` bytes until the store is exhausted. It throws when there
are bytes left, but not enough. -/
def unpackNumbers (w : ℕ) : ℕ → Bytes → Except Raised (List Bytes)
  | _, [] => .ok []
  | 0, _ => .error .amorphReStoreEmpty
  | n + 1, b :: d =>
    if (b :: d).length < w then .error .amorphReStoreEmpty
    else
      match unpackNumbers w n ((b :: d).drop w) with
      | .error e => .error e
      | .ok numbers => .ok ((b :: d).take w :: numbers)

/-- A file with a number on each line. -/
def numberLines {w : ℕ} (txt : NumberText w) (numbers : List Bytes) : Bytes :=
  numbers.flatMap fun v => txt.print v ++ [newline]

/-- A turn of the loop over the numbers in a file, with those found and the last result of `>>`.
After a failure, `>>` does nothing. The end is noticed when nothing comes after a number. -/
def numbersBody {w : ℕ} (txt : NumberText w) :
    List Bytes × Extract → (List Bytes × Extract) ⊕ List Bytes
  | (found, .eof) => .inr found
  | (found, .fail) => .inl (found ++ [List.replicate w 0], .fail)
  | (found, .number v rest) =>
    if rest = [] then .inr found else .inl (found ++ [v], txt.extract rest)

/-- The numbers in a file, with a number of turns for the loop. -/
def readNumbers {w : ℕ} (txt : NumberText w) (n : ℕ) (contents : Bytes) : Option (List Bytes) :=
  loop (numbersBody txt) n ([], txt.extract contents)

/-! ### Snapshots -/

namespace Snapshot

variable (lib : Libraries)

/-- A file for the data. -/
def inFile (s : Snapshot) (name : String) (fname path : Text) (contents : Bytes)
    (fs : FileStore) : Coded × FileStore :=
  (⟨some name, some s.originator, none, some fname⟩,
    Function.update fs (path ++ fname) (some contents))

/-- `tomlCode`, with what it does to files. -/
def tomlCode (s : Snapshot) (fname path : Text) (fs : FileStore) :
    Except Raised (Coded × FileStore) :=
  match s.coding.getString with
  | none => .error .conversionNotDefined
  | some name =>
    if s.coding.saveExternal = true ∧ fname.length = 0 then .error .assertion
    else
      let inLine (d : TomlData) : Coded × FileStore :=
        (⟨some name, some s.originator, some d, none⟩, fs)
      match s.coding with
      | .unSpecified | .base64 => .ok (inLine (.string (encode64 lib.iterators s.data)))
      | .json | .xml => .ok (inLine (.string s.data))
      | .floats => (unpackNumbers 4 s.data.length s.data).map fun v => inLine (.array v)
      | .doubles => (unpackNumbers 8 s.data.length s.data).map fun v => inLine (.array v)
      | .binaryFile => .ok (s.inFile name fname path s.data fs)
      | .floatFile => (unpackNumbers 4 s.data.length s.data).map fun v =>
          s.inFile name fname path (numberLines lib.float v) fs
      | .doubleFile => (unpackNumbers 8 s.data.length s.data).map fun v =>
          s.inFile name fname path (numberLines lib.double v) fs
      | .jsonFile | .xmlFile => .ok (s.inFile name fname path s.data fs)
      | .base64File => .ok (s.inFile name fname path (encode64 lib.iterators s.data) fs)

/-- `toml::find<std::string>(coded, "data")` -/
def findString (coded : Coded) : Except Raised Bytes :=
  match coded.data with
  | some (.string s) => .ok s
  | _ => .error .tomlError

/-- `toml::find<std::vector<..>>(coded, "data")`, packed. -/
def findNumbers (coded : Coded) : Except Raised Bytes :=
  match coded.data with
  | some (.array numbers) => .ok numbers.flatten
  | _ => .error .tomlError

/-- The contents of the file that is named. -/
def findFile (coded : Coded) (path : Text) (fs : FileStore) : Except Raised Bytes :=
  match coded.file with
  | none => .error .tomlError
  | some file =>
    match fs (path ++ file) with
    | none => .error .cannotFindSnapshotFile
    | some contents => .ok contents

/-- The bytes of the numbers in the file that is named. -/
def fileNumbers {w : ℕ} (txt : NumberText w) (coded : Coded) (path : Text) (fs : FileStore)
    (n : ℕ) : Option (Except Raised Bytes) :=
  match findFile coded path fs with
  | .error e => some (.error e)
  | .ok contents => (readNumbers txt n contents).map fun numbers => .ok numbers.flatten

/-- The data, in the coding. -/
def findData (coding : SnapCoding) (coded : Coded) (path : Text) (fs : FileStore) (n : ℕ) :
    Option (Except Raised Bytes) :=
  match coding with
  | .unSpecified | .base64 => some ((findString coded).map (decode64 lib.iterators))
  | .json | .xml => some (findString coded)
  | .floats | .doubles => some (findNumbers coded)
  | .jsonFile | .xmlFile | .binaryFile => some (findFile coded path fs)
  | .base64File => some ((findFile coded path fs).map (decode64 lib.iterators))
  | .floatFile => fileNumbers lib.float coded path fs n
  | .doubleFile => fileNumbers lib.double coded path fs n

/-- The constructor from toml, with a number of turns for the loop over numbers. -/
def ofToml (coded : Coded) (path : Text) (fs : FileStore) (n : ℕ) :
    Option (Except Raised Snapshot) :=
  match coded.origin, coded.coding with
  | some origin, some name =>
    match SnapCoding.readFromString name with
    | none => some (.error .conversionNotDefined)
    | some coding =>
      (findData lib coding coded path fs n).map fun data =>
        data.map fun data => ⟨data, origin, coding, data.length⟩
  | _, _ => some (.error .tomlError)

end Snapshot

end Dueca.Dusime
