import Dueca.Dusime.Snapshot
import Dueca.Lib.KeyMap
import Mathlib.Data.Char
import Mathlib.Data.List.Lex

/-!
# The inventory of snapshots

An inventory keeps the snapshots of an entity in sets with names, and a toml document of these
sets. `receiveSnapshot` reads snapshots from a channel: with the first one that an activation reads
later than all before, it opens a new set. `setFiles` reads a document, `saveFile` writes it.

Time, with its coding in toml, is a parameter, and so is what numbers become that are written with
12 digits. The clients that are told about changes, and the choice of sets to send back, are not
part of the model.
-/

namespace Dueca.Dusime

open Dueca.Lib

/-- A map with strings as keys. -/
abbrev TextMap (V : Type) := KeyMap (fun name : Text => name) V

/-- A set of snapshots. -/
structure SnapshotData (T : Type) where
  snaps : List Snapshot
  time : T

/-- The toml table of a set. -/
structure SetDoc (L : Type) where
  datetime : Option L
  initial : Option (List Coded)

/-- A toml document. -/
structure TomlDoc (L : Type) where
  entity : Option Text
  initialSet : Option (TextMap (SetDoc L))

/-- Time as the local time of a document, and back; and the number that is read when a number has
been written with 12 digits. -/
structure TomlText (T L : Type) where
  toLocal : T → L
  ofLocal : L → T
  reprint : Bytes → Bytes

inductive IncoInventoryMode
  | startFiles
  | unSet
  | incoLoaded
  | incoRecorded
  deriving DecidableEq

/-- The documents that can be parsed. -/
abbrev DocStore (L : Type) := Text → Option (TomlDoc L)

structure Inventory (T L : Type) where
  state : IncoInventoryMode
  entity : Text
  latestIncoming : ℕ
  snapmap : TextMap (SnapshotData T)
  /-- The name of the set. The constructor leaves the iterator uninitialised. -/
  currentSnapset : Option Text
  tomlsnp : TomlDoc L
  resultfile : Text
  path : Text
  snapname : Text
  loaded : Text

/-! ### Text -/

/-- A number after `setfill('0') << setw(w) << hex`. -/
def hexDigits (w n : ℕ) : Text :=
  List.replicate (w - (Nat.toDigits 16 n).length) '0' ++ Nat.toDigits 16 n

/-- The characters that are replaced in file names. -/
def illegalUnwanted : List Char := ['/', '\\', ':', '*', '?', '"', '<', '>', '|', '\n', '\t']

def sanitize (base : Text) : Text := base.map fun c => if c ∈ illegalUnwanted then '_' else c

namespace Snapshot

def fileExtension (s : Snapshot) : Text :=
  match s.coding with
  | .binaryFile => ".bin".toList
  | .floatFile | .doubleFile => ".inco".toList
  | .jsonFile => ".json".toList
  | .xmlFile => ".xml".toList
  | .base64File => ".b64".toList
  | _ => "you should not try to save this snapshot type in an external file".toList

/-- The copy constructor. -/
def copy (s : Snapshot) : Snapshot := { s with dataSize := s.data.length }

end Snapshot

/-! ### Documents -/

variable {T L : Type} (lib : Libraries) (txt : TomlText T L)

/-- Written and read again. -/
def Coded.reprinted (coded : Coded) : Coded :=
  { coded with
    data := coded.data.map fun
      | .string s => .string s
      | .array numbers => .array (numbers.map txt.reprint) }

def SetDoc.reprinted (set : SetDoc L) : SetDoc L :=
  { set with initial := set.initial.map (List.map (Coded.reprinted txt)) }

def TomlDoc.reprinted (doc : TomlDoc L) : TomlDoc L :=
  { doc with initialSet := doc.initialSet.map (KeyMap.mapValues (SetDoc.reprinted txt)) }

/-- Why `setFiles` logs an error. -/
inductive FileError
  | parse
  | initialFileMismatch
  | raised (e : Raised)
  deriving DecidableEq

/-- The loop over the snapshots of a set, with the ones that are read, and the exception that ends
it. `n` is for the loops over numbers. -/
def readSnaps (path : Text) (fs : FileStore) (n : ℕ) :
    List Coded → Option (List Snapshot × Option Raised)
  | [] => some ([], none)
  | ini :: iniarr =>
    match Snapshot.ofToml lib ini path fs n with
    | none => none
    | some (.error e) => some ([], some e)
    | some (.ok s) => (readSnaps path fs n iniarr).map fun r => (s :: r.1, r.2)

/-- The loop over the sets. Snapshots are put behind those of a set that is there. -/
def readSets (path : Text) (fs : FileStore) (n : ℕ) (snapmap : TextMap (SnapshotData T)) :
    List (Text × SetDoc L) → Option (TextMap (SnapshotData T) × Option Raised)
  | [] => some (snapmap, none)
  | (name, iset) :: rest =>
    match iset.datetime, iset.initial with
    | none, _ => some (snapmap, some .tomlError)
    | some date, none => some (snapmap.emplace name ⟨[], txt.ofLocal date⟩, some .tomlError)
    | some date, some iniarr =>
      match readSnaps lib path fs n iniarr with
      | none => none
      | some (snaps, raised) =>
        let snapmap' := snapmap.upsert (fun d => { d with snaps := d.snaps ++ snaps }) name
          ⟨snaps, txt.ofLocal date⟩
        match raised with
        | some e => some (snapmap', some e)
        | none => readSets path fs n snapmap' rest

namespace Inventory

def create (entity : Text) : Inventory T L where
  state := .startFiles
  entity := entity
  latestIncoming := 0
  snapmap := .empty
  currentSnapset := none
  tomlsnp := ⟨none, none⟩
  resultfile := []
  path := []
  snapname := "anonymous".toList
  loaded := []

/-- `setFiles`, with what is logged. -/
def setFiles (n : ℕ) (fs : FileStore) (docs : DocStore L) (bfile sfile path : Text)
    (inv : Inventory T L) : Option (Inventory T L × Option FileError) :=
  let inv := { inv with resultfile := sfile, path := path, state := .unSet }
  if bfile = [] then some ({ inv with tomlsnp := ⟨some inv.entity, none⟩ }, none)
  else
    match docs bfile with
    | none => some (inv, some .parse)
    | some doc =>
      let inv := { inv with tomlsnp := doc }
      match doc.entity with
      | none => some (inv, some (.raised .tomlError))
      | some entity =>
        if inv.entity ≠ entity then some (inv, some .initialFileMismatch)
        else
          match doc.initialSet with
          | none => some (inv, some (.raised .tomlError))
          | some sets => (readSets lib txt path fs n inv.snapmap sets.entries).map fun r =>
              ({ inv with snapmap := r.1 }, r.2.map .raised)

/-- `saveFile` -/
def saveFile (docs : DocStore L) (inv : Inventory T L) : DocStore L :=
  if inv.resultfile = [] then docs
  else Function.update docs inv.resultfile (some (inv.tomlsnp.reprinted txt))

/-! ### Receiving -/

/-- `findUniqueName`, with the results of `rand`. -/
def findUniqueName (rands : List ℕ) (inv : Inventory T L) : Option Text :=
  (inv.snapname ::
      rands.map fun r => inv.snapname ++ '-' :: hexDigits 8 (r % 0x100000000)).find? fun newname =>
    (inv.snapmap.value? newname).isNone

/-- `snapshotFileName`, with the results of `rand`. -/
def snapshotFileName (rands : List ℕ) (fs : FileStore) (path base ext : Text) : Option Text :=
  (rands.map fun r => sanitize base ++ '-' :: (hexDigits 6 (r % 0x1000000) ++ ext)).find?
    fun trynew => (fs (path ++ trynew)).isNone

/-- What the clock and `rand` give. -/
structure Draw (T : Type) where
  now : T
  names : List ℕ
  files : List ℕ

/-- Why `receiveSnapshot` does not go on. -/
inductive ReceiveFault
  | endless
  | notInitialised
  | doubleSnapshotOrigin
  | raised (e : Raised)
  deriving DecidableEq

/-- A new set. -/
def openSet (ts : ℕ) (now : T) (name : Text) (inv : Inventory T L) : Inventory T L :=
  { inv with
    latestIncoming := ts
    snapmap := inv.snapmap.emplace name ⟨[], now⟩
    currentSnapset := some name
    tomlsnp := { inv.tomlsnp with
      initialSet := some ((inv.tomlsnp.initialSet.getD .empty).assign name
        ⟨some (txt.toLocal now), some []⟩) }
    loaded := name
    state := .incoRecorded }

/-- A snapshot goes to the set with a name, and its code to the document. -/
def pushSnapshot (name : Text) (s : Snapshot) (coded : Coded) (inv : Inventory T L) :
    Inventory T L :=
  { inv with
    snapmap := inv.snapmap.adjust name fun d => { d with snaps := d.snaps ++ [s.copy] }
    tomlsnp := { inv.tomlsnp with
      initialSet := inv.tomlsnp.initialSet.map fun sets =>
        sets.adjust name fun set => { set with initial := set.initial.map (· ++ [coded]) } } }

/-- The second part of a turn. After an exception, `receiveSnapshot` does not run again. -/
def addSnapshot (files : List ℕ) (name : Text) (s : Snapshot) (inv : Inventory T L)
    (fs : FileStore) : Except ReceiveFault (Inventory T L × FileStore) :=
  match if s.coding.saveExternal then snapshotFileName files fs inv.path name s.fileExtension
    else some [] with
  | none => .error .endless
  | some snapfilename =>
    match s.tomlCode lib snapfilename inv.path fs with
    | .error e => .error (.raised e)
    | .ok (coded, fs') => .ok (inv.pushSnapshot name s coded, fs')

/-- A turn of the loop in an activation at `ts` that reads the snapshot `s`. An exception leaves
the function, and the activity is switched off. -/
def receive (ts : ℕ) (s : Snapshot) (draw : Draw T) (inv : Inventory T L) (fs : FileStore) :
    Except ReceiveFault (Inventory T L × FileStore) :=
  if inv.latestIncoming < ts then
    match inv.findUniqueName draw.names with
    | none => .error .endless
    | some name => addSnapshot lib draw.files name s (openSet txt ts draw.now name inv) fs
  else
    match inv.currentSnapset with
    | none => .error .notInitialised
    | some name =>
      if ((inv.snapmap.value? name).map SnapshotData.snaps).getD [] |>.any
          (·.originator = s.originator) then .error .doubleSnapshotOrigin
      else addSnapshot lib draw.files name s inv fs

/-- `followDusime`, for a new state `Advance` or `Replay`. -/
def followDusime (inv : Inventory T L) : Inventory T L := { inv with state := .unSet, loaded := [] }

end Inventory

/-! ### Runs -/

/-- A snapshot with the tick of its round. -/
structure SnapEvent where
  tick : ℕ
  snap : Snapshot

inductive Action (T : Type)
  | receive (ts : ℕ) (e : SnapEvent) (draw : Inventory.Draw T)
  | setSnapName (newname : Text)
  | followDusime

/-- An inventory with the files of its snapshots, and what it has received. -/
structure Session (T L : Type) where
  inv : Inventory T L
  files : FileStore
  received : List SnapEvent

def Session.step (s : Session T L) :
    Action T → Except Inventory.ReceiveFault (Session T L)
  | .receive ts e draw =>
    (s.inv.receive lib txt ts e.snap draw s.files).map fun r => ⟨r.1, r.2, s.received ++ [e]⟩
  | .setSnapName newname => .ok { s with inv := { s.inv with snapname := newname } }
  | .followDusime => .ok { s with inv := s.inv.followDusime }

end Dueca.Dusime
