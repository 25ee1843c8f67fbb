import Dueca.Dusime.Inventory
import Dueca.Dusime.RoundTrip

/-!
# The document of an inventory

A toml document describes sets of snapshots when it has the same names, and each code is read as
the snapshot at its place. Such a document is read as these sets, and what is read without an error
is described. The code of a new snapshot needs a new file at most, so that the codes of the other
ones are read as before.
-/

namespace Dueca.Dusime

open Dueca.Lib

variable {T L : Type} {lib : Libraries} {txt : TomlText T L} {path fname : Text}
  {fs fs' : FileStore} {coded : Coded} {s : Snapshot}

/-! ### Files -/

/-- Files that are there stay, with what is in them. -/
def Keeps (fs fs' : FileStore) : Prop :=
  ∀ name contents, fs name = some contents → fs' name = some contents

theorem keeps_update {name : Text} (h : fs name = none) (contents : Option Bytes) :
    Keeps fs (Function.update fs name contents) := by
  intro other c hother
  have hne : other ≠ name := fun heq => by
    rw [heq, h] at hother
    cases hother
  rwa [Function.update_of_ne hne]

/-- The code is read as the snapshot. -/
def Reads (lib : Libraries) (path : Text) (fs : FileStore) (coded : Coded) (s : Snapshot) : Prop :=
  ∃ n, Snapshot.ofToml lib coded path fs n = some (.ok s)

namespace Snapshot

theorem findFile_keeps {contents : Bytes} (hkeeps : Keeps fs fs')
    (h : findFile coded path fs = .ok contents) : findFile coded path fs' = .ok contents := by
  cases hfile : coded.file with
  | none =>
    simp only [findFile, hfile] at h
    cases h
  | some file =>
    cases hold : fs (path ++ file) with
    | none =>
      simp only [findFile, hfile, hold] at h
      cases h
    | some old =>
      simp only [findFile, hfile, hold, hkeeps _ _ hold] at h ⊢
      exact h

theorem fileNumbers_keeps {w m n : ℕ} {num : NumberText w} {d : Bytes} (hkeeps : Keeps fs fs')
    (hle : m ≤ n) (h : fileNumbers num coded path fs m = some (.ok d)) :
    fileNumbers num coded path fs' n = some (.ok d) := by
  cases hfile : findFile coded path fs with
  | error e =>
    simp only [fileNumbers, hfile] at h
    cases h
  | ok contents =>
    simp only [fileNumbers, hfile, findFile_keeps hkeeps hfile, Option.map_eq_some_iff] at h ⊢
    obtain ⟨numbers, hread, hd⟩ := h
    exact ⟨numbers, loop_mono hle hread, hd⟩

theorem findData_keeps {m n : ℕ} {coding : SnapCoding} {d : Bytes} (hkeeps : Keeps fs fs')
    (hle : m ≤ n) (h : findData lib coding coded path fs m = some (.ok d)) :
    findData lib coding coded path fs' n = some (.ok d) := by
  cases coding with
  | unSpecified | base64 | json | xml | floats | doubles => exact h
  | floatFile => exact fileNumbers_keeps hkeeps hle h
  | doubleFile => exact fileNumbers_keeps hkeeps hle h
  | jsonFile | xmlFile | binaryFile =>
    exact congrArg some (findFile_keeps hkeeps (Option.some.inj h))
  | base64File =>
    cases hfile : findFile coded path fs with
    | error e =>
      simp only [findData, hfile] at h
      cases h
    | ok contents =>
      simp only [findData, hfile, findFile_keeps hkeeps hfile] at h ⊢
      exact h

/-- A snapshot is read with more files, and with more turns for loops, as before. -/
theorem ofToml_keeps {m n : ℕ} (hkeeps : Keeps fs fs') (hle : m ≤ n)
    (h : ofToml lib coded path fs m = some (.ok s)) :
    ofToml lib coded path fs' n = some (.ok s) := by
  cases horigin : coded.origin with
  | none =>
    simp only [ofToml, horigin] at h
    cases h
  | some origin =>
    cases hname : coded.coding with
    | none =>
      simp only [ofToml, horigin, hname] at h
      cases h
    | some name =>
      cases hcoding : SnapCoding.readFromString name with
      | none =>
        simp only [ofToml, horigin, hname, hcoding] at h
        cases h
      | some coding =>
        simp only [ofToml, horigin, hname, hcoding, Option.map_eq_some_iff] at h ⊢
        obtain ⟨data | data, hdata, hs⟩ := h
        · cases hs
        · exact ⟨.ok data, findData_keeps hkeeps hle hdata, hs⟩

end Snapshot

theorem Reads.keeps (h : Reads lib path fs coded s) (hkeeps : Keeps fs fs') :
    Reads lib path fs' coded s :=
  h.imp fun _ hn => Snapshot.ofToml_keeps hkeeps (Nat.le_refl _) hn

/-! ### The code of a snapshot -/

/-- The size of the numbers in a document. -/
def SnapCoding.numberWidth : SnapCoding → Option ℕ
  | floats => some 4
  | doubles => some 8
  | _ => none

/-- The numbers can be written with 12 digits. -/
def Snapshot.Kept (txt : TomlText T L) (s : Snapshot) : Prop :=
  ∀ w numbers, s.coding.numberWidth = some w →
    unpackNumbers w s.data.length s.data = .ok numbers → ∀ v ∈ numbers, txt.reprint v = v

namespace Snapshot

/-- The data stand in the document, or in a file. -/
theorem tomlCode_cases (h : s.tomlCode lib fname path fs = .ok (coded, fs')) :
    (fs' = fs ∧ ((∃ d, coded.data = some (.string d)) ∨
      ∃ w numbers, coded.data = some (.array numbers) ∧ s.coding.numberWidth = some w ∧
        unpackNumbers w s.data.length s.data = .ok numbers)) ∨
    s.coding.saveExternal = true ∧ coded.data = none ∧
      ∃ contents, fs' = Function.update fs (path ++ fname) (some contents) := by
  obtain ⟨name, hname, -⟩ := readFromString_getString s.coding
  simp only [tomlCode, hname] at h
  split at h
  · cases h
  · cases hcoding : s.coding with
    | unSpecified | base64 | json | xml =>
      simp only [hcoding] at h
      cases h
      exact .inl ⟨rfl, .inl ⟨_, rfl⟩⟩
    | floats =>
      simp only [hcoding] at h
      cases hnumbers : unpackNumbers 4 s.data.length s.data with
      | error e =>
        rw [hnumbers] at h
        cases h
      | ok numbers =>
        rw [hnumbers] at h
        cases h
        exact .inl ⟨rfl, .inr ⟨4, numbers, rfl, rfl, hnumbers⟩⟩
    | doubles =>
      simp only [hcoding] at h
      cases hnumbers : unpackNumbers 8 s.data.length s.data with
      | error e =>
        rw [hnumbers] at h
        cases h
      | ok numbers =>
        rw [hnumbers] at h
        cases h
        exact .inl ⟨rfl, .inr ⟨8, numbers, rfl, rfl, hnumbers⟩⟩
    | binaryFile | jsonFile | xmlFile | base64File =>
      simp only [hcoding] at h
      cases h
      exact .inr ⟨rfl, rfl, _, rfl⟩
    | floatFile =>
      simp only [hcoding] at h
      cases hnumbers : unpackNumbers 4 s.data.length s.data with
      | error e =>
        rw [hnumbers] at h
        cases h
      | ok numbers =>
        rw [hnumbers] at h
        cases h
        exact .inr ⟨rfl, rfl, _, rfl⟩
    | doubleFile =>
      simp only [hcoding] at h
      cases hnumbers : unpackNumbers 8 s.data.length s.data with
      | error e =>
        rw [hnumbers] at h
        cases h
      | ok numbers =>
        rw [hnumbers] at h
        cases h
        exact .inr ⟨rfl, rfl, _, rfl⟩

theorem tomlCode_reprinted (hkept : s.Kept txt)
    (h : s.tomlCode lib fname path fs = .ok (coded, fs')) : coded.reprinted txt = coded := by
  obtain ⟨coding, origin, data, file⟩ := coded
  obtain ⟨-, ⟨d, rfl⟩ | ⟨w, numbers, rfl, hw, hnumbers⟩⟩ | ⟨-, rfl, -⟩ := tomlCode_cases h
  · rfl
  · have hmap : numbers.map txt.reprint = numbers :=
      (List.map_congr_left (hkept w numbers hw hnumbers)).trans (List.map_id' numbers)
    simp only [Coded.reprinted, Option.map_some, hmap]
  · rfl

/-- The code of a snapshot is read as the snapshot. -/
theorem exists_tomlCode (hrec : s.Recoverable lib) (hkept : s.Kept txt)
    (hfile : s.coding.saveExternal = true → fname ≠ [] ∧ fs (path ++ fname) = none) :
    ∃ coded fs', s.tomlCode lib fname path fs = .ok (coded, fs') ∧ Keeps fs fs' ∧
      Reads lib path fs' coded s.copy ∧ coded.reprinted txt = coded := by
  have htrips : s.RoundTrips lib fname path fs :=
    (roundTrips_iff_recoverable fun h => (hfile h).1).2 hrec
  obtain ⟨coded, fs', hcode, n, s', hread, hdata, horigin, hcoding, hsize⟩ := htrips
  refine ⟨coded, fs', hcode, ?_, ⟨n, ?_⟩, tomlCode_reprinted hkept hcode⟩
  · obtain ⟨rfl, -⟩ | ⟨hsave, -, contents, rfl⟩ := tomlCode_cases hcode
    · exact fun _ _ h => h
    · exact keeps_update (hfile hsave).2 _
  · have hcopy : s' = s.copy := by
      cases s'
      simp_all only [copy]
    rwa [← hcopy]

end Snapshot

/-! ### Sets -/

/-- A table of the document, and a set. -/
structure DescribesSet (lib : Libraries) (txt : TomlText T L) (path : Text) (fs : FileStore)
    (e : Text × SetDoc L) (f : Text × SnapshotData T) : Prop where
  name : e.1 = f.1
  time : ∃ date, e.2.datetime = some date ∧ f.2.time = txt.ofLocal date
  snaps : ∃ initial, e.2.initial = some initial ∧
    List.Forall₂ (Reads lib path fs) initial f.2.snaps

/-- The document has the same sets, with codes that are read as their snapshots. -/
def Describes (lib : Libraries) (txt : TomlText T L) (path : Text) (fs : FileStore)
    (sets : TextMap (SetDoc L)) (snapmap : TextMap (SnapshotData T)) : Prop :=
  List.Forall₂ (DescribesSet lib txt path fs) sets.entries snapmap.entries

theorem DescribesSet.keeps {e : Text × SetDoc L} {f : Text × SnapshotData T}
    (h : DescribesSet lib txt path fs e f) (hkeeps : Keeps fs fs') :
    DescribesSet lib txt path fs' e f := by
  obtain ⟨initial, hinitial, hreads⟩ := h.snaps
  exact ⟨h.name, h.time, initial, hinitial, hreads.imp fun _ _ hread => hread.keeps hkeeps⟩

theorem readSnaps_of_reads {initial : List Coded} {snaps : List Snapshot}
    (h : List.Forall₂ (Reads lib path fs) initial snaps) :
    ∃ n₀, ∀ n, n₀ ≤ n → readSnaps lib path fs n initial = some (snaps, none) := by
  induction h with
  | nil => exact ⟨0, fun _ _ => rfl⟩
  | @cons c s initial snaps hread _ ih =>
    obtain ⟨n₁, hn₁⟩ := hread
    obtain ⟨n₂, hn₂⟩ := ih
    refine ⟨max n₁ n₂, fun n hle => ?_⟩
    have hof := Snapshot.ofToml_keeps (fun _ _ h => h) (Nat.max_le.1 hle).1 hn₁
    simp only [readSnaps, hof, hn₂ n (Nat.max_le.1 hle).2, Option.map_some]

theorem reads_of_readSnaps {n : ℕ} {initial : List Coded} {snaps : List Snapshot}
    (h : readSnaps lib path fs n initial = some (snaps, none)) :
    List.Forall₂ (Reads lib path fs) initial snaps := by
  induction initial generalizing snaps with
  | nil =>
    cases h
    exact .nil
  | cons c initial ih =>
    cases hof : Snapshot.ofToml lib c path fs n with
    | none =>
      simp only [readSnaps, hof] at h
      cases h
    | some r =>
      cases r with
      | error e =>
        simp only [readSnaps, hof] at h
        cases h
      | ok s =>
        simp only [readSnaps, hof, Option.map_eq_some_iff] at h
        obtain ⟨⟨rest, fault⟩, hrest, heq⟩ := h
        cases heq
        exact .cons ⟨n, hof⟩ (ih hrest)

/-- Sets that are described, and come after those that are there, are read. -/
theorem readSets_of_describes {sets : List (Text × SetDoc L)}
    {entries : List (Text × SnapshotData T)} (snapmap : TextMap (SnapshotData T))
    (h : List.Forall₂ (DescribesSet lib txt path fs) sets entries)
    (hsorted : (snapmap.entries ++ entries).Pairwise fun e f => e.1 < f.1) :
    ∃ n₀, ∀ n, n₀ ≤ n → ∃ snapmap',
      readSets lib txt path fs n snapmap sets = some (snapmap', none) ∧
        snapmap'.entries = snapmap.entries ++ entries := by
  induction h generalizing snapmap with
  | nil => exact ⟨0, fun _ _ => ⟨snapmap, rfl, (List.append_nil _).symm⟩⟩
  | @cons e f sets entries hset _ ih =>
    obtain ⟨name, table⟩ := e
    obtain ⟨_, set⟩ := f
    obtain ⟨rfl, ⟨date, hdate, htime⟩, initial, hinitial, hreads⟩ := hset
    dsimp only at hdate htime hinitial hreads
    have hsame : (⟨set.snaps, txt.ofLocal date⟩ : SnapshotData T) = set := by rw [← htime]
    -- the name comes after the ones that are there
    have hput : (snapmap.upsert (fun d => { d with snaps := d.snaps ++ set.snaps }) name
        set).entries = snapmap.entries ++ [(name, set)] :=
      KeyMap.put_of_forall_lt _ _ fun g hg =>
        (List.pairwise_append.1 hsorted).2.2 g hg _ List.mem_cons_self
    obtain ⟨n₁, hn₁⟩ := readSnaps_of_reads hreads
    obtain ⟨n₂, hn₂⟩ := ih _ (by rwa [hput, List.append_assoc, List.singleton_append])
    refine ⟨max n₁ n₂, fun n hle => ?_⟩
    obtain ⟨snapmap', hread, hentries⟩ := hn₂ n (Nat.max_le.1 hle).2
    refine ⟨snapmap', ?_, ?_⟩
    · simp only [readSets, hdate, hinitial, hn₁ n (Nat.max_le.1 hle).1, hsame]
      exact hread
    · rw [hentries, hput, List.append_assoc, List.singleton_append]

/-- What is read without an error is described. -/
theorem describes_of_readSets {n : ℕ} {sets : List (Text × SetDoc L)}
    {snapmap snapmap' : TextMap (SnapshotData T)}
    (h : readSets lib txt path fs n snapmap sets = some (snapmap', none))
    (hsets : sets.Pairwise fun e f => e.1 < f.1)
    (hlt : ∀ e ∈ snapmap.entries, ∀ f ∈ sets, e.1 < f.1) :
    ∃ entries, snapmap'.entries = snapmap.entries ++ entries ∧
      List.Forall₂ (DescribesSet lib txt path fs) sets entries := by
  induction sets generalizing snapmap with
  | nil =>
    cases h
    exact ⟨[], (List.append_nil _).symm, .nil⟩
  | cons e sets ih =>
    obtain ⟨name, date, initial⟩ := e
    obtain ⟨hhead, htail⟩ := List.pairwise_cons.1 hsets
    cases date with
    | none =>
      simp only [readSets] at h
      cases h
    | some date =>
      cases initial with
      | none =>
        simp only [readSets] at h
        cases h
      | some initial =>
        cases hsnaps : readSnaps lib path fs n initial with
        | none =>
          simp only [readSets, hsnaps] at h
          cases h
        | some r =>
          obtain ⟨snaps, _ | fault⟩ := r
          · simp only [readSets, hsnaps] at h
            have hput : (snapmap.upsert (fun d => { d with snaps := d.snaps ++ snaps }) name
                ⟨snaps, txt.ofLocal date⟩).entries =
                  snapmap.entries ++ [(name, ⟨snaps, txt.ofLocal date⟩)] :=
              KeyMap.put_of_forall_lt _ _ fun g hg => hlt g hg _ List.mem_cons_self
            obtain ⟨entries, hentries, hdesc⟩ := ih h htail fun g hg f hf => by
              rw [hput] at hg
              obtain hg | hg := List.mem_append.1 hg
              · exact hlt g hg f (List.mem_cons_of_mem _ hf)
              · obtain rfl := List.mem_singleton.1 hg
                exact hhead f hf
            refine ⟨(name, ⟨snaps, txt.ofLocal date⟩) :: entries, ?_,
              .cons ⟨rfl, ⟨date, rfl, rfl⟩, initial, rfl, reads_of_readSnaps hsnaps⟩ hdesc⟩
            rw [hentries, hput, List.append_assoc, List.singleton_append]
          · simp only [readSets, hsnaps] at h
            cases h

/-! ### From and to a document -/

namespace Inventory

/-- A document that has been read without an error describes the sets. -/
theorem describes_of_setFiles {n : ℕ} {docs : DocStore L} {bfile sfile entity : Text}
    {inv : Inventory T L}
    (h : setFiles lib txt n fs docs bfile sfile path (create entity) = some (inv, none)) :
    inv.path = path ∧ inv.entity = entity ∧ inv.tomlsnp.entity = some entity ∧
      inv.latestIncoming = 0 ∧
      (inv.tomlsnp.initialSet = none ∨ docs bfile = some inv.tomlsnp) ∧
      Describes lib txt path fs (inv.tomlsnp.initialSet.getD .empty) inv.snapmap := by
  unfold setFiles at h
  split at h
  · cases h
    exact ⟨rfl, rfl, rfl, rfl, .inl rfl, .nil⟩
  · cases hdoc : docs bfile with
    | none =>
      simp only [hdoc] at h
      cases h
    | some doc =>
      obtain ⟨docEntity, initialSet⟩ := doc
      cases docEntity with
      | none =>
        simp only [hdoc] at h
        cases h
      | some docEntity =>
        simp only [hdoc] at h
        split at h
        · cases h
        · next hentity =>
          rw [not_not] at hentity
          cases initialSet with
          | none => cases h
          | some sets =>
            simp only [Option.map_eq_some_iff] at h
            obtain ⟨⟨snapmap, fault⟩, hread, heq⟩ := h
            cases fault with
            | some e => cases heq
            | none =>
              cases heq
              obtain ⟨entries, hentries, hdesc⟩ := describes_of_readSets hread sets.sorted
                fun e he => absurd he List.not_mem_nil
              obtain rfl : snapmap.entries = entries := hentries
              exact ⟨rfl, rfl, congrArg some hentity.symm, rfl, .inr rfl, hdesc⟩

/-- A document that is saved is read as the sets of the inventory. -/
theorem exists_setFiles_saveFile {inv : Inventory T L}
    (hdesc : Describes lib txt inv.path fs (inv.tomlsnp.initialSet.getD .empty) inv.snapmap)
    (hentity : inv.tomlsnp.entity = some inv.entity)
    (hkept : inv.tomlsnp.reprinted txt = inv.tomlsnp) (hfile : inv.resultfile ≠ [])
    (docs : DocStore L) (sfile : Text) :
    ∃ n again fault, setFiles lib txt n fs (inv.saveFile txt docs) inv.resultfile sfile inv.path
      (create inv.entity) = some (again, fault) ∧ again.snapmap = inv.snapmap := by
  have hdoc : inv.saveFile txt docs inv.resultfile = some inv.tomlsnp := by
    rw [saveFile, if_neg hfile, Function.update_self, hkept]
  cases hsets : inv.tomlsnp.initialSet with
  | none =>
    rw [hsets] at hdesc
    refine ⟨0, ⟨.unSet, inv.entity, 0, .empty, none, inv.tomlsnp, sfile, inv.path,
      "anonymous".toList, []⟩, some (.raised .tomlError), ?_,
      KeyMap.ext_entries (List.forall₂_nil_left_iff.1 hdesc).symm⟩
    simp only [setFiles, if_neg hfile, hdoc, hentity, hsets, create, ne_eq, not_true_eq_false,
      if_false]
  | some sets =>
    rw [hsets, Option.getD_some] at hdesc
    obtain ⟨n₀, hn₀⟩ := readSets_of_describes .empty hdesc inv.snapmap.sorted
    obtain ⟨snapmap, hread, hentries⟩ := hn₀ n₀ (Nat.le_refl _)
    refine ⟨n₀, ⟨.unSet, inv.entity, 0, snapmap, none, inv.tomlsnp, sfile, inv.path,
      "anonymous".toList, []⟩, none, ?_, KeyMap.ext_entries hentries⟩
    simp only [setFiles, if_neg hfile, hdoc, hentity, hsets, create, ne_eq, not_true_eq_false,
      if_false, hread, Option.map_some, Option.map_none]

end Inventory

end Dueca.Dusime
