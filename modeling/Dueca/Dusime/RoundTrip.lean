import Dueca.Dusime.Snapshot

/-!
# Snapshots from toml

A snapshot comes back from its toml code as it was, with two exceptions. Base64 text does not say
how many bytes there were, and zeros at the end are taken for what fills the text; so data that end
in a zero are cut. Numbers in a file have fewer digits than it takes to read each number back.
-/

namespace Dueca.Dusime

open Dueca.Lib

variable {w n : ℕ} {d : Bytes} {numbers found : List Bytes} {txt : NumberText w}
  {it : Base64Iterators}

/-! ### Base64 -/

theorem rdropWhile_append_zeros (d : Bytes) (k : ℕ) :
    (d ++ List.replicate k 0).rdropWhile (· = 0) = d.rdropWhile (· = 0) := by
  induction k with
  | zero => rw [List.replicate_zero, List.append_nil]
  | succ k ih =>
    rw [List.replicate_succ', ← List.append_assoc, List.rdropWhile_concat_pos _ _ _ (by simp), ih]

/-- Base64 keeps data up to the zeros at their end. -/
theorem decode64_encode64 (it : Base64Iterators) (d : Bytes) :
    decode64 it (encode64 it d) = d.rdropWhile (· = 0) := by
  have hdecode := it.decode_encode d
  unfold fillLength at hdecode
  rw [decode64, encode64, hdecode, rdropWhile_append_zeros]

theorem rdropWhile_zeros_iff : d.rdropWhile (· = 0) = d ↔ d.getLast? ≠ some 0 := by
  rw [List.rdropWhile_eq_self_iff]
  rcases List.eq_nil_or_concat d with rfl | ⟨l, x, rfl⟩
  · simp
  · simp [List.getLast?_append]

/-! ### Numbers -/

theorem unpackNumbers_ok (h : unpackNumbers w n d = .ok numbers) :
    numbers.flatten = d ∧ ∀ v ∈ numbers, v.length = w := by
  induction n generalizing d numbers with
  | zero =>
    cases d with
    | nil =>
      obtain rfl := Except.ok.inj h
      exact ⟨rfl, fun v hv => absurd hv List.not_mem_nil⟩
    | cons b d => cases h
  | succ n ih =>
    cases d with
    | nil =>
      obtain rfl := Except.ok.inj h
      exact ⟨rfl, fun v hv => absurd hv List.not_mem_nil⟩
    | cons b d =>
      rw [unpackNumbers] at h
      split at h
      · cases h
      · next hlen =>
        cases hrest : unpackNumbers w n ((b :: d).drop w) with
        | error e =>
          rw [hrest] at h
          cases h
        | ok rest =>
          rw [hrest] at h
          obtain rfl := Except.ok.inj h
          obtain ⟨hflatten, hlength⟩ := ih hrest
          refine ⟨by rw [List.flatten_cons, hflatten, List.take_append_drop], fun v hv => ?_⟩
          rcases List.mem_cons.1 hv with rfl | hv
          · rw [List.length_take, Nat.min_eq_left (Nat.not_lt.1 hlen)]
          · exact hlength v hv

/-- The data can be unpacked if and only if they have a whole number of numbers. -/
theorem exists_unpackNumbers_iff (hw : 0 < w) (hn : d.length ≤ n) :
    (∃ numbers, unpackNumbers w n d = .ok numbers) ↔ w ∣ d.length := by
  induction n generalizing d with
  | zero =>
    obtain rfl := List.eq_nil_of_length_eq_zero (Nat.le_zero.1 hn)
    exact ⟨fun _ => Nat.dvd_zero w, fun _ => ⟨[], rfl⟩⟩
  | succ n ih =>
    cases d with
    | nil => exact ⟨fun _ => Nat.dvd_zero w, fun _ => ⟨[], rfl⟩⟩
    | cons b d =>
      rw [unpackNumbers]
      split
      · next hlen =>
        constructor
        · rintro ⟨numbers, h⟩
          cases h
        · exact fun hdvd => absurd (Nat.le_of_dvd (Nat.succ_pos _) hdvd) (Nat.not_le.2 hlen)
      · next hlen =>
        have hle := Nat.not_lt.1 hlen
        have hdrop : ((b :: d).drop w).length ≤ n := by
          rw [List.length_drop]
          omega
        have hdvd : w ∣ (b :: d).length ↔ w ∣ ((b :: d).drop w).length := by
          rw [List.length_drop, Nat.dvd_sub_iff_left hle (Nat.dvd_refl w)]
        rw [hdvd, ← ih hdrop]
        cases unpackNumbers w n ((b :: d).drop w) with
        | error e => exact ⟨fun ⟨_, h⟩ => (nomatch h), fun ⟨_, h⟩ => (nomatch h)⟩
        | ok rest => exact ⟨fun _ => ⟨rest, rfl⟩, fun _ => ⟨_, rfl⟩⟩

/-- After a failure the loop does not end. -/
theorem not_returns_fail : ¬Returns (numbersBody txt) (found, .fail) numbers := by
  rintro ⟨n, hn⟩
  refine not_ends_of_invariant (I := fun st : List Bytes × Extract => st.2 = .fail)
    (fun st hst => ?_) (s := (found, Extract.fail)) rfl ⟨n, numbers, hn⟩
  obtain ⟨found, _⟩ := st
  obtain rfl := hst
  exact ⟨_, rfl, rfl⟩

/-- What is read from a file with numbers: all of them can be read, and these are the result. -/
theorem returns_numberLines (hlength : ∀ v ∈ numbers, v.length = w) (acc : List Bytes) :
    Returns (numbersBody txt) (acc, txt.extract (numberLines txt numbers)) found ↔
      (∀ v ∈ numbers, (txt.reread v).isSome) ∧ found = acc ++ numbers.filterMap txt.reread := by
  induction numbers generalizing acc with
  | nil =>
    have hdone : numbersBody txt (acc, .eof) = .inr acc := rfl
    rw [numberLines, List.flatMap_nil, txt.extract_nil, returns_iff_done hdone,
      List.filterMap_nil, List.append_nil]
    exact ⟨fun h => ⟨fun v hv => absurd hv List.not_mem_nil, h.symm⟩, fun h => h.2.symm⟩
  | cons v numbers ih =>
    have hv := hlength v List.mem_cons_self
    have hlines : numberLines txt (v :: numbers) =
        txt.print v ++ newline :: numberLines txt numbers := by
      rw [numberLines, List.flatMap_cons, List.append_assoc]
      rfl
    rw [hlines, txt.extract_print v _ hv]
    cases hreread : txt.reread v with
    | none =>
      constructor
      · exact fun h => absurd h not_returns_fail
      · rintro ⟨hall, -⟩
        have hsome := hall v List.mem_cons_self
        rw [hreread] at hsome
        cases hsome
    | some v' =>
      have hnext : numbersBody txt (acc, .number v' (newline :: numberLines txt numbers)) =
          .inl (acc ++ [v'], txt.extract (numberLines txt numbers)) := by
        rw [numbersBody, if_neg (List.cons_ne_nil _ _), txt.extract_newline]
      simp only [returns_iff_next hnext]
      rw [ih (fun u hu => hlength u (List.mem_cons_of_mem v hu)),
        List.filterMap_cons_some hreread, List.append_assoc, List.forall_mem_cons, hreread]
      simp

/-- Numbers of one length that give the same bytes are the same. -/
theorem reread_eq (hlength : ∀ v ∈ numbers, v.length = w)
    (hsome : ∀ v ∈ numbers, (txt.reread v).isSome)
    (hflatten : (numbers.filterMap txt.reread).flatten = numbers.flatten) :
    ∀ v ∈ numbers, txt.reread v = some v := by
  induction numbers with
  | nil => exact fun v hv => absurd hv List.not_mem_nil
  | cons v numbers ih =>
    obtain ⟨v', hv'⟩ := Option.isSome_iff_exists.1 (hsome v List.mem_cons_self)
    have hv := hlength v List.mem_cons_self
    rw [List.filterMap_cons_some hv', List.flatten_cons, List.flatten_cons] at hflatten
    obtain ⟨rfl, hrest⟩ := List.append_inj hflatten ((txt.length_reread v v' hv hv').trans hv.symm)
    refine List.forall_mem_cons.2 ⟨hv', ih (fun u hu => ?_) (fun u hu => ?_) hrest⟩
    · exact hlength u (List.mem_cons_of_mem _ hu)
    · exact hsome u (List.mem_cons_of_mem _ hu)

/-- The numbers come back if and only if each of them is read as what it was. -/
theorem readNumbers_iff (hlength : ∀ v ∈ numbers, v.length = w) :
    (∃ n found, readNumbers txt n (numberLines txt numbers) = some found ∧
        found.flatten = numbers.flatten) ↔ ∀ v ∈ numbers, txt.reread v = some v := by
  have hreturns : ∀ found, (∃ n, readNumbers txt n (numberLines txt numbers) = some found) ↔
      (∀ v ∈ numbers, (txt.reread v).isSome) ∧ found = numbers.filterMap txt.reread :=
    fun found => returns_numberLines hlength []
  constructor
  · rintro ⟨n, found, hn, hflatten⟩
    obtain ⟨hsome, rfl⟩ := (hreturns found).1 ⟨n, hn⟩
    exact reread_eq hlength hsome hflatten
  · intro h
    have hfilter : numbers.filterMap txt.reread = numbers := by
      rw [List.filterMap_congr h]
      exact List.filterMap_some
    obtain ⟨n, hn⟩ := (hreturns numbers).2 ⟨fun v hv => by rw [h v hv]; rfl, hfilter.symm⟩
    exact ⟨n, numbers, hn, rfl⟩

/-! ### Snapshots -/

theorem readFromString_getString (coding : SnapCoding) :
    ∃ name, coding.getString = some name ∧ SnapCoding.readFromString name = some coding := by
  cases coding <;> exact ⟨_, rfl, rfl⟩

namespace Snapshot

variable {lib : Libraries} {s : Snapshot} {fname path : Text} {fs : FileStore}

/-- The snapshots that come back. -/
def Recoverable (lib : Libraries) (s : Snapshot) : Prop :=
  match s.coding with
  | .unSpecified | .base64 | .base64File => s.data.getLast? ≠ some 0
  | .json | .xml | .binaryFile | .jsonFile | .xmlFile => True
  | .floats => 4 ∣ s.data.length
  | .doubles => 8 ∣ s.data.length
  | .floatFile => ∃ numbers, unpackNumbers 4 s.data.length s.data = .ok numbers ∧
      ∀ v ∈ numbers, lib.float.reread v = some v
  | .doubleFile => ∃ numbers, unpackNumbers 8 s.data.length s.data = .ok numbers ∧
      ∀ v ∈ numbers, lib.double.reread v = some v

/-- What `tomlCode` writes is read as the same snapshot. -/
def RoundTrips (lib : Libraries) (s : Snapshot) (fname path : Text) (fs : FileStore) : Prop :=
  ∃ coded fs', s.tomlCode lib fname path fs = .ok (coded, fs') ∧
    ∃ n s', ofToml lib coded path fs' n = some (.ok s') ∧ s'.data = s.data ∧
      s'.originator = s.originator ∧ s'.coding = s.coding ∧ s'.dataSize = s.data.length

/-- Only the data are in question. -/
theorem ofToml_iff {name : String} {coded : Coded} {fs' : FileStore}
    (hname : SnapCoding.readFromString name = some s.coding)
    (hcoding : coded.coding = some name) (horigin : coded.origin = some s.originator) :
    (∃ n s', ofToml lib coded path fs' n = some (.ok s') ∧ s'.data = s.data ∧
        s'.originator = s.originator ∧ s'.coding = s.coding ∧ s'.dataSize = s.data.length) ↔
      ∃ n, findData lib s.coding coded path fs' n = some (.ok s.data) := by
  have hofToml : ∀ n, ofToml lib coded path fs' n =
      (findData lib s.coding coded path fs' n).map fun data =>
        data.map fun data => ⟨data, s.originator, s.coding, data.length⟩ := fun n => by
    simp only [ofToml, horigin, hcoding, hname]
  constructor
  · rintro ⟨n, s', hs', hdata, -⟩
    refine ⟨n, ?_⟩
    rw [hofToml, Option.map_eq_some_iff] at hs'
    obtain ⟨_ | data, hfind, hmap⟩ := hs'
    · cases hmap
    · rw [hfind, ← hdata, ← Except.ok.inj hmap]
  · rintro ⟨n, hfind⟩
    refine ⟨n, ⟨s.data, s.originator, s.coding, s.data.length⟩, ?_, rfl, rfl, rfl, rfl⟩
    rw [hofToml, hfind]
    rfl

/-- When the code is known. -/
theorem roundTrips_of_code {name : String} {coded : Coded} {fs' : FileStore}
    (hcode : s.tomlCode lib fname path fs = .ok (coded, fs'))
    (hname : SnapCoding.readFromString name = some s.coding)
    (hcoding : coded.coding = some name) (horigin : coded.origin = some s.originator) :
    s.RoundTrips lib fname path fs ↔
      ∃ n, findData lib s.coding coded path fs' n = some (.ok s.data) := by
  rw [← ofToml_iff hname hcoding horigin]
  constructor
  · rintro ⟨coded', fs'', hcode', hread⟩
    obtain ⟨rfl, rfl⟩ := Prod.mk.inj (Except.ok.inj (hcode.symm.trans hcode'))
    exact hread
  · exact fun hread => ⟨coded, fs', hcode, hread⟩

theorem exists_same {α : Type} {f : ℕ → Option (Except Raised α)} {x : α}
    (h : ∀ n, f n = some (.ok x)) : (∃ n, f n = some (.ok x)) ↔ True :=
  ⟨fun _ => trivial, fun _ => ⟨0, h 0⟩⟩

/-- Data that are read from Base64. -/
theorem exists_decode64 {f : ℕ → Option (Except Raised Bytes)}
    (h : ∀ n, f n = some (.ok (decode64 it (encode64 it d)))) :
    (∃ n, f n = some (.ok d)) ↔ d.getLast? ≠ some 0 := by
  rw [← rdropWhile_zeros_iff, ← decode64_encode64 it d]
  constructor
  · rintro ⟨n, hn⟩
    exact Except.ok.inj (Option.some.inj ((h n).symm.trans hn))
  · exact fun heq => ⟨0, (h 0).trans (by rw [heq])⟩

/-- Data that are unpacked to numbers. -/
theorem roundTrips_numbers {code : List Bytes → Coded × FileStore} {P : List Bytes → Prop}
    (hcode : s.tomlCode lib fname path fs =
      (unpackNumbers w s.data.length s.data).map code)
    (hread : ∀ numbers, unpackNumbers w s.data.length s.data = .ok numbers →
      s.tomlCode lib fname path fs = .ok (code numbers) →
      (s.RoundTrips lib fname path fs ↔ P numbers)) :
    s.RoundTrips lib fname path fs ↔
      ∃ numbers, unpackNumbers w s.data.length s.data = .ok numbers ∧ P numbers := by
  cases hnumbers : unpackNumbers w s.data.length s.data with
  | error e =>
    rw [hnumbers] at hcode
    constructor
    · rintro ⟨coded, fs', hcode', -⟩
      cases hcode.symm.trans hcode'
    · rintro ⟨numbers, h, -⟩
      cases h
  | ok numbers =>
    rw [hnumbers] at hcode
    rw [hread numbers hnumbers hcode]
    exact ⟨fun h => ⟨numbers, rfl, h⟩, fun ⟨_, h, hP⟩ => Except.ok.inj h ▸ hP⟩

/-- Numbers in the document. -/
theorem exists_findNumbers {f : ℕ → Option (Except Raised Bytes)}
    (hnumbers : unpackNumbers w n d = .ok numbers)
    (h : ∀ n, f n = some (.ok numbers.flatten)) : (∃ n, f n = some (.ok d)) ↔ True := by
  rw [(unpackNumbers_ok hnumbers).1] at h
  exact exists_same h

/-- Numbers in a file. -/
theorem exists_fileNumbers {coded : Coded}
    (hnumbers : unpackNumbers w n d = .ok numbers)
    (hfile : findFile coded path fs = .ok (numberLines txt numbers)) :
    (∃ n, fileNumbers txt coded path fs n = some (.ok d)) ↔
      ∀ v ∈ numbers, txt.reread v = some v := by
  obtain ⟨hflatten, hlength⟩ := unpackNumbers_ok hnumbers
  rw [← readNumbers_iff hlength]
  simp only [fileNumbers, hfile, Option.map_eq_some_iff, Except.ok.injEq, hflatten]

theorem findFile_inFile (name : String) (contents : Bytes) :
    findFile (s.inFile name fname path contents fs).1 path
      (s.inFile name fname path contents fs).2 = .ok contents := by
  simp only [findFile, inFile, Function.update_self]

/-- With a name for the file when one is to be written, a snapshot comes back if and only if its
data do. -/
theorem roundTrips_iff_recoverable (hfile : s.coding.saveExternal = true → fname ≠ []) :
    s.RoundTrips lib fname path fs ↔ s.Recoverable lib := by
  obtain ⟨name, hname, hread⟩ := readFromString_getString s.coding
  have hassert : ¬(s.coding.saveExternal = true ∧ fname.length = 0) :=
    fun ⟨hsave, hlen⟩ => hfile hsave (List.eq_nil_of_length_eq_zero hlen)
  rw [Recoverable]
  cases hcoding : s.coding with
  | unSpecified | base64 =>
    have hcode : s.tomlCode lib fname path fs = .ok (⟨some name, some s.originator,
        some (.string (encode64 lib.iterators s.data)), none⟩, fs) := by
      simp only [tomlCode, hname, if_neg hassert]
      simp only [hcoding]
    rw [roundTrips_of_code hcode hread rfl rfl, hcoding]
    exact exists_decode64 fun _ => rfl
  | json | xml =>
    have hcode : s.tomlCode lib fname path fs =
        .ok (⟨some name, some s.originator, some (.string s.data), none⟩, fs) := by
      simp only [tomlCode, hname, if_neg hassert]
      simp only [hcoding]
    rw [roundTrips_of_code hcode hread rfl rfl, hcoding]
    exact exists_same fun _ => rfl
  | floats =>
    rw [← exists_unpackNumbers_iff (Nat.succ_pos 3) (Nat.le_refl _)]
    have hcode : s.tomlCode lib fname path fs = (unpackNumbers 4 s.data.length s.data).map
        fun v => (⟨some name, some s.originator, some (.array v), none⟩, fs) := by
      simp only [tomlCode, hname, if_neg hassert]
      simp only [hcoding]
    rw [roundTrips_numbers (P := fun _ => True) hcode fun numbers hnumbers hcode => by
      rw [roundTrips_of_code hcode hread rfl rfl, hcoding]
      exact exists_findNumbers hnumbers fun _ => rfl]
    simp only [and_true]
  | doubles =>
    rw [← exists_unpackNumbers_iff (Nat.succ_pos 7) (Nat.le_refl _)]
    have hcode : s.tomlCode lib fname path fs = (unpackNumbers 8 s.data.length s.data).map
        fun v => (⟨some name, some s.originator, some (.array v), none⟩, fs) := by
      simp only [tomlCode, hname, if_neg hassert]
      simp only [hcoding]
    rw [roundTrips_numbers (P := fun _ => True) hcode fun numbers hnumbers hcode => by
      rw [roundTrips_of_code hcode hread rfl rfl, hcoding]
      exact exists_findNumbers hnumbers fun _ => rfl]
    simp only [and_true]
  | binaryFile | jsonFile | xmlFile =>
    have hcode : s.tomlCode lib fname path fs = .ok (s.inFile name fname path s.data fs) := by
      simp only [tomlCode, hname, if_neg hassert]
      simp only [hcoding]
    rw [roundTrips_of_code hcode hread rfl rfl, hcoding]
    exact exists_same fun _ => congrArg some (findFile_inFile name s.data)
  | base64File =>
    have hcode : s.tomlCode lib fname path fs =
        .ok (s.inFile name fname path (encode64 lib.iterators s.data) fs) := by
      simp only [tomlCode, hname, if_neg hassert]
      simp only [hcoding]
    rw [roundTrips_of_code hcode hread rfl rfl, hcoding]
    exact exists_decode64 fun _ =>
      congrArg (fun x => some (Except.map (decode64 lib.iterators) x)) (findFile_inFile name _)
  | floatFile =>
    have hcode : s.tomlCode lib fname path fs = (unpackNumbers 4 s.data.length s.data).map
        fun v => s.inFile name fname path (numberLines lib.float v) fs := by
      simp only [tomlCode, hname, if_neg hassert]
      simp only [hcoding]
    refine roundTrips_numbers hcode fun numbers hnumbers hcode => ?_
    rw [roundTrips_of_code hcode hread rfl rfl, hcoding]
    exact exists_fileNumbers hnumbers (findFile_inFile name _)
  | doubleFile =>
    have hcode : s.tomlCode lib fname path fs = (unpackNumbers 8 s.data.length s.data).map
        fun v => s.inFile name fname path (numberLines lib.double v) fs := by
      simp only [tomlCode, hname, if_neg hassert]
      simp only [hcoding]
    refine roundTrips_numbers hcode fun numbers hnumbers hcode => ?_
    rw [roundTrips_of_code hcode hread rfl rfl, hcoding]
    exact exists_fileNumbers hnumbers (findFile_inFile name _)

/-- A snapshot comes back if and only if its data do, and a name is given when a file is to be
written. -/
theorem roundTrips_iff (lib : Libraries) (s : Snapshot) (fname path : Text) (fs : FileStore) :
    s.RoundTrips lib fname path fs ↔
      (s.coding.saveExternal = true → fname ≠ []) ∧ s.Recoverable lib := by
  by_cases hfile : s.coding.saveExternal = true → fname ≠ []
  · rw [and_iff_right hfile, roundTrips_iff_recoverable hfile]
  · refine iff_of_false ?_ fun h => hfile h.1
    rintro ⟨coded, fs', hcode, -⟩
    rw [Classical.not_imp, not_not] at hfile
    obtain ⟨name, hname, -⟩ := readFromString_getString s.coding
    have hassert : s.coding.saveExternal = true ∧ fname.length = 0 :=
      ⟨hfile.1, congrArg List.length hfile.2⟩
    have herror : s.tomlCode lib fname path fs = .error .assertion := by
      simp only [tomlCode, hname, if_pos hassert]
    cases herror.symm.trans hcode

/-! ### Two snapshots -/

def base64Iterators : Base64Iterators := ⟨encodeBytes, decodeChars, decodeChars_encodeBytes⟩

/-- What `>>` finds in a file with zeros. -/
def extractZero (w : ℕ) : Bytes → Extract
  | [] => .eof
  | c :: rest =>
    if c = newline then extractZero w rest
    else if c = 48 then .number (List.replicate w 0) rest
    else .fail

/-- The text of zero is `0`, and can be read. Other numbers are not looked at. -/
def zeroText (w : ℕ) : NumberText w where
  print v := if v = List.replicate w 0 then [48] else [110, 97, 110]
  reread v := if v = List.replicate w 0 then some v else none
  extract := extractZero w
  length_reread v v' hv h := by
    split at h
    · rwa [← Option.some.inj h]
    · cases h
  extract_print v rest _ := by
    by_cases h : v = List.replicate w 0
    · rw [if_pos h, if_pos h, h]
      rfl
    · rw [if_neg h, if_neg h]
      rfl
  extract_newline rest := rfl
  extract_nil := rfl

def zeroLibraries : Libraries := ⟨base64Iterators, zeroText 4, zeroText 8⟩

/-- Two floats that are zero. -/
def twoFloats : Snapshot := ⟨List.replicate 8 0, ['m'], .floatFile, 8⟩

theorem roundTrips_twoFloats :
    twoFloats.RoundTrips zeroLibraries ['f'] ['d', '/'] fun _ => none := by
  refine (roundTrips_iff zeroLibraries twoFloats ['f'] ['d', '/'] _).2
    ⟨fun _ => List.cons_ne_nil _ _, ?_⟩
  refine ⟨[List.replicate 4 0, List.replicate 4 0], rfl, fun v hv => ?_⟩
  obtain rfl : v = List.replicate 4 0 := by simpa using hv
  rfl

/-- The last byte is lost. -/
def endsInZero : Snapshot := ⟨[1, 0], ['m'], .base64, 2⟩

theorem not_roundTrips_endsInZero :
    ¬endsInZero.RoundTrips zeroLibraries [] [] fun _ => none := by
  rintro ⟨coded, fs', hcode, n, s', hread, hdata, -⟩
  obtain ⟨rfl, rfl⟩ := Prod.mk.inj (Except.ok.inj hcode)
  have hdecode : decode64 base64Iterators (encode64 base64Iterators [1, 0]) = [1] := by decide
  have hs' : s'.data = decode64 base64Iterators (encode64 base64Iterators [1, 0]) :=
    congrArg Snapshot.data (Except.ok.inj (Option.some.inj hread)).symm
  rw [hdata, hdecode] at hs'
  exact absurd hs' (by decide)

end Snapshot

end Dueca.Dusime
