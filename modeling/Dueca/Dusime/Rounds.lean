import Dueca.Dusime.Document
import Dueca.Lib.Run

/-!
# Snapshots are collected by rounds

In a round, modules send snapshots that are stamped with the tick of the round. Whether one of them
opens a set or joins the last one depends on the time of the activation that reads it. So it goes
to the set of its round, if the first one of a round is read by an activation that is later than
all before, and the other ones follow before the next round, and not in a later activation. Then
the document describes the sets, and can be saved and read.
-/

namespace Dueca.Dusime

open Dueca.Lib

variable {T L : Type} {lib : Libraries} {txt : TomlText T L} {path name : Text}
  {fs fs' : FileStore} {start snapmap : TextMap (SnapshotData T)} {received : List SnapEvent}
  {e : SnapEvent} {setOf : ℕ → Text}

/-! ### Sets for rounds -/

/-- The snapshots of a round, as they have come. -/
def roundSnaps (received : List SnapEvent) (tick : ℕ) : List Snapshot :=
  (received.filter (·.tick = tick)).map (·.snap.copy)

/-- For each round there is a set of its own with its snapshots. The other sets are those that were
there at the start, as they were. -/
structure Collects (start snapmap : TextMap (SnapshotData T)) (received : List SnapEvent)
    (setOf : ℕ → Text) : Prop where
  fresh : ∀ e ∈ received, start.value? (setOf e.tick) = none
  held : ∀ e ∈ received, ∃ time,
    snapmap.value? (setOf e.tick) = some ⟨roundSnaps received e.tick, time⟩
  distinct : ∀ e ∈ received, ∀ f ∈ received, setOf e.tick = setOf f.tick → e.tick = f.tick
  others : ∀ name, snapmap.value? name = start.value? name ∨ ∃ e ∈ received, setOf e.tick = name

theorem roundSnaps_concat (received : List SnapEvent) (e : SnapEvent) (tick : ℕ) :
    roundSnaps (received ++ [e]) tick =
      if e.tick = tick then roundSnaps received tick ++ [e.snap.copy]
      else roundSnaps received tick := by
  unfold roundSnaps
  rw [List.filter_append, List.map_append]
  split
  · next h => rw [List.filter_cons_of_pos (by exact decide_eq_true h)]; rfl
  · next h => rw [List.filter_cons_of_neg (by simpa using h), List.filter_nil, List.map_nil,
      List.append_nil]

theorem roundSnaps_eq_nil {tick : ℕ} (h : ∀ e ∈ received, e.tick ≠ tick) :
    roundSnaps received tick = [] := by
  rw [roundSnaps, List.filter_eq_nil_iff.2 fun e he => by simpa using h e he, List.map_nil]

theorem Collects.value_start (h : Collects start snapmap received setOf)
    (hname : snapmap.value? name = none) : start.value? name = none := by
  obtain heq | ⟨e, he, rfl⟩ := h.others name
  · rw [← heq, hname]
  · exact h.fresh e he

/-- A snapshot of a new round goes to a new set, and any other one to the set of its round. -/
theorem Collects.concat {snapmap' : TextMap (SnapshotData T)}
    (h : Collects start snapmap received setOf) (time : T)
    (hname : (∀ f ∈ received, f.tick ≠ e.tick) ∧ snapmap.value? name = none ∨
      (∃ f ∈ received, f.tick = e.tick) ∧ setOf e.tick = name)
    (hvalue : ∀ other, snapmap'.value? other =
      if other = name then some ⟨roundSnaps received e.tick ++ [e.snap.copy], time⟩
      else snapmap.value? other) :
    Collects start snapmap' (received ++ [e]) (Function.update setOf e.tick name) := by
  -- a round that is not that of the snapshot has a set of another name
  have hother : ∀ f ∈ received, f.tick ≠ e.tick → setOf f.tick ≠ name := by
    intro f hf hne heq
    obtain ⟨-, hnone⟩ | ⟨⟨g, hg, hgtick⟩, hset⟩ := hname
    · obtain ⟨t, ht⟩ := h.held f hf
      rw [heq, hnone] at ht
      cases ht
    · have := h.distinct f hf g hg (by rw [heq, hgtick, hset])
      exact hne (this.trans hgtick)
  have hupdate : ∀ f ∈ received, f.tick ≠ e.tick →
      Function.update setOf e.tick name f.tick = setOf f.tick :=
    fun f _ hne => Function.update_of_ne hne _ _
  have hmem : ∀ f ∈ received ++ [e], f.tick = e.tick ∨ f ∈ received ∧ f.tick ≠ e.tick := by
    intro f hf
    by_cases htick : f.tick = e.tick
    · exact .inl htick
    · obtain hf | hf := List.mem_append.1 hf
      · exact .inr ⟨hf, htick⟩
      · exact absurd (congrArg _ (List.mem_singleton.1 hf)) htick
  refine ⟨fun f hf => ?_, fun f hf => ?_, fun f hf g hg => ?_, fun other => ?_⟩
  · obtain htick | ⟨hf, hne⟩ := hmem f hf
    · rw [htick, Function.update_self]
      obtain ⟨-, hnone⟩ | ⟨⟨g, hg, hgtick⟩, rfl⟩ := hname
      · exact h.value_start hnone
      · exact hgtick ▸ h.fresh g hg
    · rw [hupdate f hf hne]
      exact h.fresh f hf
  · obtain htick | ⟨hf, hne⟩ := hmem f hf
    · refine ⟨time, ?_⟩
      rw [htick, Function.update_self, hvalue, if_pos rfl, roundSnaps_concat, if_pos rfl]
    · rw [hupdate f hf hne, hvalue, if_neg (hother f hf hne), roundSnaps_concat,
        if_neg (Ne.symm hne)]
      exact h.held f hf
  · intro heq
    obtain hf | ⟨hf, hfne⟩ := hmem f hf <;> obtain hg | ⟨hg, hgne⟩ := hmem g hg
    · rw [hf, hg]
    · rw [hf, Function.update_self, hupdate g hg hgne] at heq
      exact absurd heq.symm (hother g hg hgne)
    · rw [hg, Function.update_self, hupdate f hf hfne] at heq
      exact absurd heq (hother f hf hfne)
    · rw [hupdate f hf hfne, hupdate g hg hgne] at heq
      exact h.distinct f hf g hg heq
  · by_cases heq : other = name
    · refine .inr ⟨e, List.mem_append_right _ (List.mem_singleton_self e), ?_⟩
      rw [Function.update_self, heq]
    · rw [hvalue, if_neg heq]
      refine (h.others other).imp_right ?_
      rintro ⟨f, hf, rfl⟩
      have hne : f.tick ≠ e.tick := fun htick => by
        obtain ⟨hall, -⟩ | ⟨-, hset⟩ := hname
        · exact hall f hf htick
        · exact heq (htick ▸ hset)
      exact ⟨f, List.mem_append_left _ hf, hupdate f hf hne⟩

/-! ### The document -/

theorem initial_kept_iff {set : SetDoc L} : set.reprinted txt = set ↔
    ∀ initial, set.initial = some initial → ∀ coded ∈ initial, coded.reprinted txt = coded := by
  obtain ⟨date, _ | initial⟩ := set
  · exact iff_of_true rfl nofun
  · have hmap : initial.map (Coded.reprinted txt) = initial ↔
        ∀ coded ∈ initial, coded.reprinted txt = coded := by
      conv_lhs => rhs; rw [← List.map_id initial]
      simp only [List.map_inj_left, id]
    simp only [SetDoc.reprinted, Option.map_some, SetDoc.mk.injEq, true_and, Option.some.injEq,
      hmap, forall_eq']

theorem doc_kept_iff {doc : TomlDoc L} : doc.reprinted txt = doc ↔
    ∀ sets, doc.initialSet = some sets → ∀ e ∈ sets.entries, e.2.reprinted txt = e.2 := by
  obtain ⟨entity, _ | sets⟩ := doc
  · exact iff_of_true rfl nofun
  · simp only [TomlDoc.reprinted, Option.map_some, TomlDoc.mk.injEq, true_and, Option.some.injEq,
      KeyMap.mapValues_eq_self, forall_eq']

namespace Inventory

variable {inv : Inventory T L} {s : Snapshot} {coded : Coded} {now : T} {ts : ℕ}

/-- The sets of the document. -/
def docSets (inv : Inventory T L) : TextMap (SetDoc L) := inv.tomlsnp.initialSet.getD .empty

theorem ne_of_value_none (h : snapmap.value? name = none) : ∀ f ∈ snapmap.entries, f.1 ≠ name := by
  rintro ⟨_, set⟩ hf rfl
  rw [(KeyMap.value?_eq_some Function.injective_id).2 hf] at h
  cases h

/-- A new set is described by a new table. -/
theorem describes_openSet (hname : inv.snapmap.value? name = none)
    (htime : txt.ofLocal (txt.toLocal now) = now)
    (h : Describes lib txt path fs inv.docSets inv.snapmap) :
    Describes lib txt path fs (openSet txt ts now name inv).docSets
      (openSet txt ts now name inv).snapmap :=
  KeyMap.forall₂_put (fun _ _ h => h.name) (ne_of_value_none hname)
    ⟨rfl, ⟨_, rfl, htime.symm⟩, [], rfl, .nil⟩ h

theorem kept_openSet (h : inv.tomlsnp.reprinted txt = inv.tomlsnp) :
    (openSet txt ts now name inv).tomlsnp.reprinted txt =
      (openSet txt ts now name inv).tomlsnp := by
  rw [doc_kept_iff] at h ⊢
  intro sets' hsets' f hf
  obtain rfl : (inv.tomlsnp.initialSet.getD .empty).assign name
      ⟨some (txt.toLocal now), some []⟩ = sets' := Option.some.inj hsets'
  obtain rfl | ⟨hf, -⟩ := (KeyMap.mem_assign Function.injective_id).1 hf
  · rfl
  · cases hsets : inv.tomlsnp.initialSet with
    | none =>
      rw [hsets] at hf
      cases hf
    | some sets =>
      rw [hsets] at hf
      exact h sets hsets f hf

/-- The code that is added describes the snapshot that is added. -/
theorem describes_pushSnapshot (hkeeps : Keeps fs fs') (hreads : Reads lib path fs' coded s.copy)
    (h : Describes lib txt path fs inv.docSets inv.snapmap) :
    Describes lib txt path fs' (inv.pushSnapshot name s coded).docSets
      (inv.pushSnapshot name s coded).snapmap := by
  have h' : Describes lib txt path fs' inv.docSets inv.snapmap :=
    h.imp fun _ _ hset => hset.keeps hkeeps
  cases hsets : inv.tomlsnp.initialSet with
  | none =>
    have hnil : inv.snapmap.entries = [] := by
      rw [docSets, hsets] at h'
      exact List.forall₂_nil_left_iff.1 h'
    simp only [Describes, docSets, pushSnapshot, hsets, Option.map_none, Option.getD_none,
      KeyMap.empty, KeyMap.adjust, hnil, List.map_nil]
    exact .nil
  | some sets =>
    simp only [docSets, pushSnapshot, hsets, Option.map_some, Option.getD_some] at h' ⊢
    refine KeyMap.forall₂_adjust (fun _ _ h => h.name) ?_ h'
    rintro set d key - ⟨-, htime, initial, hinitial, hall⟩
    refine ⟨rfl, htime, initial ++ [coded], congrArg (Option.map _) hinitial, ?_⟩
    exact List.rel_append hall (.cons hreads .nil)

theorem kept_pushSnapshot (hcoded : coded.reprinted txt = coded)
    (h : inv.tomlsnp.reprinted txt = inv.tomlsnp) :
    (inv.pushSnapshot name s coded).tomlsnp.reprinted txt =
      (inv.pushSnapshot name s coded).tomlsnp := by
  rw [doc_kept_iff] at h ⊢
  intro sets' hsets'
  obtain ⟨sets, hsets, rfl⟩ := Option.map_eq_some_iff.1 hsets'
  intro f hf
  obtain ⟨g, hg, rfl⟩ := List.mem_map.1 hf
  have hgkept := h sets hsets g hg
  split
  · rw [initial_kept_iff] at hgkept ⊢
    intro initial' hinitial'
    obtain ⟨initial, hinitial, rfl⟩ := Option.map_eq_some_iff.1 hinitial'
    intro c hc
    obtain hc | hc := List.mem_append.1 hc
    · exact hgkept initial hinitial c hc
    · exact List.mem_singleton.1 hc ▸ hcoded
  · exact hgkept

/-! ### What is read -/

/-- The set for a snapshot that is read at `ts`. -/
def setName (ts : ℕ) (names : List ℕ) (inv : Inventory T L) : Option Text :=
  if inv.latestIncoming < ts then inv.findUniqueName names else inv.currentSnapset

theorem value_of_findUniqueName {names : List ℕ} (h : inv.findUniqueName names = some name) :
    inv.snapmap.value? name = none :=
  Option.isNone_iff_eq_none.1
    (List.find?_some (p := fun newname => (inv.snapmap.value? newname).isNone) h)

theorem snapshotFileName_spec {files : List ℕ} {base ext fname : Text}
    (h : snapshotFileName files fs path base ext = some fname) :
    fname ≠ [] ∧ fs (path ++ fname) = none := by
  have hfree := List.find?_some (p := fun trynew => (fs (path ++ trynew)).isNone) h
  refine ⟨?_, Option.isNone_iff_eq_none.1 hfree⟩
  obtain ⟨r, -, rfl⟩ := List.mem_map.1 (List.mem_of_find?_eq_some h)
  exact List.append_ne_nil_of_right_ne_nil _ (List.cons_ne_nil _ _)

/-- A snapshot that can be coded is added. -/
theorem exists_addSnapshot (inv : Inventory T L) {files : List ℕ} (hrec : s.Recoverable lib)
    (hkept : s.Kept txt)
    (hfile : s.coding.saveExternal = true →
      (snapshotFileName files fs inv.path name s.fileExtension).isSome) :
    ∃ coded fs', addSnapshot lib files name s inv fs = .ok (inv.pushSnapshot name s coded, fs') ∧
      Keeps fs fs' ∧ Reads lib inv.path fs' coded s.copy ∧ coded.reprinted txt = coded := by
  obtain ⟨fname, hfname, hfree⟩ : ∃ fname,
      (if s.coding.saveExternal then snapshotFileName files fs inv.path name s.fileExtension
        else some []) = some fname ∧
      (s.coding.saveExternal = true → fname ≠ [] ∧ fs (inv.path ++ fname) = none) := by
    by_cases hsave : s.coding.saveExternal = true
    · obtain ⟨fname, hfname⟩ := Option.isSome_iff_exists.1 (hfile hsave)
      exact ⟨fname, by rw [if_pos hsave, hfname], fun _ => snapshotFileName_spec hfname⟩
    · exact ⟨[], by rw [if_neg hsave], fun h => absurd h hsave⟩
  obtain ⟨coded, fs', hcode, hrest⟩ := s.exists_tomlCode hrec hkept hfree
  refine ⟨coded, fs', ?_, hrest⟩
  rw [addSnapshot, hfname]
  simp only [hcode]

end Inventory

/-! ### Runs -/

open Inventory

/-- Rounds are collected, and the document describes the sets; so when it has been saved, a new
inventory reads the same sets from it. -/
structure Consistent (lib : Libraries) (txt : TomlText T L) (start : TextMap (SnapshotData T))
    (s : Session T L) : Prop where
  collected : ∃ setOf, Collects start s.inv.snapmap s.received setOf
  described : Describes lib txt s.inv.path s.files s.inv.docSets s.inv.snapmap
  saved : s.inv.resultfile ≠ [] → ∀ docs sfile, ∃ n again fault,
    setFiles lib txt n s.files (s.inv.saveFile txt docs) s.inv.resultfile sfile s.inv.path
      (create s.inv.entity) = some (again, fault) ∧ again.snapmap = s.inv.snapmap

/-- A snapshot can be coded, its set and its file get a free name, and an activation that is later
than all before reads the first one of a round. Other activations read snapshots of the round of
which the last one came, from modules that have not sent one in that round. -/
def Careful (lib : Libraries) (txt : TomlText T L) (s : Session T L) : Action T → Prop
  | .receive ts e draw =>
    e.snap.Recoverable lib ∧ e.snap.Kept txt ∧
    (if s.inv.latestIncoming < ts then
      (∀ f ∈ s.received, f.tick ≠ e.tick) ∧ txt.ofLocal (txt.toLocal draw.now) = draw.now
    else
      (∃ f, s.received.getLast? = some f ∧ f.tick = e.tick) ∧
        ∀ f ∈ s.received, f.tick = e.tick → f.snap.originator ≠ e.snap.originator) ∧
    ∃ name, s.inv.setName ts draw.names = some name ∧
      (e.snap.coding.saveExternal = true →
        (snapshotFileName draw.files s.files s.inv.path name e.snap.fileExtension).isSome)
  | .setSnapName _ => True
  | .followDusime => True

/-- What holds between the steps. -/
structure Session.Inv (lib : Libraries) (txt : TomlText T L) (start : TextMap (SnapshotData T))
    (s : Session T L) : Prop where
  collects : ∃ setOf, Collects start s.inv.snapmap s.received setOf ∧
    ∀ f, s.received.getLast? = some f → s.inv.currentSnapset = some (setOf f.tick)
  described : Describes lib txt s.inv.path s.files s.inv.docSets s.inv.snapmap
  kept : s.inv.tomlsnp.reprinted txt = s.inv.tomlsnp
  entity : s.inv.tomlsnp.entity = some s.inv.entity

theorem Session.Inv.consistent {s : Session T L} (h : Session.Inv lib txt start s) :
    Consistent lib txt start s where
  collected := h.collects.imp fun _ => And.left
  described := h.described
  saved hfile docs sfile := exists_setFiles_saveFile h.described h.entity h.kept hfile docs sfile

/-- The first snapshot of a round opens a set. -/
theorem Session.Inv.receive_first {s : Session T L} {ts : ℕ} {draw : Draw T}
    (h : Session.Inv lib txt start s) (hok : Careful lib txt s (.receive ts e draw))
    (hlt : s.inv.latestIncoming < ts) :
    ∃ t, s.step lib txt (.receive ts e draw) = .ok t ∧ Session.Inv lib txt start t := by
  obtain ⟨hrec, hkept, hround, name, hname, hfile⟩ := hok
  rw [if_pos hlt] at hround
  rw [setName, if_pos hlt] at hname
  obtain ⟨hnew, htime⟩ := hround
  have hnone := value_of_findUniqueName hname
  obtain ⟨coded, fs', hadd, hkeeps, hreads, hcoded⟩ :=
    exists_addSnapshot (openSet txt ts draw.now name s.inv) hrec hkept hfile
  obtain ⟨setOf, hcollects, -⟩ := h.collects
  have hstep : s.step lib txt (.receive ts e draw) =
      .ok ⟨(openSet txt ts draw.now name s.inv).pushSnapshot name e.snap coded, fs',
        s.received ++ [e]⟩ := by
    simp only [Session.step, receive, if_pos hlt, hname, hadd, Except.map]
  refine ⟨_, hstep, ?_⟩
  refine ⟨⟨Function.update setOf e.tick name, ?_, fun f hf => ?_⟩, ?_, ?_, h.entity⟩
  · refine hcollects.concat draw.now (.inl ⟨hnew, hnone⟩) fun other => ?_
    rw [roundSnaps_eq_nil hnew]
    refine (KeyMap.value?_adjust Function.injective_id _ _ _ _).trans ?_
    have hvalue := KeyMap.value?_emplace Function.injective_id hnone ⟨[], draw.now⟩ other
    by_cases heq : other = name
    · rw [if_pos heq] at hvalue
      rw [if_pos heq, if_pos heq]
      exact congrArg (Option.map _) hvalue
    · rw [if_neg heq] at hvalue
      rw [if_neg heq, if_neg heq]
      exact hvalue
  · rw [List.getLast?_concat, Option.some.injEq] at hf
    rw [← hf, Function.update_self]
    rfl
  · exact describes_pushSnapshot hkeeps hreads (describes_openSet hnone htime h.described)
  · exact kept_pushSnapshot hcoded (kept_openSet h.kept)

/-- The other ones join it. -/
theorem Session.Inv.receive_next {s : Session T L} {ts : ℕ} {draw : Draw T}
    (h : Session.Inv lib txt start s) (hok : Careful lib txt s (.receive ts e draw))
    (hle : ¬s.inv.latestIncoming < ts) :
    ∃ t, s.step lib txt (.receive ts e draw) = .ok t ∧ Session.Inv lib txt start t := by
  obtain ⟨hrec, hkept, hround, name, hname, hfile⟩ := hok
  rw [if_neg hle] at hround
  rw [setName, if_neg hle] at hname
  obtain ⟨⟨f, hlast, htick⟩, hdouble⟩ := hround
  obtain ⟨coded, fs', hadd, hkeeps, hreads, hcoded⟩ :=
    exists_addSnapshot s.inv hrec hkept hfile
  obtain ⟨setOf, hcollects, hcurrent⟩ := h.collects
  have hf := List.mem_of_getLast? hlast
  obtain rfl : setOf e.tick = name := by
    rw [← Option.some.injEq, ← hname, hcurrent f hlast, htick]
  obtain ⟨time, hheld⟩ := hcollects.held f hf
  rw [htick] at hheld
  have hany : (roundSnaps s.received e.tick).any (·.originator = e.snap.originator) = false := by
    rw [List.any_eq_false]
    intro snap hsnap
    obtain ⟨g, hg, rfl⟩ := List.mem_map.1 hsnap
    obtain ⟨hg, hgtick⟩ := List.mem_filter.1 hg
    exact fun h => hdouble g hg (of_decide_eq_true hgtick) (of_decide_eq_true h)
  have hstep : s.step lib txt (.receive ts e draw) =
      .ok ⟨s.inv.pushSnapshot (setOf e.tick) e.snap coded, fs', s.received ++ [e]⟩ := by
    simp only [Session.step, receive, if_neg hle, hname, hheld, Option.map_some, Option.getD_some,
      hany, hadd, Except.map, Bool.false_eq_true, if_false]
  refine ⟨_, hstep, ?_⟩
  refine ⟨⟨setOf, ?_, fun g hg => ?_⟩, ?_, ?_, h.entity⟩
  · have hvalue : ∀ other, (s.inv.pushSnapshot (setOf e.tick) e.snap coded).snapmap.value? other =
        if other = setOf e.tick then some ⟨roundSnaps s.received e.tick ++ [e.snap.copy], time⟩
        else s.inv.snapmap.value? other := fun other => by
      refine (KeyMap.value?_adjust Function.injective_id _ _ _ _).trans ?_
      by_cases heq : other = setOf e.tick
      · rw [if_pos heq, if_pos heq, heq, hheld]
        rfl
      · rw [if_neg heq, if_neg heq]
    have hconcat := hcollects.concat time (.inr ⟨⟨f, hf, htick⟩, rfl⟩) hvalue
    rwa [Function.update_eq_self] at hconcat
  · rw [List.getLast?_concat, Option.some.injEq] at hg
    rw [← hg]
    exact hname
  · exact describes_pushSnapshot hkeeps hreads h.described
  · exact kept_pushSnapshot hcoded h.kept

/-- What holds before a step holds after it, and the step does not fail. -/
theorem Session.Inv.step {s : Session T L} {action : Action T} (h : Session.Inv lib txt start s)
    (hok : Careful lib txt s action) :
    ∃ t, s.step lib txt action = .ok t ∧ Session.Inv lib txt start t := by
  cases action with
  | receive ts e draw =>
    by_cases hlt : s.inv.latestIncoming < ts
    · exact h.receive_first hok hlt
    · exact h.receive_next hok hlt
  | setSnapName newname => exact ⟨_, rfl, h.collects, h.described, h.kept, h.entity⟩
  | followDusime => exact ⟨_, rfl, h.collects, h.described, h.kept, h.entity⟩

/-- Rounds are collected. The base file can be written again. -/
theorem roundsConsistent_of_run {n : ℕ} {docs : DocStore L} {bfile sfile entity : Text}
    {inv : Inventory T L} {actions : List (Action T)}
    (hset : setFiles lib txt n fs docs bfile sfile path (create entity) = some (inv, none))
    (hbase : ∀ doc, docs bfile = some doc → doc.reprinted txt = doc)
    (hok : Allowed (Session.step lib txt) (Careful lib txt) ⟨inv, fs, []⟩ actions) :
    ∃ s, exec (Session.step lib txt) ⟨inv, fs, []⟩ actions = .ok s ∧
      Consistent lib txt inv.snapmap s := by
  obtain ⟨rfl, rfl, hentity, -, hdoc, hdesc⟩ := describes_of_setFiles hset
  have hinv : Session.Inv lib txt inv.snapmap (⟨inv, fs, []⟩ : Session T L) := by
    refine ⟨⟨fun _ => [], ⟨nofun, nofun, nofun, fun _ => .inl rfl⟩, nofun⟩, hdesc, ?_, hentity⟩
    obtain hnone | hdoc := hdoc
    · rw [doc_kept_iff, hnone]
      exact nofun
    · exact hbase _ hdoc
  obtain ⟨s, hexec, hs⟩ := exec_progress (fun _ _ h hok => h.step hok) hinv hok
  exact ⟨s, hexec, hs.consistent⟩

/-! ### Two rounds -/

/-- Times that are numbers, and numbers that are kept. -/
def plainText : TomlText ℕ ℕ := ⟨id, id, id⟩

def emptyInventory : Inventory ℕ ℕ :=
  ⟨.unSet, ['e'], 0, .empty, none, ⟨some ['e'], none⟩, ['f'], [], "anonymous".toList, []⟩

/-- A snapshot of a module, in JSON, that is read at a time. -/
def readAt (ts tick : ℕ) (origin : Char) (byte : UInt8) : Action ℕ :=
  .receive ts ⟨tick, ⟨[byte], [origin], .json, 1⟩⟩ ⟨ts, [tick], []⟩

/-- A test for snapshots in JSON. -/
def carefulTest (s : Session ℕ ℕ) : Action ℕ → Bool
  | .receive ts e draw =>
    e.snap.coding = .json ∧
    (if s.inv.latestIncoming < ts then ∀ f ∈ s.received, f.tick ≠ e.tick
    else s.received.getLast?.map SnapEvent.tick = some e.tick ∧
        ∀ f ∈ s.received, f.tick = e.tick → f.snap.originator ≠ e.snap.originator) ∧
    (s.inv.setName ts draw.names).isSome
  | .setSnapName _ => true
  | .followDusime => true

theorem careful_of_test {s : Session ℕ ℕ} {action : Action ℕ}
    (h : carefulTest s action = true) :
    Careful Snapshot.zeroLibraries plainText s action := by
  cases action with
  | receive ts e draw =>
    obtain ⟨hjson, hround, hname⟩ := of_decide_eq_true h
    obtain ⟨name, hname⟩ := Option.isSome_iff_exists.1 hname
    refine ⟨?_, ?_, ?_, name, hname, fun hsave => ?_⟩
    · rw [Snapshot.Recoverable, hjson]
      trivial
    · intro w numbers hw
      rw [hjson] at hw
      cases hw
    · split at hround
      · next hlt =>
        rw [if_pos hlt]
        exact ⟨hround, rfl⟩
      · next hle =>
        rw [if_neg hle]
        exact ⟨Option.map_eq_some_iff.1 hround.1, hround.2⟩
    · rw [hjson] at hsave
      cases hsave
  | setSnapName newname => trivial
  | followDusime => trivial

theorem consistent_twoRounds :
    ∃ s, exec (Session.step Snapshot.zeroLibraries plainText) ⟨emptyInventory, fun _ => none, []⟩
        [readAt 10 10 'a' 1, readAt 10 10 'b' 2, .followDusime, readAt 20 20 'a' 3] = .ok s ∧
      Consistent Snapshot.zeroLibraries plainText .empty s := by
  have hset : setFiles Snapshot.zeroLibraries plainText 0 (fun _ => none) (fun _ => none) [] ['f']
      [] (create ['e']) = some (emptyInventory, none) := rfl
  exact roundsConsistent_of_run hset nofun
    (allowed_of_checks (fun _ _ => careful_of_test) (by decide +kernel))

/-- A snapshot of the first round is read after the first one of the second round, and goes to the
set of that round. -/
theorem not_consistent_lateSnapshot :
    ∃ s, exec (Session.step Snapshot.zeroLibraries plainText) ⟨emptyInventory, fun _ => none, []⟩
        [readAt 10 10 'a' 1, readAt 20 20 'a' 3, readAt 20 10 'b' 2] = .ok s ∧
      ¬Consistent Snapshot.zeroLibraries plainText .empty s := by
  obtain ⟨s, hexec, hend⟩ := exists_of_endsIn (Session.step Snapshot.zeroLibraries plainText)
    ⟨emptyInventory, fun _ => none, []⟩
    [readAt 10 10 'a' 1, readAt 20 20 'a' 3, readAt 20 10 'b' 2]
    (fun s => s.received.any (·.tick = 10) ∧
      (roundSnaps s.received 10).map Snapshot.data = [[1], [2]] ∧
      s.inv.snapmap.entries.all fun e => e.2.snaps.map Snapshot.data ≠ [[1], [2]])
    (by decide +kernel)
  refine ⟨s, hexec, fun h => ?_⟩
  obtain ⟨hany, hround, hall⟩ := of_decide_eq_true hend
  obtain ⟨e, he, htick⟩ := List.any_eq_true.1 hany
  obtain ⟨setOf, hcollects⟩ := h.collected
  obtain ⟨time, hheld⟩ := hcollects.held e he
  rw [of_decide_eq_true htick] at hheld
  have hmem := (KeyMap.value?_eq_some Function.injective_id).1 hheld
  exact of_decide_eq_true (List.all_eq_true.1 hall _ hmem) hround

end Dueca.Dusime
