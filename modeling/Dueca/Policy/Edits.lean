import Dueca.Policy.CommObjects
import Mathlib.Data.List.Nodup
import Mathlib.Data.List.TakeWhile

/-!
# Edits of the list of communication objects

A list of references with the texts of their lines, and of other lines, is what the list stands for:
an addition appends a reference that is not there, and a deletion turns the line of a reference into
a comment. Before an addition the list is searched for a reference with module and object exchanged.
A reference that is composed without a project is not that of the own project.
-/

namespace Dueca.Policy

open Dueca.Lib

/-! ### What edits are to do -/

/-- Lines, with the references they have. -/
abbrev Listing := List (Option Reference × Text)

def Listing.references (l : Listing) : List Reference := l.filterMap Prod.fst

/-- A reference, to the own project when none is given. -/
def refTo (own : Text) (project : Option Text) (module dco : Text) : Reference :=
  (project.getD own, module, dco)

/-- The line that is left of a reference. -/
def removedLine (line comment : Text) : Text :=
  '#' :: rstrip line ++ " #  ".toList ++ comment ++ ['\n']

/-- A reference is added if it is not there; its line becomes a comment when it is deleted. -/
def Edit.apply (own : Text) (l : Listing) : Edit → Listing
  | .add project module dco comment =>
    if refTo own project module dco ∈ l.references then l
    else l ++ [(some (refTo own project module dco), composedLine project module dco comment)]
  | .delete project module dco comment =>
    l.map fun x =>
      if x.1 = some (refTo own project module dco) then (none, removedLine x.2 comment) else x
  | .contains _ _ _ | .sync => l

/-- The answer that is expected, if any. -/
def Edit.answer (own : Text) (l : Listing) : Edit → List Bool
  | .contains project dco module => [decide (refTo own project module dco ∈ l.references)]
  | .add _ _ _ _ | .delete _ _ _ _ | .sync => []

/-- All edits, with all answers. -/
def Edit.applyAll (own : Text) (l : Listing) : List Edit → Listing × List Bool
  | [] => (l, [])
  | op :: ops =>
    let rest := applyAll own (op.apply own l) ops
    (rest.1, op.answer own l ++ rest.2)

/-- A name without separators or line breaks. -/
def NameOk (name : Text) : Prop := name ≠ [] ∧ ∀ c ∈ name, c ∉ [' ', '\t', '/', '\n', '\r']

/-- A name with which a line may begin. -/
def FirstOk (name : Text) : Prop := ∀ c ∈ name.head?, isSpace c = false ∧ c ≠ '#'

/-- Names for a line: the object's has no dot. -/
structure NamesOk (project : Option Text) (module dco : Text) : Prop where
  projectOk : ∀ name ∈ project, NameOk name ∧ FirstOk name
  moduleOk : NameOk module ∧ (project = none → FirstOk module)
  dcoOk : NameOk dco ∧ '.' ∉ dco

def CommentOk (comment : Text) : Prop := '\n' ∉ comment ∧ '\r' ∉ comment

/-- A call with names that the grammar of lines admits. -/
def Edit.Admitted : Edit → Prop
  | add project module dco comment | delete project module dco comment =>
    NamesOk project module dco ∧ CommentOk comment
  | contains project dco module => NamesOk project module dco
  | sync => True

/-- The lines of the list, with their references. -/
def CommObjectsList.listing (l : CommObjectsList) : Listing :=
  l.dco.map fun d => (d.reference, d.line)

/-- The list stands for what has been made of the lines of the file; written and read again it
stands for the same; and if no reference occurred twice, none does now. -/
structure Consistent (l₀ : CommObjectsList) (ops : List Edit) (e : Editing) : Prop where
  listing : e.list.listing = (Edit.applyAll l₀.project l₀.listing ops).1
  answers : e.answers = (Edit.applyAll l₀.project l₀.listing ops).2
  readBack : ∃ l, CommObjectsList.read l₀.project e.list.sync.file = .ok l ∧
    l.listing = e.list.listing
  nodup : l₀.references.Nodup → e.list.references.Nodup

/-- Additions name the project, and a module without dot; and the reference is there if and only if
the one with module and object exchanged is. A deletion or query without a project is not for a
reference of the own project that is there; and no reference that is deleted is there twice. -/
def CarefulEdit (e : Editing) : Edit → Prop
  | .add project module dco _ =>
    ∃ p ∈ project, '.' ∉ module ∧
      ((p, module, dco) ∈ e.list.references ↔ (p, dco, module) ∈ e.list.references)
  | .delete project module dco _ =>
    (project = none → (e.list.project, module, dco) ∉ e.list.references) ∧
      ∀ p ∈ project, e.list.references.count (p, module, dco) ≤ 1
  | .contains project dco module =>
    project = none → (e.list.project, module, dco) ∉ e.list.references
  | .sync => True

instance (name : Text) : Decidable (NameOk name) :=
  have := List.decidableBAll (· ∉ [' ', '\t', '/', '\n', '\r']) name
  instDecidableAnd

instance (name : Text) : Decidable (FirstOk name) :=
  have := List.decidableBAll (fun c => isSpace c = false ∧ c ≠ '#') name.head?.toList
  decidable_of_iff (∀ c ∈ name.head?.toList, isSpace c = false ∧ c ≠ '#') (by
    simp only [FirstOk, Option.mem_toList, Option.mem_def])

instance (project : Option Text) (module dco : Text) : Decidable (NamesOk project module dco) :=
  decidable_of_iff ((∀ name ∈ project, NameOk name ∧ FirstOk name) ∧
    (NameOk module ∧ (project = none → FirstOk module)) ∧ NameOk dco ∧ '.' ∉ dco)
    ⟨fun h => ⟨h.1, h.2.1, h.2.2⟩, fun h => ⟨h.projectOk, h.moduleOk, h.dcoOk⟩⟩

instance (comment : Text) : Decidable (CommentOk comment) :=
  inferInstanceAs (Decidable ('\n' ∉ comment ∧ '\r' ∉ comment))

instance : DecidablePred Edit.Admitted
  | .add project module dco comment | .delete project module dco comment =>
    inferInstanceAs (Decidable (NamesOk project module dco ∧ CommentOk comment))
  | .contains project dco module => inferInstanceAs (Decidable (NamesOk project module dco))
  | .sync => inferInstanceAs (Decidable True)

instance (e : Editing) : DecidablePred (CarefulEdit e)
  | .add project module dco _ => inferInstanceAs (Decidable (∃ p ∈ project, '.' ∉ module ∧
      ((p, module, dco) ∈ e.list.references ↔ (p, dco, module) ∈ e.list.references)))
  | .delete project module dco _ => inferInstanceAs (Decidable
      ((project = none → (e.list.project, module, dco) ∉ e.list.references) ∧
        ∀ p ∈ project, e.list.references.count (p, module, dco) ≤ 1))
  | .contains project dco module => inferInstanceAs (Decidable
      (project = none → (e.list.project, module, dco) ∉ e.list.references))
  | .sync => inferInstanceAs (Decidable True)

/-! ### The end of a line -/

variable {s line comment project module dco own : Text} {c : Char}

theorem hashEnd_concat (h : '\n' ∉ s) : hashEnd (s ++ ['\n']) = hashEnd s := by
  refine lit_concat (List.cons_ne_nil _ _) (by decide) (fun s hs => ?_) h
  have hall : ∀ c ∈ s, notNewline c = true := fun c hc =>
    decide_eq_true fun heq => hs (heq ▸ hc)
  have hlong : star notNewline (fun _ s => atEnd s) [] (s ++ ['\n']) = some () :=
    star_eq_some hall (fun c hc => by rw [← Option.some.inj hc]; rfl) rfl
  have hshort : star notNewline (fun _ s => atEnd s) [] (s ++ []) = some () :=
    star_eq_some hall nofun rfl
  rw [hlong, ← hshort, List.append_nil]

theorem hashEnd_hash (h : '\n' ∉ s) : hashEnd ('#' :: (s ++ ['\n'])) = some () := by
  have hall : ∀ c ∈ s, notNewline c = true := fun c hc =>
    decide_eq_true fun heq => h (heq ▸ hc)
  exact star_eq_some hall (fun c hc => by rw [← Option.some.inj hc]; rfl) rfl

theorem commentline_concat (h : '\n' ∉ s) : commentline (s ++ ['\n']) = commentline s :=
  star_concat (fun _ => rfl) (fun _ _ => hashEnd_concat) h

/-- Neither blank nor a comment. -/
theorem lineEnd_eq_none {u v : Text} (hu : ∀ x ∈ u, isSpace x = true) (hc : isSpace c = false)
    (hne : c ≠ '#') : lineEnd (u ++ c :: v) = none := by
  refine star_eq_none fun u' v' hsplit hu' => ?_
  -- what is left begins with a blank or with this symbol, which is in it
  obtain ⟨w, rfl, rfl⟩ : ∃ w, u = u' ++ w ∧ v' = w ++ c :: v := by
    rcases List.append_eq_append_iff.mp hsplit with ⟨w, rfl, hw⟩ | ⟨w, rfl, hw⟩
    · cases w with
      | nil => exact ⟨[], by rw [List.append_nil, List.append_nil], hw.symm⟩
      | cons x w =>
        rw [List.cons_append] at hw
        obtain ⟨rfl, _⟩ := List.cons.inj hw
        have hspace := hu' c (List.mem_append_right _ List.mem_cons_self)
        rw [hc] at hspace
        cases hspace
    · exact ⟨w, rfl, hw⟩
  have hhash : hashEnd (w ++ c :: v) = none := by
    cases w with
    | nil => exact if_neg (Ne.symm hne)
    | cons x w =>
      refine if_neg ?_
      rintro rfl
      exact absurd (hu '#' (List.mem_append_right _ List.mem_cons_self)) (by decide)
  have hend : atEnd (w ++ c :: v) = none := by
    refine if_neg ?_
    rintro (hnil | hbreak)
    · exact List.append_ne_nil_of_right_ne_nil _ (List.cons_ne_nil _ _) hnil
    · have hmem : c ∈ ['\n'] := hbreak ▸ List.mem_append_right _ List.mem_cons_self
      rw [List.mem_singleton.mp hmem] at hc
      exact absurd hc (by decide)
  change (hashEnd (w ++ c :: v)).or (atEnd (w ++ c :: v)) = none
  rw [hhash, hend]
  rfl

theorem lineEnd_eq_some {u v : Text} (hu : ∀ x ∈ u, isSpace x = true)
    (hv : v = [] ∨ ∃ w, v = '#' :: w ∧ hashEnd v = some ()) : lineEnd (u ++ v) = some () := by
  rcases hv with rfl | ⟨w, rfl, hw⟩
  · exact star_eq_some hu nofun rfl
  · refine star_eq_some hu (fun c hc => Option.some.inj hc ▸ by decide) ?_
    rw [hw, Option.some_or]

/-- What follows a reference is either blank or a comment. -/
theorem lineEnd_concat (h : '\n' ∉ s) : lineEnd (s ++ ['\n']) = lineEnd s := by
  rw [← List.takeWhile_append_dropWhile (p := isSpace) (l := s)] at h ⊢
  have hu : ∀ x ∈ s.takeWhile isSpace, isSpace x = true := List.all_eq_true.mp List.all_takeWhile
  have hhead := List.head?_dropWhile_not isSpace s
  generalize s.takeWhile isSpace = u at h hu ⊢
  generalize s.dropWhile isSpace = v at h hhead ⊢
  cases v with
  | nil =>
    rw [lineEnd_eq_some hu (.inl rfl), List.append_nil]
    refine (congrArg lineEnd (List.append_nil (u ++ ['\n'])).symm).trans
      (lineEnd_eq_some (List.forall_mem_append.mpr ⟨hu, ?_⟩) (.inl rfl))
    exact fun x hx => List.mem_singleton.mp hx ▸ by decide
  | cons c v =>
    have hc : isSpace c = false := by simpa using hhead
    obtain ⟨_, hbreak⟩ := not_or.mp (List.mem_append.not.mp h)
    rw [List.append_assoc]
    by_cases hne : c = '#'
    · subst hne
      have hv : '\n' ∉ v := fun hv => hbreak (List.mem_cons_of_mem _ hv)
      have hlong : hashEnd ('#' :: v ++ ['\n']) = some () := hashEnd_hash hv
      have hshort := (hashEnd_concat hbreak).symm.trans hlong
      exact (lineEnd_eq_some hu (.inr ⟨_, rfl, hlong⟩)).trans
        (lineEnd_eq_some hu (.inr ⟨_, rfl, hshort⟩)).symm
    · rw [lineEnd_eq_none hu hc hne]
      exact lineEnd_eq_none hu hc hne

theorem moduleDco_concat (project : Option Text) (h : '\n' ∉ s) :
    moduleDco project (s ++ ['\n']) = moduleDco project s := by
  refine plus_concat (fun _ => rfl) (fun module s hs => ?_) h
  refine lit_concat (List.cons_ne_nil _ _) (by decide) (fun s hs => ?_) hs
  refine plus_concat (fun _ => rfl) (fun dco s hs => ?_) hs
  refine lit_concat (List.cons_ne_nil _ _) (by decide) (fun s hs => ?_) hs
  rw [lineEnd_concat hs]

theorem dcoline_concat (h : '\n' ∉ s) : dcoline (s ++ ['\n']) = dcoline s := by
  refine star_concat (fun _ => rfl) (fun _ s hs => ?_) h
  rw [moduleDco_concat none hs]
  congr 1
  refine plus_concat (fun _ => rfl) (fun project s hs => ?_) hs
  exact lit_concat (List.cons_ne_nil _ _) (by decide) (fun s hs => moduleDco_concat _ hs) hs

/-! ### Composed lines -/

/-- What follows the name of the object. -/
def composedEnd (comment : Text) : Text :=
  (if comment = [] then [] else "  # ".toList ++ comment) ++ ['\n']

theorem lineEnd_composedEnd (h : '\n' ∉ comment) : lineEnd (composedEnd comment) = some () := by
  rw [composedEnd]
  split_ifs
  · exact lineEnd_eq_some (u := ['\n']) (List.all_eq_true.mp (by decide)) (.inl rfl)
  · refine lineEnd_eq_some (u := "  ".toList) (v := '#' :: (' ' :: comment ++ ['\n']))
      (List.all_eq_true.mp (by decide)) (.inr ⟨_, rfl, hashEnd_hash ?_⟩)
    rw [List.mem_cons, not_or]
    exact ⟨by decide, h⟩

theorem NameOk.notSep (h : NameOk s) : ∀ c ∈ s, notSep c = true := by
  intro c hc
  have hnot := h.2 c hc
  simp only [List.mem_cons, List.not_mem_nil, or_false, not_or] at hnot
  simp only [Policy.notSep, List.mem_cons, List.not_mem_nil, or_false, not_or, decide_eq_true_eq]
  exact ⟨hnot.1, hnot.2.1, hnot.2.2.1⟩

theorem NameOk.notSepDot (h : NameOk s) (hdot : '.' ∉ s) : ∀ c ∈ s, notSepDot c = true := by
  intro c hc
  have hnot := h.2 c hc
  have hne : c ≠ '.' := fun heq => hdot (heq ▸ hc)
  simp only [List.mem_cons, List.not_mem_nil, or_false, not_or] at hnot
  simp only [Policy.notSepDot, List.mem_cons, List.not_mem_nil, or_false, not_or, decide_eq_true_eq]
  exact ⟨hnot.1, hnot.2.1, hnot.2.2.1, hne⟩

theorem NameOk.not_mem (h : NameOk s) (hc : c ∈ [' ', '\t', '/', '\n', '\r']) : c ∉ s :=
  fun hmem => h.2 c hmem hc

/-- The module and the object. -/
theorem moduleDco_eq (hmodule : NameOk module) (hdco : NameOk dco) (hdot : '.' ∉ dco)
    (project : Option Text) {v : Text} (hend : lineEnd v = some ()) :
    moduleDco project (module ++ '/' :: (dco ++ (".dco".toList ++ v))) =
      some (project, module, dco) := by
  refine plus_eq_some hmodule.1 hmodule.notSep (fun c hc => Option.some.inj hc ▸ by decide) ?_
  refine (lit_append (w := ['/'])).trans ?_
  refine plus_eq_some hdco.1 (hdco.notSepDot hdot) (fun c hc => Option.some.inj hc ▸ by decide) ?_
  refine (lit_append (w := ['.', 'd', 'c', 'o'])).trans ?_
  rw [hend]
  rfl

/-- A first part that begins neither with a blank nor with a hash sign. -/
theorem star_isSpace_eq {β : Type} {k : Text → Text → Option β} (hne : s ≠ []) (h : FirstOk s)
    {v : Text} : star isSpace k [] (s ++ v) = k [] (s ++ v) := by
  cases s with
  | nil => exact absurd rfl hne
  | cons c s =>
    rw [List.cons_append, Lib.star, (h c rfl).1]
    rfl

theorem commentline_eq_none (hne : s ≠ []) (h : FirstOk s) {v : Text} :
    commentline (s ++ v) = none := by
  rw [commentline, star_isSpace_eq hne h]
  cases s with
  | nil => exact absurd rfl hne
  | cons c s => exact if_neg (Ne.symm (h c rfl).2)

theorem dcoline_project (hproject : NameOk project) (hfirst : FirstOk project)
    (hmodule : NameOk module) (hdco : NameOk dco) (hdot : '.' ∉ dco) {v : Text}
    (hend : lineEnd v = some ()) :
    dcoline (project ++ '/' :: (module ++ '/' :: (dco ++ (".dco".toList ++ v)))) =
      some (some project, module, dco) := by
  rw [dcoline, star_isSpace_eq hproject.1 hfirst]
  have hplus : plus notSep (fun project => lit ['/'] (moduleDco (some project)))
      (project ++ '/' :: (module ++ '/' :: (dco ++ (".dco".toList ++ v)))) =
      some (some project, module, dco) := by
    refine plus_eq_some hproject.1 hproject.notSep (fun c hc => Option.some.inj hc ▸ by decide) ?_
    exact (lit_append (w := ['/'])).trans (moduleDco_eq hmodule hdco hdot _ hend)
  rw [hplus, Option.some_or]

/-- Without a project, there is no second separator. -/
theorem dcoline_home (hmodule : NameOk module) (hfirst : FirstOk module) (hdco : NameOk dco)
    (hdot : '.' ∉ dco) {v : Text} (hsep : '/' ∉ v) (hend : lineEnd v = some ()) :
    dcoline (module ++ '/' :: (dco ++ (".dco".toList ++ v))) = some (none, module, dco) := by
  rw [dcoline, star_isSpace_eq hmodule.1 hfirst]
  have hrest : '/' ∉ dco ++ (".dco".toList ++ v) := by
    rw [List.mem_append, List.mem_append, not_or, not_or]
    exact ⟨hdco.not_mem (by decide), by decide, hsep⟩
  have hplus : plus notSep (fun project => lit ['/'] (moduleDco (some project)))
      (module ++ '/' :: (dco ++ (".dco".toList ++ v))) = none := by
    refine plus_eq_none fun u w hsplit _ hu => ?_
    cases w with
    | nil => rfl
    | cons c w =>
      by_cases hc : c = '/'
      · subst hc
        refine (if_pos rfl).trans ?_
        obtain ⟨_, _, rfl⟩ := (List.append_cons_inj_of_notMem (hmodule.not_mem (by decide))
          hrest).mp hsplit
        exact plus_eq_none fun u' w' hsplit' _ _ => lit_eq_none_of_not_mem fun hmem =>
          hrest (hsplit' ▸ List.mem_append_right _ hmem)
      · exact if_neg (Ne.symm hc)
  rw [hplus, Option.none_or, moduleDco_eq hmodule hdco hdot none hend]

theorem strip_eq_nil : strip s = [] ↔ ∀ c ∈ s, isSpace c = true := by
  rw [strip, rstrip, List.reverse_eq_nil_iff, List.dropWhile_eq_nil_iff]
  simp only [List.mem_reverse]
  rw [← List.dropWhile_eq_nil_iff (l := s)]
  constructor
  · intro h
    have hhead := List.head?_dropWhile_not isSpace s
    cases hrest : s.dropWhile isSpace with
    | nil => rfl
    | cons c rest =>
      rw [hrest] at h hhead
      have hc : isSpace c = false := by simpa using hhead
      rw [h c List.mem_cons_self] at hc
      cases hc
  · intro h c hc
    rw [h] at hc
    cases hc

theorem strip_ne_nil (hne : s ≠ []) (h : FirstOk s) {v : Text} : strip (s ++ v) ≠ [] := by
  intro hnil
  cases s with
  | nil => exact hne rfl
  | cons c s =>
    have hc := strip_eq_nil.mp hnil c List.mem_cons_self
    rw [(h c rfl).1] at hc
    cases hc

/-- The line for a reference is decoded to this reference. -/
theorem ofLine_compose {project : Option Text} (h : NamesOk project module dco)
    (hcomment : '\n' ∉ comment) (hhome : project = none → comment = []) (own : Option Text) :
    ofLine (composedLine project module dco comment) own = .ok
      { line := composedLine project module dco comment
        baseProject := project.or own
        homedco := some project.isNone
        module := some module
        dco := some dco } := by
  have hend := lineEnd_composedEnd hcomment
  have hline : composedLine project module dco comment =
      project.elim [] (· ++ ['/']) ++
        (module ++ '/' :: (dco ++ (".dco".toList ++ composedEnd comment))) := by
    simp only [composedLine, composedEnd, List.append_assoc, List.cons_append]
  have hlast : (composedLine project module dco comment).getLast? = some '\n' :=
    List.getLast?_concat
  -- the first name, and what the expressions make of the line
  obtain ⟨hstrip, hnocomment, hdco⟩ : strip (composedLine project module dco comment) ≠ [] ∧
      commentline (composedLine project module dco comment) = none ∧
        dcoline (composedLine project module dco comment) = some (project, module, dco) := by
    rw [hline]
    cases project with
    | none =>
      have hfirst := h.moduleOk.2 rfl
      refine ⟨strip_ne_nil h.moduleOk.1.1 hfirst, commentline_eq_none h.moduleOk.1.1 hfirst, ?_⟩
      refine dcoline_home h.moduleOk.1 hfirst h.dcoOk.1 h.dcoOk.2 ?_ hend
      rw [hhome rfl]
      decide
    | some project =>
      obtain ⟨hok, hfirst⟩ := h.projectOk project rfl
      simp only [Option.elim_some, List.append_assoc, List.singleton_append]
      exact ⟨strip_ne_nil hok.1 hfirst, commentline_eq_none hok.1 hfirst,
        dcoline_project hok hfirst h.moduleOk.1 h.dcoOk.1 h.dcoOk.2 hend⟩
  rw [ofLine, if_neg hstrip, hnocomment, if_neg nofun, hdco, if_pos hlast]

/-- At the end of the file, a line break may be missing. -/
theorem ofLine_concat (h : '\n' ∉ line) (own : Option Text) :
    ofLine (line ++ ['\n']) own = ofLine line own := by
  have hlast : line.getLast? ≠ some '\n' := fun hlast => h (List.mem_of_getLast? hlast)
  have hstrip : strip (line ++ ['\n']) = [] ↔ strip line = [] := by
    rw [strip_eq_nil, strip_eq_nil, List.forall_mem_append]
    exact and_iff_left fun c hc => List.mem_singleton.mp hc ▸ by decide
  rw [ofLine, ofLine, if_pos List.getLast?_concat, if_neg hlast, commentline_concat h,
    dcoline_concat h]
  simp only [hstrip]

/-! ### Lines in a file -/

/-- A text with a line break at its end only. -/
def IsLine (line : Text) : Prop := ∃ text, '\n' ∉ text ∧ line = text ++ ['\n']

/-- What is read is a line, or the end of the file. -/
theorem readLines_spec (hacc : '\n' ∉ line) :
    ∀ l ∈ readLines line s, IsLine l ∨ ('\n' ∉ l ∧ l ≠ []) := by
  induction s generalizing line with
  | nil =>
    cases line with
    | nil => exact nofun
    | cons c line => exact fun l hl => List.mem_singleton.mp hl ▸ .inr ⟨hacc, List.cons_ne_nil _ _⟩
  | cons c s ih =>
    have hcases : readLines line (c :: s) =
        if c = '\n' then (line ++ [c]) :: readLines [] s else readLines (line ++ [c]) s := by
      cases line <;> rfl
    rw [hcases]
    split_ifs with hc
    · subst hc
      exact List.forall_mem_cons.mpr ⟨.inl ⟨line, hacc, rfl⟩, ih nofun⟩
    · refine ih ?_
      rw [List.mem_append, List.mem_singleton, not_or]
      exact ⟨hacc, Ne.symm hc⟩

theorem readLines_append {text : Text} (htext : '\n' ∉ text) :
    readLines line (text ++ '\n' :: s) = (line ++ text ++ ['\n']) :: readLines [] s := by
  induction text generalizing line with
  | nil =>
    rw [List.append_nil, List.nil_append]
    cases line <;> exact if_pos rfl
  | cons c text ih =>
    obtain ⟨hc, htext⟩ := not_or.mp (List.mem_cons.not.mp htext)
    have hcases : readLines line (c :: (text ++ '\n' :: s)) =
        readLines (line ++ [c]) (text ++ '\n' :: s) := by
      cases line <;> exact if_neg (Ne.symm hc)
    rw [List.cons_append, hcases, ih htext]
    simp only [List.append_assoc, List.singleton_append]

/-- Lines that are written are read back. -/
theorem readLines_flatten {ls : List Text} (h : ∀ l ∈ ls, IsLine l) :
    readLines [] ls.flatten = ls := by
  induction ls with
  | nil => rfl
  | cons l ls ih =>
    obtain ⟨⟨text, htext, rfl⟩, hrest⟩ := List.forall_mem_cons.mp h
    rw [List.flatten_cons, List.append_assoc, List.singleton_append, readLines_append htext,
      ih hrest, List.nil_append]

/-! ### The list as it is kept -/

/-- A line that would be read back as what it is. -/
structure Stored (own : Text) (d : CommObjectDef) : Prop where
  line : IsLine d.line
  again : ∃ d', ofLine d.line (some own) = .ok d' ∧ d'.reference = d.reference ∧ d'.line = d.line
  whole : d.reference = none → d.baseProject = none ∧ d.dco = none

/-- What a line is decoded to. -/
theorem ofLine_spec {d : CommObjectDef} (h : ofLine line (some own) = .ok d) :
    (d.line = if line.getLast? = some '\n' then line else line ++ ['\n']) ∧
      (d.reference = none → d.baseProject = none ∧ d.dco = none) := by
  rw [ofLine] at h
  generalize (if line.getLast? = some '\n' then line else line ++ ['\n']) = full at h ⊢
  split_ifs at h
  · cases h
    exact ⟨rfl, fun _ => ⟨rfl, rfl⟩⟩
  · cases h
    exact ⟨rfl, fun _ => ⟨rfl, rfl⟩⟩
  · split at h
    · cases h
    · rename_i project module dco _
      cases h
      refine ⟨rfl, fun hnone => ?_⟩
      cases project <;> cases hnone

/-- A line as it stands in a file. -/
theorem stored_of_file {d : CommObjectDef} (hfile : IsLine line ∨ ('\n' ∉ line ∧ line ≠ []))
    (h : ofLine line (some own) = .ok d) : Stored own d := by
  obtain ⟨hline, hwhole⟩ := ofLine_spec h
  rcases hfile with ⟨text, htext, rfl⟩ | ⟨hbreak, _⟩
  · rw [if_pos List.getLast?_concat] at hline
    exact ⟨⟨text, htext, hline⟩, ⟨d, hline.symm ▸ h, rfl, rfl⟩, hwhole⟩
  · rw [if_neg fun hlast => hbreak (List.mem_of_getLast? hlast)] at hline
    refine ⟨⟨line, hbreak, hline⟩, ⟨d, ?_, rfl, rfl⟩, hwhole⟩
    rw [hline, ofLine_concat hbreak]
    exact h

/-- A reference that has been added. -/
theorem stored_of_compose (own : Text) (h : NamesOk (some project) module dco)
    (hcomment : '\n' ∉ comment) :
    ∃ d, compose (some project) module dco comment = .ok d ∧ Stored own d ∧
      d.reference = some (project, module, dco) ∧
        d.line = composedLine (some project) module dco comment := by
  refine ⟨_, ofLine_compose h hcomment nofun none, ⟨?_, ?_, nofun⟩, rfl, rfl⟩
  · refine ⟨_, ?_, rfl⟩
    have hproject := (h.projectOk project rfl).1.not_mem (c := '\n') (by decide)
    have hmodule := h.moduleOk.1.not_mem (c := '\n') (by decide)
    have hdco := h.dcoOk.1.not_mem (c := '\n') (by decide)
    have hend : '\n' ∉ (if comment = [] then [] else "  # ".toList ++ comment) := by
      split_ifs
      · exact List.not_mem_nil
      · rw [List.mem_append, not_or]
        exact ⟨by decide, hcomment⟩
    simp only [Option.elim_some, List.mem_append, List.mem_cons, List.not_mem_nil, not_or, or_false]
    exact ⟨⟨⟨⟨⟨hproject, by decide⟩, hmodule⟩, by decide, hdco⟩, by decide⟩, hend⟩
  · exact ⟨_, ofLine_compose h hcomment nofun (some own), rfl, rfl⟩

theorem mem_rstrip {c : Char} (h : c ∈ rstrip s) : c ∈ s := by
  rw [rstrip, List.mem_reverse] at h
  exact List.mem_reverse.mp ((List.dropWhile_sublist _).subset h)

/-- Without its end, a line has no break. -/
theorem IsLine.rstrip (h : IsLine line) : '\n' ∉ Policy.rstrip line := by
  obtain ⟨text, htext, rfl⟩ := h
  intro hmem
  rw [Policy.rstrip, List.reverse_append, List.reverse_singleton, List.singleton_append,
    List.dropWhile_cons_of_pos (by decide)] at hmem
  exact htext (mem_rstrip hmem)

/-- A reference that has been removed. -/
theorem Stored.remove {d : CommObjectDef} (h : Stored own d) (hcomment : '\n' ∉ comment) :
    Stored own (d.remove comment) := by
  have hbody : '\n' ∉ rstrip d.line ++ " #  ".toList ++ comment := by
    rw [List.mem_append, List.mem_append, not_or, not_or]
    exact ⟨⟨h.line.rstrip, by decide⟩, hcomment⟩
  have hline : (d.remove comment).line =
      '#' :: (rstrip d.line ++ " #  ".toList ++ comment ++ ['\n']) := by
    simp only [CommObjectDef.remove, List.cons_append]
  refine ⟨⟨'#' :: (rstrip d.line ++ " #  ".toList ++ comment), ?_, hline⟩, ?_, fun _ => ⟨rfl, rfl⟩⟩
  · rw [List.mem_cons, not_or]
    exact ⟨by decide, hbody⟩
  · have hstrip : strip (d.remove comment).line ≠ [] := by
      intro hnil
      exact absurd (strip_eq_nil.mp hnil '#' (hline ▸ List.mem_cons_self)) (by decide)
    have hcomm : commentline (d.remove comment).line = some () := by
      rw [hline]
      exact hashEnd_hash hbody
    have hlast : (d.remove comment).line.getLast? = some '\n' := by
      rw [hline, ← List.cons_append]
      exact List.getLast?_concat
    refine ⟨⟨(d.remove comment).line, none, none, some "comm-objects".toList, none⟩, ?_, rfl, rfl⟩
    rw [ofLine, if_neg hstrip, hcomm, if_pos hlast]
    rfl

/-! ### Looking for a reference -/

/-- A line equals a composed one if it has the same reference. -/
theorem Stored.eq_iff {d : CommObjectDef} (h : Stored own d) {line : Text} {home : Option Bool}
    {project : Option Text} :
    d.eq ⟨line, project, home, some module, some dco⟩ = true ↔
      ∃ p, project = some p ∧ d.reference = some (p, module, dco) := by
  obtain ⟨line', base, home', module', dco'⟩ := d
  have hwhole := h.whole
  simp only [CommObjectDef.eq, CommObjectDef.reference, Bool.and_eq_true,
    decide_eq_true_eq] at hwhole ⊢
  constructor
  · rintro ⟨⟨rfl, rfl⟩, rfl⟩
    cases base with
    | none => exact absurd (hwhole rfl).2 (Option.some_ne_none _)
    | some p => exact ⟨p, rfl, rfl⟩
  · rintro ⟨p, rfl, href⟩
    cases base <;> cases module' <;> cases dco' <;> cases href
    exact ⟨⟨rfl, rfl⟩, rfl⟩

/-- A query with a project is for this reference, and one without is for nothing in the list. -/
theorem contains_eq {l : CommObjectsList} (hstored : ∀ d ∈ l.dco, Stored own d)
    {project : Option Text} (h : NamesOk project module dco) :
    l.contains project dco module =
      .ok (decide (∃ p ∈ project, (p, module, dco) ∈ l.references)) := by
  rw [CommObjectsList.contains, compose, ofLine_compose h List.not_mem_nil (fun _ => rfl)]
  refine congrArg Except.ok ?_
  rw [Bool.eq_iff_iff, List.any_eq_true, decide_eq_true_eq, Option.or_none]
  constructor
  · rintro ⟨d, hd, heq⟩
    obtain ⟨p, hp, href⟩ := (hstored d hd).eq_iff.mp heq
    exact ⟨p, hp, List.mem_filterMap.mpr ⟨d, hd, href⟩⟩
  · rintro ⟨p, hp, hmem⟩
    obtain ⟨d, hd, href⟩ := List.mem_filterMap.mp hmem
    exact ⟨d, hd, (hstored d hd).eq_iff.mpr ⟨p, hp, href⟩⟩

/-- What a deletion makes of a line. -/
def cleared (ref : Reference) (comment : Text) (x : Option Reference × Text) :
    Option Reference × Text :=
  if x.1 = some ref then (none, removedLine x.2 comment) else x

theorem map_cleared_of_not_mem {ref : Reference} {l : Listing} (h : ref ∉ l.references) :
    l.map (cleared ref comment) = l := by
  refine (List.map_congr_left fun x hx => ?_).trans (List.map_id l)
  exact if_neg fun heq => h (List.mem_filterMap.mpr ⟨x, hx, heq⟩)

/-- The lines with their references. -/
def listingOf (ds : List CommObjectDef) : Listing := ds.map fun d => (d.reference, d.line)

theorem references_listingOf (ds : List CommObjectDef) :
    (listingOf ds).references = ds.filterMap (·.reference) := by
  rw [listingOf, Listing.references, List.filterMap_map]
  rfl

/-- The first line with a reference is removed; when this is the only one, that clears the
reference. -/
theorem removeFirst_spec (searchfor : CommObjectDef) {ds : List CommObjectDef} {ref : Reference}
    (hstored : ∀ d ∈ ds, Stored own d) (hcomment : '\n' ∉ comment)
    (heq : ∀ d ∈ ds, d.eq searchfor = true ↔ d.reference = some ref)
    (hcount : (listingOf ds).references.count ref ≤ 1) :
    match CommObjectsList.removeFirst searchfor comment ds with
    | some ds' => (∀ d ∈ ds', Stored own d) ∧
        listingOf ds' = (listingOf ds).map (cleared ref comment)
    | none => ref ∉ (listingOf ds).references := by
  induction ds with
  | nil => exact List.not_mem_nil
  | cons d ds ih =>
    obtain ⟨hd, hrest⟩ := List.forall_mem_cons.mp hstored
    obtain ⟨heqd, heqs⟩ := List.forall_mem_cons.mp heq
    rw [references_listingOf] at hcount ih ⊢
    rw [CommObjectsList.removeFirst]
    by_cases href : d.reference = some ref
    · rw [List.filterMap_cons_some href, List.count_cons_self] at hcount
      have hnot : ref ∉ (listingOf ds).references := by
        rw [references_listingOf]
        exact List.count_eq_zero.mp (Nat.le_zero.mp (Nat.le_of_succ_le_succ hcount))
      rw [if_pos (heqd.mpr href)]
      refine ⟨List.forall_mem_cons.mpr ⟨hd.remove hcomment, hrest⟩, ?_⟩
      rw [listingOf, List.map_cons, listingOf, List.map_cons, List.map_cons]
      congr 1
      · exact (if_pos href).symm
      · exact (map_cleared_of_not_mem hnot).symm
    · rw [if_neg (heqd.not.mpr href)]
      have hcount' : (ds.filterMap (·.reference)).count ref ≤ 1 := by
        refine le_trans ?_ hcount
        rw [List.filterMap_cons]
        cases d.reference with
        | none => exact le_rfl
        | some r => exact List.count_le_count_cons
      have hthis := ih hrest heqs hcount'
      cases hremove : CommObjectsList.removeFirst searchfor comment ds with
      | some ds' =>
        rw [hremove] at hthis
        refine ⟨List.forall_mem_cons.mpr ⟨hd, hthis.1⟩, ?_⟩
        rw [listingOf, List.map_cons, listingOf, List.map_cons, List.map_cons]
        congr 1
        · exact (if_neg href).symm
        · exact hthis.2
      | none =>
        rw [hremove] at hthis
        intro hmem
        rw [List.mem_filterMap] at hmem hthis
        obtain ⟨d', hd', href'⟩ := hmem
        rcases List.mem_cons.mp hd' with rfl | hd'
        · exact href href'
        · exact hthis ⟨d', hd', href'⟩

/-! ### Reading and writing -/

/-- The lines of a file. -/
theorem stored_of_ofLines {ls : List Text} {ds : List CommObjectDef}
    (hls : ∀ l ∈ ls, IsLine l ∨ ('\n' ∉ l ∧ l ≠ [])) (h : ofLines own ls = .ok ds) :
    ∀ d ∈ ds, Stored own d := by
  induction ls generalizing ds with
  | nil =>
    cases h
    exact nofun
  | cons l ls ih =>
    obtain ⟨hl, hrest⟩ := List.forall_mem_cons.mp hls
    rw [ofLines] at h
    split at h
    · cases h
    · rename_i d hd
      split at h
      · cases h
      · rename_i ds' hds
        cases h
        exact List.forall_mem_cons.mpr ⟨stored_of_file hl hd, ih hrest hds⟩

/-- Lines that have been written are read back. -/
theorem read_written {ds : List CommObjectDef} (h : ∀ d ∈ ds, Stored own d) :
    ∃ l, CommObjectsList.read own (ds.flatMap (·.line)) = .ok l ∧ l.listing = listingOf ds := by
  have hlines : readLines [] (ds.flatMap (·.line)) = ds.map (·.line) := by
    rw [List.flatMap_def]
    refine readLines_flatten fun l hl => ?_
    obtain ⟨d, hd, rfl⟩ := List.mem_map.mp hl
    exact (h d hd).line
  obtain ⟨ds', hds, hlisting⟩ : ∃ ds', ofLines own (ds.map (·.line)) = .ok ds' ∧
      listingOf ds' = listingOf ds := by
    clear hlines
    induction ds with
    | nil => exact ⟨[], rfl, rfl⟩
    | cons d ds ih =>
      obtain ⟨hd, hrest⟩ := List.forall_mem_cons.mp h
      obtain ⟨d', hd', href, hline⟩ := hd.again
      obtain ⟨ds', hds, hlisting⟩ := ih hrest
      refine ⟨d' :: ds', ?_, ?_⟩
      · rw [List.map_cons, ofLines, hd', hds]
      · rw [listingOf, List.map_cons, listingOf, List.map_cons, href, hline]
        exact congrArg _ hlisting
  refine ⟨⟨own, ds', true, ds.flatMap (·.line)⟩, ?_, hlisting⟩
  rw [CommObjectsList.read, hlines, hds]

/-! ### Runs -/

/-- What holds of the list. -/
structure CommObjectsList.Inv (l : CommObjectsList) : Prop where
  stored : ∀ d ∈ l.dco, Stored l.project d
  clean : l.clean = true → ∃ l', CommObjectsList.read l.project l.file = .ok l' ∧
    l'.listing = l.listing

theorem CommObjectsList.Inv.readBack {l : CommObjectsList} (h : l.Inv) :
    ∃ l', CommObjectsList.read l.project l.sync.file = .ok l' ∧ l'.listing = l.listing := by
  rw [CommObjectsList.sync]
  split_ifs with hclean
  · exact h.clean hclean
  · exact read_written h.stored

theorem inv_read {own file : Text} {l : CommObjectsList}
    (h : CommObjectsList.read own file = .ok l) : l.Inv ∧ l.project = own := by
  have hread := h
  rw [CommObjectsList.read] at h
  split at h
  · cases h
  · rename_i ds hds
    cases h
    exact ⟨⟨stored_of_ofLines (readLines_spec List.not_mem_nil) hds, fun _ => ⟨_, hread, rfl⟩⟩, rfl⟩

/-- The outcome of a call. -/
structure StepSpec (e e' : Editing) (op : Edit) : Prop where
  inv : e'.list.Inv
  project : e'.list.project = e.list.project
  listing : e'.list.listing = op.apply e.list.project e.list.listing
  answers : e'.answers = e.answers ++ op.answer e.list.project e.list.listing
  nodup : e.list.references.Nodup → e'.list.references.Nodup

theorem references_eq (l : CommObjectsList) : l.listing.references = l.references :=
  references_listingOf l.dco

theorem references_cleared_sublist (ref : Reference) (comment : Text) (l : Listing) :
    (Listing.references (l.map (cleared ref comment))).Sublist l.references := by
  induction l with
  | nil => exact .slnil
  | cons x l ih =>
    obtain ⟨r, line⟩ := x
    rw [List.map_cons, cleared]
    split_ifs with heq
    · obtain rfl : r = some ref := heq
      exact ih.cons ref
    · cases r with
      | none => exact ih
      | some r => exact ih.cons_cons r

/-- A careful call does what it is to do. -/
theorem CommObjectsList.Inv.step {e : Editing} (h : e.list.Inv) {op : Edit} (hop : op.Admitted)
    (hcareful : CarefulEdit e op) : ∃ e', e.step op = .ok e' ∧ StepSpec e e' op := by
  cases op with
  | add project module dco comment =>
    obtain ⟨hnames, hcomment, _⟩ := hop
    obtain ⟨p, rfl, hdot, hswapped⟩ := hcareful
    have hexchanged : NamesOk (some p) dco module :=
      ⟨hnames.projectOk, ⟨hnames.dcoOk.1, fun hnone => by cases hnone⟩, hnames.moduleOk.1, hdot⟩
    have hcontains := contains_eq h.stored hexchanged
    have hsame : (∃ q ∈ some p, (q, dco, module) ∈ e.list.references) ↔
        (p, module, dco) ∈ e.list.references :=
      ⟨fun h => hswapped.mpr (Option.some.inj h.choose_spec.1 ▸ h.choose_spec.2),
        fun hmem => ⟨p, rfl, hswapped.mp hmem⟩⟩
    simp only [hsame] at hcontains
    rw [Editing.step, CommObjectsList.add, hcontains]
    by_cases hmem : (p, module, dco) ∈ e.list.references
    · rw [decide_eq_true hmem]
      refine ⟨e, rfl, h, rfl, ?_, (List.append_nil _).symm, id⟩
      exact (if_pos ((references_eq e.list).symm ▸ hmem)).symm
    · obtain ⟨d, hd, hstored, href, hline⟩ := stored_of_compose e.list.project hnames
        hcomment
      rw [decide_eq_false hmem, hd]
      refine ⟨_, rfl, ⟨?_, fun hsynced => by cases hsynced⟩, rfl, ?_, (List.append_nil _).symm,
        fun hnodup => ?_⟩
      · exact List.forall_mem_append.mpr
          ⟨h.stored, fun d' hd' => List.mem_singleton.mp hd' ▸ hstored⟩
      · rw [Edit.apply, if_neg ((references_eq e.list).symm ▸ hmem), CommObjectsList.listing,
          List.map_append, List.map_singleton, href, hline]
        rfl
      · rw [CommObjectsList.references, List.filterMap_append, List.filterMap_cons_some href]
        refine List.nodup_append.mpr ⟨hnodup, List.nodup_singleton _, ?_⟩
        rintro x hx y hy rfl
        exact hmem (List.mem_singleton.mp hy ▸ hx)
  | delete project module dco comment =>
    obtain ⟨hnames, hcomment, _⟩ := hop
    obtain ⟨hhome, hcount⟩ := hcareful
    have href : ∀ d ∈ e.list.dco, (∃ p, project = some p ∧ d.reference = some (p, module, dco)) ↔
        d.reference = some (refTo e.list.project project module dco) := by
      intro d hd
      cases project with
      | none =>
        exact ⟨fun h => (by cases h.choose_spec.1),
          fun hd' => absurd (List.mem_filterMap.mpr ⟨d, hd, hd'⟩) (hhome rfl)⟩
      | some p =>
        exact ⟨fun h => Option.some.inj h.choose_spec.1 ▸ h.choose_spec.2, fun hd' => ⟨p, rfl, hd'⟩⟩
    have honce : (listingOf e.list.dco).references.count
        (refTo e.list.project project module dco) ≤ 1 := by
      rw [references_listingOf]
      cases project with
      | none => exact (List.count_eq_zero.mpr (hhome rfl)).trans_le (Nat.zero_le 1)
      | some p => exact hcount p rfl
    have hspec := removeFirst_spec ⟨composedLine project module dco [], project.or none,
      some project.isNone, some module, some dco⟩ h.stored hcomment
      (fun d hd => (h.stored d hd).eq_iff.trans (by rw [Option.or_none]; exact href d hd)) honce
    rw [Editing.step, CommObjectsList.delete, compose,
      ofLine_compose hnames List.not_mem_nil fun _ => rfl]
    cases hremove : CommObjectsList.removeFirst ⟨composedLine project module dco [],
        project.or none, some project.isNone, some module, some dco⟩ comment e.list.dco with
    | some ds' =>
      simp only [hremove] at hspec ⊢
      obtain ⟨hstored, hlisting⟩ := hspec
      refine ⟨_, rfl, ⟨hstored, fun hsynced => by cases hsynced⟩, rfl, hlisting,
        (List.append_nil _).symm, fun hnodup => ?_⟩
      rw [← references_eq] at hnodup ⊢
      change (listingOf ds').references.Nodup
      rw [hlisting]
      exact hnodup.sublist (references_cleared_sublist _ _ _)
    | none =>
      simp only [hremove] at hspec ⊢
      refine ⟨e, rfl, h, rfl, ?_, (List.append_nil _).symm, id⟩
      exact (map_cleared_of_not_mem hspec).symm
  | contains project dco module =>
    have hsame : (∃ p ∈ project, (p, module, dco) ∈ e.list.references) ↔
        refTo e.list.project project module dco ∈ e.list.references := by
      cases project with
      | none =>
        exact ⟨fun h => (by cases h.choose_spec.1), fun hmem => absurd hmem (hcareful rfl)⟩
      | some p =>
        exact ⟨fun h => Option.some.inj h.choose_spec.1 ▸ h.choose_spec.2, fun hmem => ⟨p, rfl, hmem⟩⟩
    rw [Editing.step, contains_eq h.stored hop]
    refine ⟨_, rfl, h, rfl, rfl, ?_, id⟩
    simp only [Edit.answer, references_eq, hsame]
  | sync =>
    have hdco : e.list.sync.dco = e.list.dco ∧ e.list.sync.project = e.list.project := by
      rw [CommObjectsList.sync]
      split_ifs <;> exact ⟨rfl, rfl⟩
    have hlisting : e.list.sync.listing = e.list.listing := congrArg listingOf hdco.1
    refine ⟨_, rfl, ⟨?_, fun _ => ?_⟩, hdco.2, hlisting, (List.append_nil _).symm, ?_⟩
    · exact hdco.1 ▸ hdco.2 ▸ h.stored
    · exact hdco.2 ▸ hlisting ▸ h.readBack
    · intro hnodup
      change (e.list.sync.dco.filterMap (·.reference)).Nodup
      rw [hdco.1]
      exact hnodup

/-- A run of careful calls. -/
theorem exec_careful {e : Editing} (h : e.list.Inv) {ops : List Edit}
    (hadmitted : ∀ op ∈ ops, op.Admitted) (hcareful : Allowed Editing.step CarefulEdit e ops) :
    ∃ e', exec Editing.step e ops = .ok e' ∧ e'.list.Inv ∧ e'.list.project = e.list.project ∧
      e'.list.listing = (Edit.applyAll e.list.project e.list.listing ops).1 ∧
      e'.answers = e.answers ++ (Edit.applyAll e.list.project e.list.listing ops).2 ∧
      (e.list.references.Nodup → e'.list.references.Nodup) := by
  induction ops generalizing e with
  | nil => exact ⟨e, rfl, h, rfl, rfl, (List.append_nil _).symm, id⟩
  | cons op ops ih =>
    obtain ⟨hop, hops⟩ := List.forall_mem_cons.mp hadmitted
    obtain ⟨e', hstep, hspec⟩ := h.step hop hcareful.1
    obtain ⟨e'', hexec, hinv, hproject, hlisting, hanswers, hnodup⟩ :=
      ih hspec.inv hops (hcareful.2 e' hstep)
    refine ⟨e'', (exec_cons_ok hstep).trans hexec, hinv, hproject.trans hspec.project, ?_, ?_,
      fun hn => hnodup (hspec.nodup hn)⟩
    · rw [hlisting, hspec.project, hspec.listing]
      rfl
    · rw [hanswers, hspec.project, hspec.listing, hspec.answers, List.append_assoc]
      rfl

/-- After any run of careful edits of any file, the list is as it ought to be, and would be read
back from file. -/
theorem consistent_of_run (own file : Text) (l : CommObjectsList) (ops : List Edit)
    (hread : CommObjectsList.read own file = .ok l) (hadmitted : ∀ op ∈ ops, op.Admitted)
    (hcareful : Allowed Editing.step CarefulEdit ⟨l, []⟩ ops) :
    ∃ e, exec Editing.step ⟨l, []⟩ ops = .ok e ∧ Consistent l ops e := by
  obtain ⟨hinv, rfl⟩ := inv_read hread
  obtain ⟨e, hexec, hinv', hproject, hlisting, hanswers, hnodup⟩ :=
    exec_careful (e := ⟨l, []⟩) hinv hadmitted hcareful
  refine ⟨e, hexec, hlisting, hanswers, ?_, hnodup⟩
  exact (show e.list.project = l.project from hproject) ▸ hinv'.readBack

/-- A file that can be read, with a test of the list. -/
theorem exists_read (own file : Text) (test : CommObjectsList → Bool)
    (h : (match CommObjectsList.read own file with
      | .ok l => test l
      | .error _ => false) = true) :
    ∃ l, CommObjectsList.read own file = .ok l ∧ test l = true := by
  split at h
  · rename_i l hl
    exact ⟨l, hl, h⟩
  · cases h

/-- A line with a project and a comment, one without, and no line break at the end. -/
def twoLines : Text := " Base/comm-objects/A.dco # first\n# none\ncomm-objects/B.dco".toList

theorem consistent_of_run_twoLines :
    ∃ l, CommObjectsList.read "Prj".toList twoLines = .ok l ∧
      ∃ e, exec Editing.step ⟨l, []⟩
          [.add (some "Other".toList) "comm-objects".toList "C".toList "new".toList,
            .delete (some "Base".toList) "comm-objects".toList "A".toList "old".toList, .sync,
            .contains (some "Prj".toList) "B".toList "comm-objects".toList] = .ok e ∧
        Consistent l [.add (some "Other".toList) "comm-objects".toList "C".toList "new".toList,
          .delete (some "Base".toList) "comm-objects".toList "A".toList "old".toList, .sync,
          .contains (some "Prj".toList) "B".toList "comm-objects".toList] e := by
  obtain ⟨l, hl, hchecks⟩ := exists_read "Prj".toList twoLines
    (fun l => checks Editing.step (fun e op => decide (CarefulEdit e op)) ⟨l, []⟩
      [.add (some "Other".toList) "comm-objects".toList "C".toList "new".toList,
        .delete (some "Base".toList) "comm-objects".toList "A".toList "old".toList, .sync,
        .contains (some "Prj".toList) "B".toList "comm-objects".toList]) (by decide +kernel)
  exact ⟨l, hl, consistent_of_run _ _ l _ hl (by decide +kernel)
    (allowed_of_checks (fun _ _ h => of_decide_eq_true h) hchecks)⟩

/-- A reference that is there is added again. -/
theorem not_consistent_added_twice :
    ¬ ∀ (own file : Text) (l : CommObjectsList) (ops : List Edit),
      CommObjectsList.read own file = .ok l → (∀ op ∈ ops, op.Admitted) →
        ∃ e, exec Editing.step ⟨l, []⟩ ops = .ok e ∧ Consistent l ops e := by
  intro h
  obtain ⟨l, hl, htest⟩ := exists_read "Prj".toList "comm-objects/A.dco\n".toList
    (fun l => decide l.references.Nodup && endsIn Editing.step ⟨l, []⟩
      [.add (some "Prj".toList) "comm-objects".toList "A".toList []]
      fun e => decide (¬ e.list.references.Nodup)) (by decide +kernel)
  obtain ⟨hnodup, hends⟩ := Bool.and_eq_true_iff.mp htest
  obtain ⟨e, he, hdouble⟩ := exists_of_endsIn _ _ _ _ hends
  obtain ⟨e', he', hconsistent⟩ := h _ _ l _ hl
    (by decide +kernel : ∀ op ∈ [Edit.add (some "Prj".toList) "comm-objects".toList "A".toList []],
      op.Admitted)
  obtain rfl := Except.ok.inj (he.symm.trans he')
  exact of_decide_eq_true hdouble (hconsistent.nodup (of_decide_eq_true hnodup))

end Dueca.Policy
