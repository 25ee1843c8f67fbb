import Dueca.Policy.InsertText

/-!
# Exactness of text edits

The loop over the matches in a file takes one after another, until there are no more, or as many as
wanted. It stays at a match of length zero. Apart from that each match comes after the one before
it.

The edits of an action are exact when a file is named once, for matches that are in its text. When
it is named more often, they still are when each further reference has matches that come before
those of the references up to there, as the text up to these has not changed.
-/

namespace Dueca.Policy

open Dueca.Lib

variable {M : Type} {pattern : Pattern M} {text : Text} {limit : ℤ} {s t : MatchSpan M}
  {j k n offset : ℕ}

/-! ### Searches -/

theorem Pattern.search_spec (h : pattern.search text offset = some s) :
    offset ≤ s.span.1 ∧ s.span.1 ≤ s.span.2 ∧ s.span.2 ≤ text.length ∧
      pattern.matchAt text s.span.1 = some (s.span.2, s.matchre) := by
  obtain ⟨p, hp, hs⟩ := List.exists_of_findSome?_eq_some h
  obtain ⟨m, hm, rfl⟩ := Option.map_eq_some_iff.1 hs
  obtain ⟨hle, hlen⟩ := pattern.fits text p m.1 m.2 hm
  exact ⟨(List.mem_range'_1.1 hp).1, hle, hlen, hm⟩

/-- A match is found from its own start on. -/
theorem Pattern.search_self {m : ℕ × M} (h : pattern.matchAt text k = some m) :
    pattern.search text k = some ⟨(k, m.1), m.2⟩ := by
  obtain ⟨hle, hlen⟩ := pattern.fits text k m.1 m.2 h
  have hrange : text.length + 1 - k = (text.length - k) + 1 := by omega
  rw [Pattern.search, hrange, List.range'_succ, List.findSome?_cons, h]
  rfl

/-- The matches one after another, without a limit. -/
def matchNr (pattern : Pattern M) (text : Text) : ℕ → Option (MatchSpan M)
  | 0 => matchFunctionPattern pattern text none
  | k + 1 => (matchNr pattern text k).bind fun s => matchFunctionPattern pattern text (some s.span)

theorem matchNr_spec (h : matchNr pattern text k = some s) :
    s.span.1 ≤ s.span.2 ∧ s.span.2 ≤ text.length ∧
      pattern.matchAt text s.span.1 = some (s.span.2, s.matchre) := by
  cases k with
  | zero => exact (Pattern.search_spec h).2
  | succ k =>
    obtain ⟨s', hs', hs⟩ := Option.bind_eq_some_iff.1 h
    exact (Pattern.search_spec hs).2

/-- A match starts where those before it have ended. -/
theorem matchNr_le (hs : matchNr pattern text j = some s) (ht : matchNr pattern text k = some t)
    (hjk : j < k) : s.span.2 ≤ t.span.1 := by
  induction k generalizing t with
  | zero => omega
  | succ k ih =>
    obtain ⟨t', ht', hsearch⟩ := Option.bind_eq_some_iff.1 ht
    have hstart : t'.span.2 ≤ t.span.1 := (Pattern.search_spec hsearch).1
    rcases Nat.lt_succ_iff_lt_or_eq.1 hjk with hlt | rfl
    · exact ((ih ht' hlt).trans (matchNr_spec ht').1).trans hstart
    · obtain rfl : t' = s := Option.some.inj (ht'.symm.trans hs)
      exact hstart

theorem matchNr_eq_none (h : matchNr pattern text j = none) (hjk : j ≤ k) :
    matchNr pattern text k = none := by
  induction k, hjk using Nat.le_induction with
  | base => exact h
  | succ k _ ih => rw [matchNr, ih, Option.bind_none]

/-- After an empty match the same one is found again. -/
theorem matchNr_of_empty (h : matchNr pattern text j = some s) (hempty : s.span.2 ≤ s.span.1)
    (hjk : j ≤ k) : matchNr pattern text k = some s := by
  induction k, hjk using Nat.le_induction with
  | base => exact h
  | succ k _ ih =>
    obtain ⟨hle, -, hmatch⟩ := matchNr_spec h
    have hspan : s.span.2 = s.span.1 := Nat.le_antisymm hempty hle
    have hself := Pattern.search_self hmatch
    rw [matchNr, ih]
    change pattern.search text s.span.2 = some s
    rw [hspan, hself]

/-! ### Collected matches -/

/-- The loop takes a match when it has `k` of them. -/
def Taken (limit : ℤ) (k : ℕ) : Prop := limit = 0 ∨ (k : ℤ) < limit

instance : Decidable (Taken limit k) := inferInstanceAs (Decidable (_ ∨ _))

theorem Taken.mono (hjk : j ≤ k) (h : Taken limit k) : Taken limit j := by
  unfold Taken at h ⊢
  omega

/-- A span comes before another one. -/
def Before (s t : MatchSpan M) : Prop := s.span.1 < t.span.1 ∧ s.span.2 ≤ t.span.1

/-- The loop over the matches ends, with spans in order. -/
def Collects (pattern : Pattern M) (text : Text) (limit : ℤ) : Prop :=
  ∃ found, Returns (collectBody pattern text limit) (collectStart pattern text) found ∧
    found.Pairwise Before

/-- No match is empty when there is still another one to be taken. -/
def Productive (pattern : Pattern M) (text : Text) (limit : ℤ) : Prop :=
  ∀ k s, matchNr pattern text k = some s → Taken limit (k + 1) → s.span.1 < s.span.2

/-- What has been taken so far. -/
structure TakenSoFar (pattern : Pattern M) (text : Text) (limit : ℤ)
    (found : List (MatchSpan M)) : Prop where
  matches_eq : ∀ k < found.length, found[k]? = matchNr pattern text k
  taken : ∀ k < found.length, Taken limit k

/-- The invariant of the loop. -/
def Collecting (pattern : Pattern M) (text : Text) (limit : ℤ)
    (st : List (MatchSpan M) × Option (MatchSpan M)) : Prop :=
  TakenSoFar pattern text limit st.1 ∧ st.2 = matchNr pattern text st.1.length

theorem collecting_start : Collecting pattern text limit (collectStart pattern text) :=
  ⟨⟨fun _ h => absurd h (Nat.not_lt_zero _), fun _ h => absurd h (Nat.not_lt_zero _)⟩, rfl⟩

/-- What a turn of the loop does. -/
theorem collectBody_next {st st' : List (MatchSpan M) × Option (MatchSpan M)}
    (h : collectBody pattern text limit st = .inl st') :
    ∃ found s, st = (found, some s) ∧ Taken limit found.length ∧
      st' = (found ++ [s], matchFunctionPattern pattern text (some s.span)) := by
  obtain ⟨found, _ | s⟩ := st
  · cases h
  · rw [collectBody] at h
    split at h
    · next htaken => exact ⟨found, s, rfl, htaken, (Sum.inl.inj h).symm⟩
    · cases h

theorem collectBody_done {st : List (MatchSpan M) × Option (MatchSpan M)}
    {found : List (MatchSpan M)} (h : collectBody pattern text limit st = .inr found) :
    st.1 = found ∧ (st.2 = none ∨ ¬Taken limit found.length) := by
  obtain ⟨found', _ | s⟩ := st
  · exact ⟨Sum.inr.inj h, .inl rfl⟩
  · rw [collectBody] at h
    split at h
    · cases h
    · next htaken =>
      obtain rfl := Sum.inr.inj h
      exact ⟨rfl, .inr htaken⟩

theorem Collecting.next {st st' : List (MatchSpan M) × Option (MatchSpan M)}
    (hst : Collecting pattern text limit st) (h : collectBody pattern text limit st = .inl st') :
    Collecting pattern text limit st' := by
  obtain ⟨found, s, rfl, htaken, rfl⟩ := collectBody_next h
  obtain ⟨⟨hmatches, hbefore⟩, hs⟩ := hst
  have hs : some s = matchNr pattern text found.length := hs
  refine ⟨⟨fun k hk => ?_, fun k hk => ?_⟩, ?_⟩
  · rw [List.length_append, List.length_singleton] at hk
    rcases Nat.lt_succ_iff_lt_or_eq.1 hk with hlt | rfl
    · rw [List.getElem?_append_left hlt, hmatches k hlt]
    · rw [List.getElem?_concat_length, hs]
  · rw [List.length_append, List.length_singleton] at hk
    rcases Nat.lt_succ_iff_lt_or_eq.1 hk with hlt | rfl
    · exact hbefore k hlt
    · exact htaken
  · change _ = matchNr pattern text (found ++ [s]).length
    rw [List.length_append, List.length_singleton, matchNr, ← hs]
    rfl

/-- What has been collected when the loop ends. -/
theorem takenSoFar_of_returns {found : List (MatchSpan M)}
    (h : Returns (collectBody pattern text limit) (collectStart pattern text) found) :
    TakenSoFar pattern text limit found ∧
      (matchNr pattern text found.length = none ∨ ¬Taken limit found.length) := by
  refine h.invariant (I := Collecting pattern text limit)
    (J := fun found => TakenSoFar pattern text limit found ∧
      (matchNr pattern text found.length = none ∨ ¬Taken limit found.length))
    (fun st st' hst hbody => hst.next hbody) (fun st r hst hbody => ?_) collecting_start
  obtain ⟨rfl, hstop⟩ := collectBody_done hbody
  refine ⟨hst.1, ?_⟩
  rw [← hst.2]
  exact hstop

/-- How much there is still to be taken. -/
def pending (text : Text) (limit : ℤ) : List (MatchSpan M) × Option (MatchSpan M) → ℕ
  | (_, none) => 0
  | (found, some s) =>
    if Taken limit found.length then
      if Taken limit (found.length + 1) then text.length + 2 - s.span.1 else 1
    else 0

theorem Productive.ends (h : Productive pattern text limit) :
    Ends (collectBody pattern text limit) (collectStart pattern text) := by
  refine ends_of_measure (I := Collecting pattern text limit) (pending text limit)
    (fun st st' hst hbody => ⟨hst.next hbody, ?_⟩) collecting_start
  have hst' := hst.next hbody
  obtain ⟨found, s, rfl, htaken, rfl⟩ := collectBody_next hbody
  have hs : matchNr pattern text found.length = some s := hst.2.symm
  obtain ⟨hle, hlen, -⟩ := matchNr_spec hs
  have hcount : (found ++ [s]).length = found.length + 1 := List.length_append
  cases ht : matchFunctionPattern pattern text (some s.span) with
  | none =>
    simp only [pending, if_pos htaken]
    split <;> omega
  | some t =>
    have hstart : s.span.2 ≤ t.span.1 := (Pattern.search_spec ht).1
    simp only [pending, if_pos htaken, hcount]
    by_cases hnext : Taken limit (found.length + 1)
    · have hlt := h _ s hs hnext
      simp only [if_pos hnext]
      split <;> omega
    · simp only [if_neg hnext]
      omega

theorem TakenSoFar.getElem {found : List (MatchSpan M)} (h : TakenSoFar pattern text limit found)
    (hk : k < found.length) : matchNr pattern text k = some found[k] := by
  rw [← h.matches_eq k hk, List.getElem?_eq_getElem hk]

/-- The matches are collected in order if and only if the loop is not held up by an empty one. -/
theorem collects_iff_productive (pattern : Pattern M) (text : Text) (limit : ℤ) :
    Collects pattern text limit ↔ Productive pattern text limit := by
  constructor
  · rintro ⟨found, hfound, hordered⟩ k s hs htaken
    by_contra hempty
    obtain ⟨hsofar, hstop⟩ := takenSoFar_of_returns hfound
    -- The empty match and the next one, which is the same, have both been taken.
    have hnext : matchNr pattern text (k + 1) = some s :=
      matchNr_of_empty hs (Nat.not_lt.1 hempty) (Nat.le_succ k)
    have hk : k + 1 < found.length := by
      by_contra hlen
      have hlen := Nat.not_lt.1 hlen
      rcases hstop with hnone | hnot
      · cases (matchNr_eq_none hnone hlen).symm.trans hnext
      · exact hnot (htaken.mono hlen)
    have hbefore := List.pairwise_iff_getElem.1 hordered k (k + 1) (Nat.lt_of_succ_lt hk) hk
      (Nat.lt_succ_self k)
    rw [← Option.some.inj (hs.symm.trans (hsofar.getElem (Nat.lt_of_succ_lt hk))),
      ← Option.some.inj (hnext.symm.trans (hsofar.getElem hk))] at hbefore
    exact Nat.lt_irrefl _ hbefore.1
  · intro h
    obtain ⟨m, found, hfound⟩ := h.ends
    obtain ⟨hsofar, -⟩ := takenSoFar_of_returns ⟨m, hfound⟩
    refine ⟨found, ⟨m, hfound⟩, List.pairwise_iff_getElem.2 fun i j hi hj hij => ?_⟩
    have hle := matchNr_le (hsofar.getElem hi) (hsofar.getElem hj) hij
    have hlt := h i _ (hsofar.getElem hi) ((hsofar.taken j hj).mono hij)
    exact ⟨hlt.trans_le hle, hle⟩

/-! ### Edits -/

/-- The true references to a file. -/
def refsTo (refs : List (FileReference M)) (f : Name) : List (FileReference M) :=
  refs.filter fun r => r.value && r.filename == some f

/-- The matched spans of a file. -/
def spansIn (refs : List (FileReference M)) (f : Name) : List (MatchSpan M) :=
  (refsTo refs f).flatMap fun r => r.spans.getD []

/-- The matched spans of a file, from the last reference to the first one. -/
def spansBack (refs : List (FileReference M)) (f : Name) : List (MatchSpan M) :=
  (refsTo refs f).reverse.flatMap fun r => r.spans.getD []

/-- The action is refused at once: a true reference is without file name, or the file of the first
one is not there. -/
def RefusedAtOnce (fs : FileTexts) (refs : List (FileReference M)) : Prop :=
  (∃ r ∈ refs, r.value ∧ r.filename = none) ∨
    ∃ r l f, refs.filter (·.value) = r :: l ∧ r.filename = some f ∧ fs f = none

namespace ActionInsertText

variable (a : ActionInsertText M)

/-- The change to be made for a match. -/
def change (s : MatchSpan M) : Change Char :=
  ⟨a.mode.upto s.span, a.mode.idxw s.span, (a.getString s.matchre).getD []⟩

/-- The text has been changed at each of the spans, once. -/
structure Edited (spans : List (MatchSpan M)) (txt out : Text) (edits : List (MatchSpan M)) :
    Prop where
  subset : ∀ s ∈ edits, s ∈ spans
  nodup : (edits.map (·.span)).Nodup
  all : ∀ s ∈ spans, s.span ∈ edits.map (·.span)
  spliced : Spliced 0 txt (edits.map a.change) out

/-- The action is refused before any file has been changed, or each named file is edited at all of
its matched spans. -/
def EditsExactly (fs : FileTexts) (refs : List (FileReference M)) : Prop :=
  (∃ e, a.enact false fs refs = (fs, .error e)) ∨
    ∃ fs' files, a.enact false fs refs = (fs', .ok files) ∧
      ∀ f txt, (∃ r ∈ refs, r.filename = some f) → fs f = some txt →
        ∃ out edits, fs' f = some out ∧ a.Edited (spansIn refs f) txt out edits

/-- A reference can be handled: the file is there, and there are matches, for which a text can be
made. -/
def Present (fs : FileTexts) (r : FileReference M) : Prop :=
  ∃ f spans, r.filename = some f ∧ r.spans = some spans ∧ (fs f).isSome ∧
    ∀ s ∈ spans, (a.getString s.matchre).isSome

/-- All true references can be handled, one after another. -/
structure CarefulReferences (fs : FileTexts) (refs : List (FileReference M)) : Prop where
  present : ∀ r ∈ refs, r.value → a.Present fs r
  /-- No file is named that has the name under which another one is kept. -/
  backups : ∀ r ∈ refs, r.value → ∀ f, r.filename = some f → ∀ r' ∈ refs,
    r'.filename ≠ some (backup f)
  /-- From the last reference to a file to the first one, the edits are in order. -/
  ordered : ∀ f txt, fs f = some txt →
    Ordered 0 ((spansBack refs f).map a.change) txt.length
  /-- No span is given twice. -/
  distinct : ∀ f, ((spansIn refs f).map (·.span)).Nodup

end ActionInsertText

variable {a : ActionInsertText M} {fs : FileTexts} {refs todo : List (FileReference M)}
  {r : FileReference M} {f g : Name} {txt : Text} {spans : List (MatchSpan M)}

theorem backup_ne (f : Name) : backup f ≠ f := by
  intro h
  have hlen := congrArg List.length h
  rw [backup, List.length_append, List.length_singleton] at hlen
  omega

/-! ### The references to a file -/

theorem refsTo_concat_of_eq (hr : r.value = true) (hf : r.filename = some f) :
    refsTo (todo ++ [r]) f = refsTo todo f ++ [r] := by
  rw [refsTo, List.filter_append, List.filter_singleton, hr, hf]
  simp only [BEq.rfl, Bool.and_self, cond_true, refsTo]

theorem refsTo_concat_of_ne (hf : r.filename ≠ some f) :
    refsTo (todo ++ [r]) f = refsTo todo f := by
  have hne : (r.filename == some f) = false := beq_false_of_ne hf
  rw [refsTo, List.filter_append, List.filter_singleton, hne, Bool.and_false]
  exact List.append_nil _

theorem refsTo_filter : refsTo (refs.filter (·.value)) f = refsTo refs f := by
  rw [refsTo, refsTo, List.filter_filter]
  exact List.filter_congr fun r _ => by cases r.value <;> simp

theorem spansBack_concat_of_eq (hr : r.value = true) (hf : r.filename = some f)
    (hspans : r.spans = some spans) : spansBack (todo ++ [r]) f = spans ++ spansBack todo f := by
  rw [spansBack, refsTo_concat_of_eq hr hf, List.reverse_concat, List.flatMap_cons, hspans]
  rfl

theorem spansBack_concat_of_ne (hf : r.filename ≠ some f) :
    spansBack (todo ++ [r]) f = spansBack todo f := by
  rw [spansBack, refsTo_concat_of_ne hf, spansBack]

theorem spansBack_perm : (spansBack refs f).Perm (spansIn refs f) :=
  (List.reverse_perm _).flatMap_right _

/-! ### One reference -/

namespace ActionInsertText

theorem writeMatches_eq (hspans : ∀ s ∈ spans, (a.getString s.matchre).isSome) (idxw : ℕ)
    (f1 : Text) :
    a.writeMatches txt idxw f1 spans = (f1 ++ splice txt idxw (spans.map a.change), true) := by
  induction spans generalizing idxw f1 with
  | nil => rfl
  | cons s spans ih =>
    obtain ⟨new, hnew⟩ := Option.isSome_iff_exists.1 (hspans s List.mem_cons_self)
    simp only [writeMatches, hnew, List.map_cons, splice, change, Option.getD_some]
    rw [ih fun s hs => hspans s (List.mem_cons_of_mem _ hs)]
    simp only [List.append_assoc]

/-- The file gets the text with the changes, and the old text is kept. -/
theorem enactFile_eq (hf : fs f = some txt)
    (hspans : ∀ s ∈ spans, (a.getString s.matchre).isSome) :
    ∃ fs', a.enactFile false fs f (some spans) = (fs', .ok f) ∧
      fs' f = some (splice txt 0 (spans.map a.change)) ∧
      ∀ g, g ≠ f → g ≠ backup f → fs' g = fs g := by
  have hread : Function.update (Function.update fs (backup f) (some txt)) f none (backup f) =
      some txt := by
    rw [Function.update_of_ne (backup_ne f), Function.update_self]
  refine ⟨Function.update (Function.update (Function.update fs (backup f) (some txt)) f none) f
    (some (splice txt 0 (spans.map a.change))), ?_, Function.update_self .., fun g hg hb => ?_⟩
  · simp only [enactFile, rename, hf, Option.map_some, rewrite, hread, writeMatches_eq hspans,
      List.nil_append, if_true, Bool.false_eq_true, if_false]
    rfl
  · rw [Function.update_of_ne hg, Function.update_of_ne hg, Function.update_of_ne hb]

/-! ### All references -/

/-- The references that come after an exception are left. -/
theorem foldl_enactRef_error (dryrun : Bool) (fs : FileTexts) (e : Raised)
    (todo : List (FileReference M)) :
    todo.foldl (a.enactRef dryrun) (fs, .error e) = (fs, .error e) := by
  induction todo with
  | nil => rfl
  | cons r todo ih => exact ih

/-- What the loop over the references leaves: all files are spliced, unless the old text of another
one has been put there. -/
theorem foldl_enactRef (hvalue : ∀ r ∈ todo, r.value = true)
    (hpresent : ∀ r ∈ todo, a.Present fs r)
    (hbackups : ∀ r ∈ todo, ∀ f, r.filename = some f → ∀ r' ∈ todo,
      r'.filename ≠ some (backup f))
    (hordered : ∀ f txt, fs f = some txt →
      Ordered 0 ((spansBack todo f).map a.change) txt.length) :
    ∃ fs' files, todo.foldl (a.enactRef false) (fs, .ok []) = (fs', .ok files) ∧
      ∀ f, (∀ r ∈ todo, ∀ g, r.filename = some g → f ≠ backup g) →
        fs' f = (fs f).map fun txt => splice txt 0 ((spansBack todo f).map a.change) := by
  induction todo using List.reverseRecOn with
  | nil =>
    refine ⟨fs, [], rfl, fun f _ => ?_⟩
    cases fs f <;> rfl
  | append_singleton todo r ih =>
    have hmem : ∀ {r'}, r' ∈ todo → r' ∈ todo ++ [r] := List.mem_append_left _
    have hr : r ∈ todo ++ [r] := List.mem_append_right _ (List.mem_singleton_self r)
    obtain ⟨f, spans, hf, hspans, hsome, hstrings⟩ := hpresent r hr
    have hback : spansBack (todo ++ [r]) f = spans ++ spansBack todo f :=
      spansBack_concat_of_eq (hvalue r hr) hf hspans
    have hother : ∀ g, g ≠ f → spansBack (todo ++ [r]) g = spansBack todo g := fun g hg =>
      spansBack_concat_of_ne fun h => hg (Option.some.inj (h.symm.trans hf))
    -- The earlier references leave the edits of this one to be made before theirs.
    have hbefore : ∀ g txt, fs g = some txt →
        Ordered 0 ((spansBack todo g).map a.change) txt.length := by
      intro g txt htxt
      have hall := hordered g txt htxt
      by_cases hg : g = f
      · subst hg
        rw [hback, List.map_append, ordered_append] at hall
        obtain ⟨m, -, hm⟩ := hall
        exact hm.mono (Nat.zero_le m)
      · rwa [hother g hg] at hall
    obtain ⟨fs₁, files, hloop, hfs₁⟩ := ih (fun r' h => hvalue r' (hmem h))
      (fun r' h => hpresent r' (hmem h))
      (fun r' h f h' r'' h'' => hbackups r' (hmem h) f h' r'' (hmem h'')) hbefore
    obtain ⟨txt, htxt⟩ := Option.isSome_iff_exists.1 hsome
    have hnow : fs₁ f = some (splice txt 0 ((spansBack todo f).map a.change)) := by
      rw [hfs₁ f fun r' h g hg heq => hbackups r' (hmem h) g hg r hr (heq ▸ hf), htxt]
      rfl
    obtain ⟨fs₂, hfile, hnew, hframe⟩ := enactFile_eq hnow hstrings
    refine ⟨fs₂, files ++ [f], ?_, fun g hg => ?_⟩
    · rw [List.foldl_concat, hloop]
      simp only [enactRef, hf, hspans, hfile]
      rfl
    · by_cases hgf : g = f
      · subst hgf
        have hall := hordered g txt htxt
        rw [hback, List.map_append] at hall
        rw [hnew, htxt, hback, List.map_append, Option.map_some, splice_splice hall]
      · rw [hframe g hgf (hg r hr f hf), hfs₁ g fun r' h => hg r' (hmem h), hother g hgf]

/-! ### The action -/

theorem doubleFile_error (h : ∃ r ∈ todo, r.value ∧ r.filename = none) :
    doubleFile [] todo = .error .attributeError := by
  induction todo with
  | nil =>
    obtain ⟨r, hr, -⟩ := h
    cases hr
  | cons r' todo ih =>
    obtain ⟨r, hr, hvalue, hname⟩ := h
    rcases List.mem_cons.1 hr with rfl | hr
    · rw [doubleFile, if_pos hvalue, hname]
    · have ih := ih ⟨r, hr, hvalue, hname⟩
      rw [doubleFile]
      cases hname' : r'.filename <;> simp [ih]

/-- The test lets all references pass that have a file name. -/
theorem doubleFile_ok (h : ∀ r ∈ todo, r.filename ≠ none) : doubleFile [] todo = .ok () := by
  induction todo with
  | nil => rfl
  | cons r todo ih =>
    have ih := ih fun r hr => h r (List.mem_cons_of_mem _ hr)
    obtain ⟨f, hf⟩ := Option.ne_none_iff_exists'.1 (h r List.mem_cons_self)
    simp [doubleFile, hf, ih]

theorem enact_of_refused (h : RefusedAtOnce fs refs) :
    ∃ e, a.enact false fs refs = (fs, .error e) := by
  rcases h with ⟨r, hr, hvalue, hname⟩ | ⟨r, l, f, htodo, hf, hnone⟩
  · have hmem : r ∈ refs.filter (·.value) := List.mem_filter.2 ⟨hr, hvalue⟩
    refine ⟨.attributeError, ?_⟩
    simp only [enact, doubleFile_error ⟨r, hmem, hvalue, hname⟩]
  · simp only [enact]
    cases doubleFile [] (refs.filter (·.value)) with
    | error e => exact ⟨e, rfl⟩
    | ok _ =>
      refine ⟨.fileNotFound, ?_⟩
      have hfirst : a.enactRef false (fs, .ok []) r = (fs, .error .fileNotFound) := by
        simp only [enactRef, hf, enactFile, rename, hnone, Option.map_none, Bool.false_eq_true,
          if_false]
        rfl
      simp only [htodo, List.foldl_cons, hfirst, foldl_enactRef_error]

/-- The action does all edits for careful references. -/
theorem CarefulReferences.editsExactly (h : a.CarefulReferences fs refs) :
    a.EditsExactly fs refs := by
  have hmem : ∀ {r}, r ∈ refs.filter (·.value) → r ∈ refs ∧ r.value = true := List.mem_filter.1
  have hback : ∀ f, spansBack (refs.filter (·.value)) f = spansBack refs f := fun f => by
    rw [spansBack, refsTo_filter, spansBack]
  obtain ⟨fs', files, hloop, hfs'⟩ := (@foldl_enactRef _ a fs _)
    (fun r hr => (hmem hr).2) (fun r hr => h.present r (hmem hr).1 (hmem hr).2)
    (fun r hr f hf r' hr' => h.backups r (hmem hr).1 (hmem hr).2 f hf r' (hmem hr').1)
    (fun f txt hf => by rw [hback]; exact h.ordered f txt hf)
  have hdouble : doubleFile [] (refs.filter (·.value)) = .ok () := by
    refine doubleFile_ok fun r hr hnone => ?_
    obtain ⟨f, _, hf, _⟩ := h.present r (hmem hr).1 (hmem hr).2
    cases hf.symm.trans hnone
  refine .inr ⟨fs', files, ?_, fun f txt hnamed hf => ?_⟩
  · simp only [enact, hdouble]
    exact hloop
  · obtain ⟨r, hr, hname⟩ := hnamed
    refine ⟨splice txt 0 ((spansBack refs f).map a.change), spansBack refs f, ?_,
      fun s hs => spansBack_perm.mem_iff.1 hs, ?_, ?_, ?_⟩
    · rw [hfs' f fun r' hr' g hg heq => h.backups r' (hmem hr').1 (hmem hr').2 g hg r hr
        (heq ▸ hname), hf, Option.map_some, hback]
    · exact (spansBack_perm.map _).nodup_iff.2 (h.distinct f)
    · exact fun s hs => List.mem_map_of_mem (spansBack_perm.mem_iff.2 hs)
    · exact spliced_splice (h.ordered f txt hf)

end ActionInsertText

/-! ### References for different files -/

theorem mode_within (mode : Mode) {span : ℕ × ℕ} (h : span.1 ≤ span.2) :
    span.1 ≤ mode.upto span ∧ mode.upto span ≤ mode.idxw span ∧ mode.idxw span ≤ span.2 := by
  cases mode
  · exact ⟨Nat.le_refl _, h, Nat.le_refl _⟩
  · exact ⟨Nat.le_refl _, Nat.le_refl _, h⟩
  · exact ⟨h, Nat.le_refl _, Nat.le_refl _⟩

theorem ordered_of_before (hspans : spans.Pairwise Before)
    (hwithin : ∀ s ∈ spans, s.span.1 ≤ s.span.2 ∧ s.span.2 ≤ n) (hk : k ≤ n)
    (hstart : ∀ s ∈ spans, k ≤ s.span.1) : Ordered k (spans.map a.change) n := by
  induction spans generalizing k with
  | nil => exact hk
  | cons s spans ih =>
    obtain ⟨hhead, htail⟩ := List.pairwise_cons.1 hspans
    obtain ⟨hle, hlen⟩ := hwithin s List.mem_cons_self
    obtain ⟨hupto, hidxw, hend⟩ := mode_within a.mode hle
    refine ⟨(hstart s List.mem_cons_self).trans hupto, hidxw, ih htail
      (fun t ht => hwithin t (List.mem_cons_of_mem _ ht)) (hend.trans hlen) fun t ht => ?_⟩
    exact hend.trans (hhead t ht).2

theorem nodup_of_before (hspans : spans.Pairwise Before) : (spans.map (·.span)).Nodup := by
  refine List.pairwise_map.2 (hspans.imp fun h heq => ?_)
  exact Nat.lt_irrefl _ (heq ▸ h.1)

/-- A reference that a find-pattern condition has given for a file. -/
structure FoundIn (fs : FileTexts) (r : FileReference M) (pattern : Pattern M) (limit : ℤ)
    (f : Name) (text : Text) (found : List (MatchSpan M)) : Prop where
  text_eq : fs f = some text
  ref_eq : r = FileReference.ofMatches f found
  returns : Returns (collectBody pattern text limit) (collectStart pattern text) found
  before : found.Pairwise Before

theorem FoundIn.within {found : List (MatchSpan M)} (h : FoundIn fs r pattern limit f text found)
    (hs : s ∈ found) : s.span.1 ≤ s.span.2 ∧ s.span.2 ≤ text.length := by
  obtain ⟨k, hk, rfl⟩ := List.mem_iff_getElem.1 hs
  have hspec := matchNr_spec ((takenSoFar_of_returns h.returns).1.getElem hk)
  exact ⟨hspec.1, hspec.2.1⟩

/-- When different references are for different files, a file has one of them, or none. -/
theorem refsTo_eq (hfiles : (refs.map (·.filename)).Nodup) (f : Name) :
    refsTo refs f = [] ∨ ∃ r ∈ refs, r.filename = some f ∧ refsTo refs f = [r] := by
  have hnodup : ((refsTo refs f).map (·.filename)).Nodup :=
    hfiles.sublist (List.filter_sublist.map _)
  have hmem : ∀ r ∈ refsTo refs f, r ∈ refs ∧ r.filename = some f := by
    intro r hr
    obtain ⟨hr, htrue⟩ := List.mem_filter.1 hr
    exact ⟨hr, eq_of_beq (Bool.and_eq_true_iff.1 htrue).2⟩
  cases hrefs : refsTo refs f with
  | nil => exact .inl rfl
  | cons r l =>
    rw [hrefs] at hnodup hmem
    obtain ⟨hr, hf⟩ := hmem r List.mem_cons_self
    cases l with
    | nil => exact .inr ⟨r, hr, hf, rfl⟩
    | cons r' l =>
      have hf' := (hmem r' (List.mem_cons_of_mem _ List.mem_cons_self)).2
      refine absurd ?_ (List.nodup_cons.1 hnodup).1
      have heq : r'.filename = r.filename := hf'.trans hf.symm
      exact List.mem_map.2 ⟨r', List.mem_cons_self, heq⟩

/-- References that have been found in different files are careful. -/
theorem careful_of_collected
    (hfound : ∀ r ∈ refs, ∃ pattern limit f text found, FoundIn fs r pattern limit f text found)
    (hfiles : (refs.map (·.filename)).Nodup)
    (hbackups : ∀ r ∈ refs, ∀ f, r.filename = some f → ∀ r' ∈ refs,
      r'.filename ≠ some (backup f))
    (hstrings : ∀ m, (a.getString m).isSome) : a.CarefulReferences fs refs where
  present r hr _ := by
    obtain ⟨pattern, limit, f, text, found, h⟩ := hfound r hr
    have href := h.ref_eq
    subst href
    exact ⟨f, found, rfl, rfl, h.text_eq ▸ rfl, fun s _ => hstrings s.matchre⟩
  backups r hr _ := hbackups r hr
  ordered f txt hf := by
    rcases refsTo_eq hfiles f with hnil | ⟨r, hr, hname, hone⟩
    · rw [spansBack, hnil]
      exact Nat.zero_le _
    · obtain ⟨pattern, limit, f', text, found, h⟩ := hfound r hr
      have href := h.ref_eq
      subst href
      obtain rfl : f' = f := Option.some.inj hname
      obtain rfl : text = txt := Option.some.inj (h.text_eq.symm.trans hf)
      rw [spansBack, hone]
      simp only [List.reverse_singleton, List.flatMap_singleton, FileReference.ofMatches,
        Option.getD_some]
      exact ordered_of_before h.before (fun s hs => h.within hs) (Nat.zero_le _)
        fun _ _ => Nat.zero_le _
  distinct f := by
    rcases refsTo_eq hfiles f with hnil | ⟨r, hr, hname, hone⟩
    · rw [spansIn, hnil]
      exact List.nodup_nil
    · obtain ⟨pattern, limit, f', text, found, h⟩ := hfound r hr
      have href := h.ref_eq
      subst href
      rw [spansIn, hone]
      simp only [List.flatMap_singleton, FileReference.ofMatches, Option.getD_some]
      exact nodup_of_before h.before

/-- The matches of a pattern in a file are collected in order if and only if none of them is empty,
unless it is the last one taken. An action is exact when it is refused at once, and for careful
references. -/
theorem textEdits_exact (pattern : Pattern M) (text : Text) (limit : ℤ) (a : ActionInsertText M)
    (fs : FileTexts) (refs : List (FileReference M)) :
    (Collects pattern text limit ↔ Productive pattern text limit) ∧
      (RefusedAtOnce fs refs ∨ a.CarefulReferences fs refs → a.EditsExactly fs refs) := by
  refine ⟨collects_iff_productive pattern text limit, ?_⟩
  rintro (hrefused | hcareful)
  · exact .inl (ActionInsertText.enact_of_refused hrefused)
  · exact hcareful.editsExactly

/-- The pattern `b`. -/
def letterB : Pattern Unit where
  matchAt text p := if text[p]? = some 'b' then some (p + 1, ()) else none
  fits text p e m h := by
    split at h
    · next hb =>
      cases h
      exact ⟨Nat.le_succ p, (List.getElem?_eq_some_iff.1 hb).1⟩
    · cases h

theorem productive_letterB (text : Text) (limit : ℤ) : Productive letterB text limit := by
  intro k s hs _
  obtain ⟨-, -, hmatch⟩ := matchNr_spec hs
  change (if text[s.span.1]? = some 'b' then some (s.span.1 + 1, ()) else none) = _ at hmatch
  split at hmatch
  · have hend : s.span.1 + 1 = s.span.2 := congrArg Prod.fst (Option.some.inj hmatch)
    omega
  · cases hmatch

/-- A file `f`, and the action that replaces a match by `xyz`. -/
def oneFile (txt : Text) : FileTexts := fun f => if f = ['f'] then some txt else none

def replaceXyz : ActionInsertText Unit := ⟨.replace, fun _ => some ['x', 'y', 'z']⟩

theorem textEdits_exact_letterB :
    Collects letterB ['a', 'b', 'b'] 0 ∧
      replaceXyz.EditsExactly (oneFile ['a', 'b', 'b'])
        [⟨true, some ['f'], some [⟨(1, 2), ()⟩, ⟨(2, 3), ()⟩]⟩] := by
  have hexact := textEdits_exact letterB ['a', 'b', 'b'] 0 replaceXyz (oneFile ['a', 'b', 'b'])
    [⟨true, some ['f'], some [⟨(1, 2), ()⟩, ⟨(2, 3), ()⟩]⟩]
  refine ⟨hexact.1.2 (productive_letterB _ _), hexact.2 (.inr (careful_of_collected ?_ ?_ ?_ ?_))⟩
  · intro r hr
    obtain rfl := List.mem_singleton.1 hr
    refine ⟨letterB, 0, ['f'], ['a', 'b', 'b'], [⟨(1, 2), ()⟩, ⟨(2, 3), ()⟩], rfl, rfl,
      ⟨3, rfl⟩, ?_⟩
    simp [Before]
  · exact List.nodup_singleton _
  · intro r hr f hf r' hr'
    obtain rfl := List.mem_singleton.1 hr
    obtain rfl := List.mem_singleton.1 hr'
    exact fun h => backup_ne f (Option.some.inj (h.symm.trans hf))
  · exact fun _ => rfl

/-- A pattern that matches everywhere, without any characters. -/
def nothing : Pattern Unit where
  matchAt text p := if p ≤ text.length then some (p, ()) else none
  fits text p e m h := by
    split at h
    · next hp =>
      cases h
      exact ⟨Nat.le_refl p, hp⟩
    · cases h

/-- An empty match is taken forever. A second reference with the same match replaces a letter of
the new text. -/
theorem not_textEdits_exact_again :
    ¬Collects nothing ['a'] 0 ∧
      ¬replaceXyz.EditsExactly (oneFile ['a', 'b'])
        [⟨true, some ['f'], some [⟨(0, 1), ()⟩]⟩, ⟨true, some ['f'], some [⟨(0, 1), ()⟩]⟩] := by
  constructor
  · rw [collects_iff_productive]
    intro h
    exact absurd (h 0 ⟨(0, 0), ()⟩ rfl (.inl rfl)) (Nat.lt_irrefl 0)
  · rintro (⟨e, he⟩ | ⟨fs', files, hdone, hall⟩)
    · have hok : (replaceXyz.enact false (oneFile ['a', 'b'])
          [⟨true, some ['f'], some [⟨(0, 1), ()⟩]⟩, ⟨true, some ['f'], some [⟨(0, 1), ()⟩]⟩]).2 =
          .ok [['f'], ['f']] := rfl
      rw [he] at hok
      cases hok
    · obtain ⟨out, edits, hout, hedited⟩ := hall ['f'] ['a', 'b'] ⟨_, List.mem_cons_self, rfl⟩ rfl
      have hwritten : some ['x', 'y', 'z', 'y', 'z', 'b'] = some out := by
        rw [← hout]
        exact congrFun (congrArg Prod.fst hdone) ['f']
      have hspan : ∀ s ∈ edits, s = ⟨(0, 1), ()⟩ := by
        intro s hs
        have hmem := hedited.subset s hs
        simpa [spansIn, refsTo] using hmem
      have hedits : edits = [⟨(0, 1), ()⟩] := by
        match edits, hspan, hedited with
        | [], _, h => cases h.all ⟨(0, 1), ()⟩ List.mem_cons_self
        | [s], hspan, _ => rw [hspan s List.mem_cons_self]
        | s :: t :: l, hspan, h =>
          have hne := (List.nodup_cons.1 h.nodup).1
          rw [hspan s List.mem_cons_self, List.map_cons,
            hspan t (List.mem_cons_of_mem _ List.mem_cons_self)] at hne
          exact absurd List.mem_cons_self hne
      have hspliced := hedited.spliced
      rw [hedits] at hspliced
      have hright : Spliced 0 ['a', 'b'] ([⟨(0, 1), ()⟩].map replaceXyz.change)
          ['x', 'y', 'z', 'b'] := spliced_splice (by decide)
      rw [hspliced.unique hright] at hwritten
      exact absurd (Option.some.inj hwritten) (by decide)

end Dueca.Policy
