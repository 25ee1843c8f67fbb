import Dueca.Policy.CommObjects
import Mathlib.Data.List.Nodup

/-!
# Roots of urls

A project is given by its url, or by a short form of it, with the name of a root. The roots come
from environment variables; one more, `origin`, is where the own project comes from, and is used
for the url of the own project only.

A short form is translated with the root of that name. There is one, unless the name of a variable
has a colon.
-/

namespace Dueca.Projects

open Dueca.Lib Dueca.Policy

/-- The roots, by name. A name is there once. -/
structure RootMap where
  items : List (Text × Text)
  nodup : (items.map Prod.fst).Nodup
  /-- The url of the own project, when it has a remote. -/
  projecturl : Option Text
  prjname : Text

/-- `:///` -/
def rootEnd : Text := [':', '/', '/', '/']

/-- `dgr` -/
def dgr : Text := ['d', 'g', 'r']

/-- `origin` -/
def origin : Text := ['o', 'r', 'i', 'g', 'i', 'n']

/-- `DAPPS_GITROOT` -/
def gitroot : Text := ['D', 'A', 'P', 'P', 'S', '_', 'G', 'I', 'T', 'R', 'O', 'O', 'T']

/-- The name of the root that a variable gives. -/
def rootKey (k : Text) : Option Text :=
  if k = gitroot then some dgr
  else if (gitroot ++ ['_']).isPrefixOf k ∧ k.length > gitroot.length + 1 then
    some (dgr ++ k.drop (gitroot.length + 1))
  else none

/-- A root ends with a slash. -/
def withSlash (v : Text) : Text := if v.getLast? = some '/' then v else v ++ ['/']

/-- What comes before the last slash, with a slash; and what comes after it. -/
def splitLast (url : Text) : Text × Text :=
  let name := (url.reverse.takeWhile (· ≠ '/')).reverse
  ((url.take (url.length - name.length - 1)) ++ ['/'], name)

theorem rootKey_inj {k k' key : Text} (h : rootKey k = some key) (h' : rootKey k' = some key) :
    k = k' := by
  have hdrop : ∀ {k : Text}, (gitroot ++ ['_']).isPrefixOf k = true →
      k = gitroot ++ ['_'] ++ k.drop (gitroot.length + 1) := fun h => by
    obtain ⟨rest, rfl⟩ := List.isPrefixOf_iff_prefix.1 h
    rfl
  have hne : ∀ {k : Text}, k.length > gitroot.length + 1 →
      dgr ++ k.drop (gitroot.length + 1) ≠ dgr := fun hlen heq => by
    have := congrArg List.length heq
    rw [List.length_append, List.length_drop] at this
    omega
  unfold rootKey at h h'
  split at h
  · next hk =>
    rw [hk]
    split at h'
    · next hk' => rw [hk']
    · split at h'
      · next hlong => exact absurd (Option.some.inj (h'.trans h.symm)) (hne hlong.2)
      · cases h'
  · split at h
    · next hlong =>
      split at h'
      · exact absurd (Option.some.inj (h.trans h'.symm)) (hne hlong.2)
      · split at h'
        · next hlong' =>
          have hrest := List.append_cancel_left (Option.some.inj (h.trans h'.symm))
          rw [hdrop hlong.1, hdrop hlong'.1, hrest]
        · cases h'
    · cases h

namespace RootMap

/-- The roots from the environment, which has a name once. -/
def new (environ : List (Text × Text)) (h : (environ.map Prod.fst).Nodup) : RootMap where
  items := environ.filterMap fun e => (rootKey e.1).map fun key => (key, withSlash e.2)
  nodup := by
    have hkeys : (environ.filterMap fun e => (rootKey e.1).map fun key =>
        (key, withSlash e.2)).map Prod.fst = (environ.map Prod.fst).filterMap rootKey := by
      rw [List.map_filterMap, List.filterMap_map]
      refine List.filterMap_congr fun e _ => ?_
      change _ = rootKey e.1
      cases rootKey e.1 <;> rfl
    rw [hkeys]
    exact List.Nodup.filterMap (fun _ _ _ hk hk' => rootKey_inj hk hk') h
  projecturl := none
  prjname := []

/-- The own project comes from a remote. -/
def addProjectRemote (r : RootMap) (url : Text) (h : origin ∉ r.items.map Prod.fst) : RootMap where
  items := r.items ++ [(origin, (splitLast url).1)]
  nodup := by
    rw [List.map_append, List.map_singleton, ← List.concat_eq_append]
    exact r.nodup.concat h
  projecturl := some url
  prjname := (splitLast url).2.take ((splitLast url).2.length - 4)

theorem origin_not_mem_new (environ : List (Text × Text)) (h : (environ.map Prod.fst).Nodup) :
    origin ∉ (new environ h).items.map Prod.fst := by
  intro hmem
  obtain ⟨e, he, heq⟩ := List.mem_map.1 hmem
  obtain ⟨v, -, hv⟩ := List.mem_filterMap.1 he
  obtain ⟨key, hkey, rfl⟩ := Option.map_eq_some_iff.1 hv
  obtain rfl : key = origin := heq
  -- the other names begin with `dgr`
  unfold rootKey at hkey
  split at hkey
  · exact absurd hkey (by decide)
  · split at hkey
    · exact absurd (congrArg List.head? (Option.some.inj hkey)) (by simp [dgr, origin])
    · cases hkey

/-- There is no remote. -/
def setProjectName (r : RootMap) (name : Text) : RootMap := { r with prjname := name }

/-- The roots that `ProjectRepo` makes, for a project in a folder of a given name. -/
def make (environ : List (Text × Text)) (h : (environ.map Prod.fst).Nodup)
    (remote : Option Text) (own : Text) : RootMap :=
  match remote with
  | some url => (new environ h).addProjectRemote url (origin_not_mem_new environ h)
  | none => (new environ h).setProjectName own

def urlToAbsolute (r : RootMap) (url : Text) : Text :=
  match r.items.find? fun e => (e.1 ++ rootEnd).isPrefixOf url with
  | some (u, root) => root ++ url.drop (u.length + 4)
  | none => url

/-- `own` is the name of the own project. The root `dgr` comes last. -/
def urlToRelative (r : RootMap) (own url : Text) : Text :=
  let ulist := r.items.filter (·.1 ≠ dgr) ++ (r.items.find? (·.1 = dgr)).toList
  match ulist.find? fun e => e.2.isPrefixOf url ∧
      (e.1 ≠ origin ∨ (url.take (url.length - 4)).drop e.2.length = own) with
  | some (u, root) => u ++ rootEnd ++ url.drop root.length
  | none => url

/-! ### Translation -/

variable {r : RootMap} {own url u v root : Text}

/-- No name has a colon. -/
def Plain (r : RootMap) : Prop := ∀ e ∈ r.items, ':' ∉ e.1

/-- The url is no short form. -/
def Absolute (r : RootMap) (url : Text) : Prop := ∀ e ∈ r.items, ¬e.1 ++ rootEnd <+: url

theorem urlToAbsolute_of_absolute (h : r.Absolute url) : r.urlToAbsolute url = url := by
  have hfind : r.items.find? (fun e => (e.1 ++ rootEnd).isPrefixOf url) = none :=
    List.find?_eq_none.2 fun e he hpre => h e he (List.isPrefixOf_iff_prefix.1 hpre)
  rw [urlToAbsolute, hfind]

/-- A name ends at the first colon. -/
theorem name_eq (hu : ':' ∉ u) (hv : ':' ∉ v) {rest : Text}
    (h : u ++ rootEnd <+: v ++ rootEnd ++ rest) : u = v := by
  have htake : ∀ {w t : Text}, ':' ∉ w → (w ++ rootEnd ++ t).takeWhile (· ≠ ':') = w := by
    intro w t hw
    rw [List.append_assoc, List.takeWhile_append_of_pos fun c hc => ?_]
    · exact List.append_nil w
    · exact decide_eq_true fun heq => hw (heq ▸ hc)
  obtain ⟨t, ht⟩ := h
  rw [← htake (t := t) hu, ht, htake hv]

/-- A short form is translated with the root of its name. -/
theorem urlToAbsolute_of_mem (hplain : r.Plain) (h : (u, root) ∈ r.items) (rest : Text) :
    r.urlToAbsolute (u ++ rootEnd ++ rest) = root ++ rest := by
  have hdrop : (u ++ rootEnd ++ rest).drop (u.length + 4) = rest := by
    rw [List.append_assoc, List.drop_length_add_append]
    rfl
  have hfind : r.items.find? (fun e => (e.1 ++ rootEnd).isPrefixOf (u ++ rootEnd ++ rest)) =
      some (u, root) := by
    cases hfirst : r.items.find? fun e => (e.1 ++ rootEnd).isPrefixOf (u ++ rootEnd ++ rest) with
    | none =>
      have hnot := List.find?_eq_none.1 hfirst _ h
      exact absurd (List.isPrefixOf_iff_prefix.2 (List.prefix_append _ _)) hnot
    | some e =>
      obtain ⟨v, other⟩ := e
      have hmem := List.mem_of_find?_eq_some hfirst
      have htest := List.find?_some
        (p := fun e : Text × Text => (e.1 ++ rootEnd).isPrefixOf (u ++ rootEnd ++ rest)) hfirst
      have hpre := List.isPrefixOf_iff_prefix.1 htest
      -- the name is the same, and so is the root
      obtain rfl : v = u := name_eq (hplain _ hmem) (hplain _ h) hpre
      rw [List.inj_on_of_nodup_map r.nodup hmem h rfl]
  rw [urlToAbsolute, hfind]
  exact congrArg (root ++ ·) hdrop

/-- A short form has a name of a root, and the url begins with that root. -/
theorem urlToRelative_cases (r : RootMap) (own url : Text) :
    r.urlToRelative own url = url ∨ ∃ u root rest, (u, root) ∈ r.items ∧ url = root ++ rest ∧
      r.urlToRelative own url = u ++ rootEnd ++ rest := by
  cases hfind : (r.items.filter (·.1 ≠ dgr) ++ (r.items.find? (·.1 = dgr)).toList).find? fun e =>
      e.2.isPrefixOf url ∧ (e.1 ≠ origin ∨ (url.take (url.length - 4)).drop e.2.length = own) with
  | none =>
    left
    simp only [urlToRelative, hfind]
  | some e =>
    obtain ⟨u, root⟩ := e
    have hmem : (u, root) ∈ r.items := by
      obtain hmem | hmem := List.mem_append.1 (List.mem_of_find?_eq_some hfind)
      · exact (List.mem_filter.1 hmem).1
      · exact List.mem_of_find?_eq_some (Option.mem_toList.1 hmem)
    have htest := of_decide_eq_true (List.find?_some (p := fun e : Text × Text =>
      decide (e.2.isPrefixOf url ∧
        (e.1 ≠ origin ∨ (url.take (url.length - 4)).drop e.2.length = own))) hfind)
    obtain ⟨rest, rfl⟩ := List.isPrefixOf_iff_prefix.1 htest.1
    refine .inr ⟨u, root, rest, hmem, rfl, ?_⟩
    simp only [urlToRelative, hfind, List.drop_left]

/-- An absolute url comes back from its short form. -/
theorem urlToAbsolute_urlToRelative (hplain : r.Plain) (h : r.Absolute url) (own : Text) :
    r.urlToAbsolute (r.urlToRelative own url) = url := by
  obtain heq | ⟨u, root, rest, hmem, rfl, heq⟩ := r.urlToRelative_cases own url
  · rw [heq, urlToAbsolute_of_absolute h]
  · rw [heq, urlToAbsolute_of_mem hplain hmem]

end RootMap

/-! ### Projects of urls -/

/-- `_decodeprj`: `(.+)/(.+)\.git`, where the first group is as long as it can be. -/
def projectSplit (url : Text) : Option (Text × Text) :=
  plus notNewline (fun repository => lit ['/'] (plus notNewline fun name =>
    lit ['.', 'g', 'i', 't'] fun s => if s = [] then some (repository, name) else none)) url

end Dueca.Projects
