import Dueca.Lib.Unfolding
import Mathlib.Data.Fintype.Option

/-!
# Reading policy files

A policy file has policies, and the names of further policy files. A name is tried as a file, then
as a file in the directory of the file that is being read, and else as a URL. A set of opened files
is passed on, to detect a file that includes itself. Nothing is ever added to this set, and a name
that is in it is read all the same: the set only decides what is printed.
-/

namespace Dueca.Policy

open Dueca.Lib

variable {F P : Type}

/-! ### Names -/

abbrev Name := List Char

/-- `os.path.dirname`: what comes before the last slash, without slashes at the end unless there is
nothing else. -/
def dirname (name : Name) : Name :=
  let head := (name.reverse.dropWhile (· ≠ '/')).reverse
  if head.all (· = '/') then head else (head.reverse.dropWhile (· = '/')).reverse

/-- `os.sep.join` of a path and a name. -/
def join (ppath fname : Name) : Name := ppath ++ '/' :: fname

/-! ### Files -/

/-- The nodes of an XML tree. For a policy that cannot be parsed a `ValueError` is raised. The name
of a policy file is what remains of the text of its node without blanks at the ends. -/
inductive Node (P : Type)
  | comment
  | policy (p : Option P)
  | policyfile (name : Name)
  | unknown
  deriving DecidableEq

/-- What names stand for: those of files, what is opened under a name as file or URL, and the nodes
found there. -/
structure Files (F P : Type) where
  isfile : Name → Bool
  opened : Name → Option F
  nodes : F → List (Node P)

/-- Policies, what has been opened for these, and messages on files that have been opened before,
with the file in which they are named. -/
structure Result (F P : Type) where
  policies : List P
  reads : List F
  messages : List (Name × Name)

variable (w : Files F P)

/-- The loop over the nodes of a file. -/
def readNodes (read : Name → Option (List Name) → Name → Option (Except Unit (Result F P)))
    (fname : Name) (openedFiles : List Name) (ppath : Name) :
    Result F P → List (Node P) → Option (Except Unit (Result F P))
  | out, [] => some (.ok out)
  | out, .comment :: rest => readNodes read fname openedFiles ppath out rest
  | out, .policy (some p) :: rest =>
    readNodes read fname openedFiles ppath { out with policies := out.policies ++ [p] } rest
  | out, .policy none :: _ => some (.ok out)
  | out, .policyfile fname2 :: rest =>
    let messages :=
      if fname2 ∈ openedFiles then out.messages ++ [(fname, fname2)] else out.messages
    let res :=
      if w.isfile fname2 then read fname2 (some openedFiles) []
      else if ppath ≠ [] then read (join ppath fname2) (some openedFiles) []
      else read fname2 none []
    match res with
    | none => none
    | some (.error e) => some (.error e)
    | some (.ok sub) =>
      readNodes read fname openedFiles ppath
        { policies := out.policies ++ sub.policies
          reads := out.reads ++ sub.reads
          messages := messages ++ sub.messages } rest
  | out, .unknown :: _ => some (.ok out)

/-- `_readPolicyFile`, to a depth below `n`; deeper, there is no result. It fails when something
cannot be opened. -/
def readPolicyFile : ℕ → Name → Option (List Name) → Name → Option (Except Unit (Result F P))
  | 0, _, _, _ => none
  | n + 1, fname, openedFiles, ppath =>
    let openedFiles := openedFiles.getD [fname]
    match w.opened fname with
    | none => some (.error ())
    | some f =>
      let ppath := if ppath = [] then dirname fname else ppath
      readNodes w (readPolicyFile n) fname openedFiles ppath ⟨[], [f], []⟩ (w.nodes f)

/-! ### What is reached -/

/-- The file a node names, and the policy it has. -/
def Node.name? : Node P → Option Name
  | policyfile name => some name
  | _ => none

def Node.policy? : Node P → Option P
  | policy p => p
  | _ => none

/-- A node of a policy file. -/
def Node.Proper : Node P → Prop
  | comment | policy (some _) | policyfile _ => True
  | policy none | unknown => False

instance : DecidablePred (Node.Proper (P := P))
  | .comment | .policy (some _) | .policyfile _ => inferInstanceAs (Decidable True)
  | .policy none | .unknown => inferInstanceAs (Decidable False)

/-- The name with which reading starts, and the path for names in it. -/
def start (fname ppath : Name) : Name × Name :=
  (fname, if ppath = [] then dirname fname else ppath)

/-- Where a tag leads, in a file that is read with this path. -/
def resolve (ppath fname2 : Name) : Name × Name :=
  start (if w.isfile fname2 = false ∧ ppath ≠ [] then join ppath fname2 else fname2) []

/-- Where the tags of the file with this name and path lead. -/
def includes (a : Name × Name) : List (Name × Name) :=
  match w.opened a.1 with
  | none => []
  | some f => ((w.nodes f).filterMap Node.name?).map (resolve w a.2)

/-- The file can be reached through tags. -/
def Reachable (a : Name × Name) (f : F) : Prop :=
  ∃ u b, follow (includes w) a u = some b ∧ w.opened b.1 = some f

/-- All that can be reached are policy files. -/
def PolicyFiles (a : Name × Name) : Prop :=
  ∀ u b, follow (includes w) a u = some b → ∃ f, w.opened b.1 = some f ∧ ∀ x ∈ w.nodes f, x.Proper

def policiesOf (f : F) : List P := (w.nodes f).filterMap Node.policy?

/-- Each file is read at most once, and each policy of each file that can be reached is returned
once. -/
structure ReadsOnce (a : Name × Name) (out : Result F P) : Prop where
  once : out.reads.Nodup
  policies : ∀ fs : List F, fs.Nodup → (∀ f, f ∈ fs ↔ Reachable w a f) →
    out.policies.Perm (fs.flatMap (policiesOf w))

instance (a : Name × Name) :
    Decidable (∃ f, w.opened a.1 = some f ∧ ∀ x ∈ w.nodes f, x.Proper) :=
  match h : w.opened a.1 with
  | none => isFalse (by rintro ⟨f, hf, _⟩; cases hf)
  | some f => decidable_of_iff (∀ x ∈ w.nodes f, x.Proper)
      ⟨fun hf => ⟨f, rfl, hf⟩, by rintro ⟨_, ⟨⟩, hf⟩; exact hf⟩

/-! ### The reader is a search -/

/-- The result of a search: what is opened there, with the policies in some order. -/
structure Found (l : List (Name × Name)) (out : Result F P) : Prop where
  reads : out.reads.map some = l.map (w.opened ·.1)
  policies : out.policies.Perm (out.reads.flatMap (policiesOf w))

variable {w} {n : ℕ} {fname ppath : Name} {openedFiles : Option (List Name)} {a b : Name × Name}
  {i : ℕ}

theorem PolicyFiles.next (h : PolicyFiles w a) (hb : b ∈ includes w a) : PolicyFiles w b := by
  obtain ⟨i, hi⟩ := List.mem_iff_getElem?.mp hb
  exact fun u c hu => h (i :: u) c ((follow_cons hi).trans hu)

/-- The reader and the search both come to an end, or neither does. -/
def Agree (w : Files F P) (found : Option (List (Name × Name)))
    (res : Option (Except Unit (Result F P))) : Prop :=
  (found = none ∧ res = none) ∨ ∃ l out, found = some l ∧ res = some (.ok out) ∧ Found w l out

theorem policyFiles_of_visits {l : List (Name × Name)} (hl : visits (includes w) n a = some l)
    (h : ∀ b ∈ l, ∃ f, w.opened b.1 = some f ∧ ∀ x ∈ w.nodes f, x.Proper) : PolicyFiles w a :=
  fun u b hu => h b ((mem_of_visits hl).mpr ⟨u, hu⟩)

/-- The nodes of a file that is being read, after some of them. -/
theorem readNodes_spec (fname : Name) (opened : List Name)
    (hread : ∀ fname openedFiles ppath, PolicyFiles w (start fname ppath) →
      Agree w (visits (includes w) n (start fname ppath))
        (readPolicyFile w n fname openedFiles ppath))
    (nodes : List (Node P)) (hproper : ∀ x ∈ nodes, x.Proper)
    (hfiles : ∀ b ∈ (nodes.filterMap Node.name?).map (resolve w ppath), PolicyFiles w b)
    (out : Result F P) :
    (collect (visits (includes w) n) ((nodes.filterMap Node.name?).map (resolve w ppath)) = none ∧
        readNodes w (readPolicyFile w n) fname opened ppath out nodes = none) ∨
      ∃ l out', collect (visits (includes w) n)
          ((nodes.filterMap Node.name?).map (resolve w ppath)) = some l ∧
        readNodes w (readPolicyFile w n) fname opened ppath out nodes = some (.ok out') ∧
        ∃ reads, out'.reads = out.reads ++ reads ∧ reads.map some = l.map (w.opened ·.1) ∧
          out'.policies.Perm (out.policies ++ (nodes.filterMap Node.policy? ++
            reads.flatMap (policiesOf w))) := by
  induction nodes generalizing out with
  | nil =>
    refine .inr ⟨[], out, rfl, rfl, [], (List.append_nil _).symm, rfl, ?_⟩
    rw [List.filterMap_nil, List.flatMap_nil, List.append_nil, List.append_nil]
  | cons x nodes ih =>
    have hrest := fun x hx => hproper x (List.mem_cons_of_mem _ hx)
    cases x with
    | comment => exact ih hrest hfiles out
    | policy p =>
      cases p with
      | none => exact (hproper _ List.mem_cons_self).elim
      | some p =>
        rcases ih hrest hfiles { out with policies := out.policies ++ [p] } with h | h
        · exact .inl h
        · obtain ⟨l, out', hl, hout, reads, hreads, hopened, hperm⟩ := h
          refine .inr ⟨l, out', hl, hout, reads, hreads, hopened, hperm.trans ?_⟩
          rw [List.append_assoc]
          rfl
    | unknown => exact (hproper _ List.mem_cons_self).elim
    | policyfile fname2 =>
      -- in each of the three ways to resolve the name, the same is read
      obtain ⟨openedFiles, hres⟩ : ∃ openedFiles,
          (if w.isfile fname2 then readPolicyFile w n fname2 (some opened) []
            else if ppath ≠ [] then readPolicyFile w n (join ppath fname2) (some opened) []
            else readPolicyFile w n fname2 none []) =
          readPolicyFile w n (resolve w ppath fname2).1 openedFiles [] := by
        rw [resolve, start]
        cases hfile : w.isfile fname2 with
        | true => exact ⟨_, rfl⟩
        | false =>
          by_cases hpath : ppath = []
          · subst hpath
            exact ⟨_, rfl⟩
          · refine ⟨some opened, ?_⟩
            rw [if_neg Bool.false_ne_true, if_pos hpath, if_pos ⟨rfl, hpath⟩]
      have hthis := hread (resolve w ppath fname2).1 openedFiles [] (hfiles _ List.mem_cons_self)
      rw [show start (resolve w ppath fname2).1 [] = resolve w ppath fname2 from rfl] at hthis
      have hrestfiles := fun b hb => hfiles b (List.mem_cons_of_mem _ hb)
      rw [List.filterMap_cons_some (f := Node.name?) rfl, List.map_cons]
      rw [readNodes, hres]
      rcases hthis with ⟨hnone, hread⟩ | ⟨l, sub, hl, hread, hfound⟩
      · rw [hread]
        refine .inl ⟨?_, rfl⟩
        rw [collect, hnone]
      · rw [hread]
        rcases ih hrest hrestfiles
            { policies := out.policies ++ sub.policies
              reads := out.reads ++ sub.reads
              messages := (if fname2 ∈ opened then out.messages ++ [(fname, fname2)]
                else out.messages) ++ sub.messages } with ⟨hnone, hnodes⟩ | h
        · refine .inl ⟨?_, hnodes⟩
          rw [collect, hl, hnone]
        · obtain ⟨l', out', hl', hout, reads, hreads, hopened, hperm⟩ := h
          refine .inr ⟨l ++ l', out', collect_cons_eq_some.mpr ⟨l, l', hl, hl', rfl⟩, hout,
            sub.reads ++ reads, ?_, ?_, hperm.trans ?_⟩
          · rw [hreads, List.append_assoc]
          · rw [List.map_append, List.map_append, hfound.reads, hopened]
          · rw [List.append_assoc, List.flatMap_append]
            refine List.Perm.append_left _ ?_
            have hsub := hfound.policies.append_right
              (nodes.filterMap Node.policy? ++ reads.flatMap (policiesOf w))
            refine hsub.trans ?_
            rw [← List.append_assoc, ← List.append_assoc]
            exact List.perm_append_comm.append_right _

/-- The reader is a search that remembers nothing, whatever files are said to be open. -/
theorem readPolicyFile_spec (n : ℕ) (fname : Name) (openedFiles : Option (List Name))
    (ppath : Name) (hfiles : PolicyFiles w (start fname ppath)) :
    Agree w (visits (includes w) n (start fname ppath))
      (readPolicyFile w n fname openedFiles ppath) := by
  induction n generalizing fname openedFiles ppath with
  | zero => exact .inl ⟨rfl, rfl⟩
  | succ n ih =>
    obtain ⟨f, hf, hproper⟩ := hfiles [] _ rfl
    have hincludes : includes w (start fname ppath) =
        ((w.nodes f).filterMap Node.name?).map (resolve w (start fname ppath).2) := by
      rw [includes, hf]
    have hbranches := fun b hb => hfiles.next (b := b) (hincludes.symm ▸ hb)
    rw [readPolicyFile, visits, hincludes, show w.opened fname = some f from hf]
    rcases readNodes_spec fname (openedFiles.getD [fname]) ih (w.nodes f)
        hproper hbranches ⟨[], [f], []⟩ with ⟨hnone, hnodes⟩ | h
    · rw [hnone]
      exact .inl ⟨rfl, hnodes⟩
    · obtain ⟨l, out, hl, hout, reads, hreads, hopened, hperm⟩ := h
      rw [hl]
      refine .inr ⟨_, out, rfl, hout, ?_, ?_⟩
      · rw [hreads, List.map_append, hopened]
        exact congrArg (· :: l.map (w.opened ·.1)) hf.symm
      · rw [hreads]
        exact hperm

/-! ### Files that are read once -/

theorem Found.mem_reads {l : List (Name × Name)} {out : Result F P} (h : Found w l out)
    (hl : visits (includes w) n a = some l) {f : F} : f ∈ out.reads ↔ Reachable w a f := by
  have hsome : f ∈ out.reads ↔ some f ∈ l.map (w.opened ·.1) := by
    rw [← h.reads, List.mem_map]
    exact ⟨fun hf => ⟨f, hf, rfl⟩, fun ⟨_, hg, heq⟩ => Option.some.inj heq ▸ hg⟩
  rw [hsome, List.mem_map]
  constructor
  · rintro ⟨b, hb, hf⟩
    obtain ⟨u, hu⟩ := (mem_of_visits hl).mp hb
    exact ⟨u, b, hu, hf⟩
  · rintro ⟨u, b, hu, hf⟩
    exact ⟨b, (mem_of_visits hl).mpr ⟨u, hu⟩, hf⟩

/-- What has been read once gives each policy once. -/
theorem Found.readsOnce {l : List (Name × Name)} {out : Result F P} (h : Found w l out)
    (hl : visits (includes w) n a = some l) (hnodup : out.reads.Nodup) : ReadsOnce w a out where
  once := hnodup
  policies fs hfs hmem := by
    have hperm : out.reads.Perm fs :=
      (List.perm_ext_iff_of_nodup hnodup hfs).mpr fun f => (h.mem_reads hl).trans (hmem f).symm
    exact h.policies.trans (hperm.flatMap_right _)

theorem Found.nodup_iff {l : List (Name × Name)} {out : Result F P} (h : Found w l out) :
    (l.map (w.opened ·.1)).Nodup ↔ out.reads.Nodup := by
  rw [← h.reads]
  exact List.nodup_map_iff (Option.some_injective F)

/-- Where reading ends with each file read once, no file is included in two ways. -/
theorem unshared_of_readsOnce (hfiles : PolicyFiles w (start fname ppath)) {out : Result F P}
    (hout : readPolicyFile w n fname openedFiles ppath = some (.ok out))
    (h : out.reads.Nodup) : Unshared (includes w) (w.opened ·.1) (start fname ppath) := by
  rcases readPolicyFile_spec n fname openedFiles ppath hfiles with ⟨_, hnone⟩ | hsome
  · rw [hnone] at hout
    cases hout
  · obtain ⟨l, out', hl, hout', hfound⟩ := hsome
    rw [hout] at hout'
    cases hout'
    exact unshared_of_nodup hl (hfound.nodup_iff.mpr h)

/-- Among finitely many policy files, reading ends with each file read at most once and each policy
returned once, if and only if no two ways through tags lead from the first file to the same one. -/
theorem readsOnce_iff_unshared [Fintype F] (w : Files F P) (fname : Name)
    (openedFiles : Option (List Name)) (ppath : Name)
    (hfiles : PolicyFiles w (start fname ppath)) :
    (∃ n out, readPolicyFile w n fname openedFiles ppath = some (.ok out) ∧
        ReadsOnce w (start fname ppath) out) ↔
      Unshared (includes w) (w.opened ·.1) (start fname ppath) := by
  constructor
  · rintro ⟨n, out, hout, honce⟩
    exact unshared_of_readsOnce hfiles hout honce.once
  · intro h
    obtain ⟨n, l, hl, hnodup⟩ := visits_nodup_iff.mpr h
    rcases readPolicyFile_spec n fname openedFiles ppath hfiles with ⟨hnone, _⟩ | hsome
    · rw [hnone] at hl
      cases hl
    · obtain ⟨l', out, hl', hout, hfound⟩ := hsome
      exact ⟨n, out, hout, hfound.readsOnce hl'
        (hfound.nodup_iff.mp (Option.some.inj (hl.symm.trans hl') ▸ hnodup))⟩

/-- A file that names another one in its directory. -/
def twoFiles : Files Bool ℕ where
  isfile name := name = "/p/a.xml".toList || name = "/p/b.xml".toList
  opened name :=
    if name = "/p/a.xml".toList then some false
    else if name = "/p/b.xml".toList then some true
    else none
  nodes
    | false => [.policy (some 1), .policyfile "b.xml".toList, .policy (some 2)]
    | true => [.comment, .policy (some 3)]

theorem readsOnce_twoFiles :
    ∃ n out, readPolicyFile twoFiles n "/p/a.xml".toList none [] = some (.ok out) ∧
      ReadsOnce twoFiles (start "/p/a.xml".toList []) out := by
  have hvisits : visits (includes twoFiles) 3 (start "/p/a.xml".toList []) =
      some [("/p/a.xml".toList, "/p".toList), ("/p/b.xml".toList, "/p".toList)] := by decide +kernel
  exact (readsOnce_iff_unshared twoFiles _ _ _
    (policyFiles_of_visits hvisits (by decide +kernel))).mpr
      (unshared_of_nodup hvisits (by decide +kernel))

/-- A file that includes itself. -/
def ownFile : Files Unit ℕ where
  isfile name := name = "/a.xml".toList
  opened name := if name = "/a.xml".toList then some () else none
  nodes _ := [.policy (some 1), .policyfile "/a.xml".toList]

/-- For a file that includes itself, reading does not end. -/
theorem not_readsOnce_ownFile :
    ¬ ∀ (w : Files Unit ℕ) (fname : Name) (openedFiles : Option (List Name)) (ppath : Name),
      PolicyFiles w (start fname ppath) →
        ∃ n out, readPolicyFile w n fname openedFiles ppath = some (.ok out) ∧
          ReadsOnce w (start fname ppath) out := by
  intro h
  have hnext : includes ownFile (start "/a.xml".toList []) = [start "/a.xml".toList []] := by
    decide +kernel
  have hstay : ∀ u b, follow (includes ownFile) (start "/a.xml".toList []) u = some b →
      b = start "/a.xml".toList [] := by
    intro u
    induction u with
    | nil => exact fun b hb => (Option.some.inj hb).symm
    | cons i u ih =>
      intro b hb
      obtain ⟨c, hc, hb⟩ := exists_of_follow_cons hb
      have hmem := List.mem_of_getElem? hc
      rw [hnext, List.mem_singleton] at hmem
      exact ih b (hmem ▸ hb)
  have hfiles : PolicyFiles ownFile (start "/a.xml".toList []) := by
    intro u b hb
    rw [hstay u b hb]
    decide +kernel
  obtain ⟨n, out, hout, honce⟩ := h ownFile _ none _ hfiles
  have hunshared := unshared_of_readsOnce hfiles hout honce.once
  cases hunshared [] [0] _ _ rfl ((follow_cons (by rw [hnext]; rfl)).trans rfl) rfl

end Dueca.Policy
