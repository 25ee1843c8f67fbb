import Dueca.Projects.Modules

/-!
# The file stays in step with the list

What is in memory is read again from the tree, as long as projects are added under the name of
their url, with texts that are read as they are written, and nothing is deleted. A module that is
deleted stays in the tree. The own project cannot be added, and leaves an element without a url.
-/

namespace Dueca.Projects

open Dueca.Lib Dueca.Policy

variable {root : RootMap} {i k : ℕ} {nodes nodes' : XmlTree} {acc ps ps' : List (Text × Project)}
  {attrs : Attributes} {children : List Leaf} {name : Text}

/-! ### What is read -/

/-- The projects of a tree, from a place on. -/
def Reads (root : RootMap) : ℕ → XmlTree → List (Text × Project) → Prop
  | _, [], ps => ps = []
  | i, .comment :: nodes, ps => Reads root (i + 1) nodes ps
  | i, .element tag attrs children :: nodes, ps =>
    tag = "project" ∧ ∃ p rest, Project.ofNode root i attrs children = .ok p ∧
      ps = (p.name, p) :: rest ∧ Reads root (i + 1) nodes rest

theorem xmlnode_of_ofNode {p : Project} (h : Project.ofNode root i attrs children = .ok p) :
    p.xmlnode = i := by
  unfold Project.ofNode at h
  split at h
  · unfold Project.finish at h
    split at h
    · cases h
    · split at h
      · cases h
        rfl
      · split at h
        · cases h
          rfl
        · cases h
  · cases h

/-- Reading, by elements. Names are there once. -/
theorem readNodes_eq_ok_iff (hacc : (acc.map Prod.fst).Nodup) :
    readNodes root i nodes acc = .ok ps ↔
      ∃ rest, Reads root i nodes rest ∧ ps = acc ++ rest ∧ (ps.map Prod.fst).Nodup := by
  induction nodes generalizing i acc with
  | nil =>
    constructor
    · intro h
      obtain rfl := Except.ok.inj h
      exact ⟨[], rfl, (List.append_nil _).symm, hacc⟩
    · rintro ⟨rest, rfl, rfl, -⟩
      exact congrArg Except.ok (List.append_nil acc).symm
  | cons node nodes ih =>
    cases node with
    | comment => exact ih hacc
    | element tag attrs children =>
      rw [readNodes]
      by_cases htag : tag = "project"
      · rw [if_pos htag]
        cases hp : Project.ofNode root i attrs children with
        | error e =>
          constructor
          · exact fun h => by cases h
          · rintro ⟨rest, ⟨-, p, _, hp', -⟩, -⟩
            cases hp.symm.trans hp'
        | ok p =>
          dsimp only
          by_cases hmem : p.name ∈ acc.map Prod.fst
          · rw [if_pos hmem]
            constructor
            · exact fun h => by cases h
            · rintro ⟨rest, ⟨-, p', rest', hp', rfl, -⟩, rfl, hnodup⟩
              obtain rfl := Except.ok.inj (hp.symm.trans hp')
              rw [List.map_append] at hnodup
              exact absurd List.mem_cons_self
                (List.disjoint_of_nodup_append hnodup hmem)
          · rw [if_neg hmem]
            have hacc' : ((acc ++ [(p.name, p)]).map Prod.fst).Nodup := by
              rw [List.map_append, List.map_singleton, ← List.concat_eq_append]
              exact hacc.concat hmem
            rw [ih hacc']
            constructor
            · rintro ⟨rest, hrest, rfl, hnodup⟩
              refine ⟨(p.name, p) :: rest, ⟨htag, p, rest, hp, rfl, hrest⟩, ?_, hnodup⟩
              rw [List.append_assoc, List.singleton_append]
            · rintro ⟨rest, ⟨-, p', rest', hp', rfl, hrest⟩, rfl, hnodup⟩
              obtain rfl := Except.ok.inj (hp.symm.trans hp')
              exact ⟨rest', hrest, by rw [List.append_assoc, List.singleton_append], hnodup⟩
      · rw [if_neg htag]
        exact ⟨fun h => (by cases h), fun h => absurd h.choose_spec.1.1 htag⟩

theorem nodup_empty : (([] : List (Text × Project)).map Prod.fst).Nodup := List.nodup_nil

theorem Reads.append (h : Reads root i nodes ps) (h' : Reads root (i + nodes.length) nodes' ps') :
    Reads root i (nodes ++ nodes') (ps ++ ps') := by
  induction nodes generalizing i ps with
  | nil =>
    obtain rfl := h
    exact h'
  | cons node nodes ih =>
    have hlength : i + (node :: nodes).length = i + 1 + nodes.length := by
      rw [List.length_cons]
      omega
    rw [hlength] at h'
    cases node with
    | comment => exact ih h h'
    | element tag attrs children =>
      obtain ⟨htag, p, rest, hp, rfl, hrest⟩ := h
      exact ⟨htag, p, rest ++ ps', hp, rfl, ih hrest h'⟩

theorem Reads.le (h : Reads root i nodes ps) : ∀ e ∈ ps, i ≤ e.2.xmlnode := by
  induction nodes generalizing i ps with
  | nil =>
    obtain rfl := h
    exact fun e he => absurd he List.not_mem_nil
  | cons node nodes ih =>
    cases node with
    | comment => exact fun e he => (Nat.le_succ i).trans (ih h e he)
    | element tag attrs children =>
      obtain ⟨-, p, rest, hp, rfl, hrest⟩ := h
      intro e he
      obtain rfl | he := List.mem_cons.1 he
      · exact (xmlnode_of_ofNode hp).ge
      · exact (Nat.le_succ i).trans (ih hrest e he)

/-- Projects have different places. -/
theorem Reads.pairwise (h : Reads root i nodes ps) :
    ps.Pairwise fun e f => e.2.xmlnode < f.2.xmlnode := by
  induction nodes generalizing i ps with
  | nil =>
    obtain rfl := h
    exact .nil
  | cons node nodes ih =>
    cases node with
    | comment => exact ih h
    | element tag attrs children =>
      obtain ⟨-, p, rest, hp, rfl, hrest⟩ := h
      refine List.pairwise_cons.2 ⟨fun e he => ?_, ih hrest⟩
      rw [xmlnode_of_ofNode hp]
      exact hrest.le e he

/-! ### A new module -/

theorem readLeaves_append {d : Draft} {leaves leaves' : List Leaf} :
    Project.readLeaves root d (leaves ++ leaves') =
      match Project.readLeaves root d leaves with
      | .ok d' => Project.readLeaves root d' leaves'
      | .error e => .error e := by
  induction leaves generalizing d with
  | nil => rfl
  | cons leaf leaves ih =>
    rw [List.cons_append, Project.readLeaves, Project.readLeaves]
    cases Project.readLeaf root d leaf with
    | ok d' => exact ih
    | error e => rfl

/-- The project with a module more. -/
def Project.push (module : Module) (p : Project) : Project :=
  { p with modules := p.modules ++ [module] }

theorem finish_push {nm : Option Text} {d : Draft} {p : Project} {module : Module}
    (h : Project.finish nm i d = .ok p) :
    Project.finish nm i { d with modules := d.modules ++ [module] } = .ok (p.push module) := by
  obtain ⟨_ | url, version, modules⟩ := d
  · cases h
  · cases nm with
    | some name =>
      cases h
      rfl
    | none =>
      cases hsplit : projectSplit url with
      | none =>
        simp only [Project.finish, hsplit] at h
        cases h
      | some r =>
        simp only [Project.finish, hsplit] at h ⊢
        cases h
        rfl

theorem ofNode_append {p : Project} {text : Option Text} {attrs' : Attributes}
    (h : Project.ofNode root i attrs children = .ok p) :
    Project.ofNode root i attrs (children ++ [.element "module" attrs' text]) =
      .ok (p.push (Module.ofNode attrs' text)) := by
  unfold Project.ofNode at h ⊢
  rw [readLeaves_append]
  cases hd : Project.readLeaves root ⟨Project.mainUrl root attrs, none, []⟩ children with
  | error e =>
    rw [hd] at h
    cases h
  | ok d =>
    rw [hd] at h
    exact finish_push h

/-- A module is added to the element at a place. -/
theorem Reads.modify (h : Reads root i nodes ps) (attrs' : Attributes) (text : Option Text)
    (k : ℕ) :
    Reads root i (nodes.modify k (.append (.element "module" attrs' text)))
      (ps.map fun e => if e.2.xmlnode = i + k then (e.1, e.2.push (Module.ofNode attrs' text))
        else e) := by
  induction nodes generalizing i k ps with
  | nil =>
    obtain rfl := h
    rw [List.modify_nil]
    rfl
  | cons node nodes ih =>
    -- the other elements, when this one is changed
    have hrest : ∀ {rest : List (Text × Project)}, Reads root (i + 1) nodes rest →
        rest.map (fun e => if e.2.xmlnode = i + 0 then (e.1, e.2.push (Module.ofNode attrs' text))
          else e) = rest := fun hrest => by
      refine (List.map_congr_left fun e he => if_neg ?_).trans (List.map_id' _)
      have := hrest.le e he
      omega
    cases node with
    | comment =>
      cases k with
      | zero =>
        rw [hrest h]
        exact h
      | succ k =>
        rw [List.modify_succ_cons, ← Nat.succ_add_eq_add_succ]
        exact ih h k
    | element tag attrs children =>
      obtain ⟨htag, p, rest, hp, rfl, hreads⟩ := h
      have hplace := xmlnode_of_ofNode hp
      cases k with
      | zero =>
        have hhere : p.xmlnode = i + 0 := hplace
        rw [List.map_cons, hrest hreads, if_pos hhere]
        exact ⟨htag, _, rest, ofNode_append hp, rfl, hreads⟩
      | succ k =>
        have hne : p.xmlnode ≠ i + (k + 1) := by omega
        rw [List.modify_succ_cons, List.map_cons, if_neg hne, ← Nat.succ_add_eq_add_succ]
        exact ⟨htag, p, _, hp, rfl, ih hreads k⟩

/-! ### Written and read -/

theorem rewritten_rewritten (n : Node) : n.rewritten.rewritten = n.rewritten := by
  have hleaf : ∀ leaf : Leaf, leaf.rewritten.rewritten = leaf.rewritten := by
    rintro (_ | ⟨tag, attrs, _ | text⟩)
    · rfl
    · rfl
    · by_cases h : text = [] <;> simp [Leaf.rewritten, h]
  cases n with
  | comment => rfl
  | element tag attrs children =>
    rw [Node.rewritten, Node.rewritten, List.map_map]
    exact congrArg _ (List.map_congr_left fun leaf _ => hleaf leaf)

theorem map_rewritten_modify (tree : XmlTree) (k : ℕ) (leaf : Leaf) :
    (tree.modify k (.append leaf)).map Node.rewritten =
      (tree.map Node.rewritten).modify k (.append leaf.rewritten) := by
  induction tree generalizing k with
  | nil => rw [List.map_nil, List.modify_nil, List.modify_nil, List.map_nil]
  | cons node tree ih =>
    cases k with
    | zero =>
      cases node with
      | comment => rfl
      | element tag attrs children =>
        simp only [List.modify_zero_cons, List.map_cons, Node.append, Node.rewritten,
          List.map_append, List.map_nil]
    | succ k => rw [List.modify_succ_cons, List.map_cons, List.map_cons, List.modify_succ_cons, ih]

theorem ofNode_newNode (pseudo inactive : Bool) (text : Option Text) :
    Module.ofNode ((if pseudo then [("pseudo", "true")] else []) ++
      if inactive then [("inactive", "true")] else []) text =
        ⟨text, some inactive, some pseudo⟩ := by
  have htrue : XMLInterpretBool "true" = some true := by decide +kernel
  have hfalse : XMLInterpretBool "false" = some false := by decide +kernel
  cases pseudo <;> cases inactive <;> simp [Module.ofNode, List.lookup_cons, htrue, hfalse]

namespace Modules

variable {m : Modules} {project module url : Text} {p : Project}

/-- What is in memory is read again from what is written. -/
def InStep (m : Modules) : Prop :=
  ∃ again, read m.root m.ownproject m.xmltree = .ok again ∧ again.projects = m.projects

/-- What holds between the calls. -/
structure Inv (root : RootMap) (own : Text) (m : Modules) : Prop where
  root_eq : m.root = root
  own_eq : m.ownproject = own
  reads : Reads root 0 (m.xmltree.map Node.rewritten) m.projects
  nodup : (m.projects.map Prod.fst).Nodup

variable {own : Text}

theorem Inv.inStep (h : Inv root own m) : InStep m := by
  refine ⟨⟨m.root, m.ownproject, m.xmltree.map Node.rewritten, m.projects⟩, ?_, rfl⟩
  have hread := (readNodes_eq_ok_iff nodup_empty).2
    ⟨m.projects, h.root_eq ▸ h.reads, rfl, h.nodup⟩
  rw [read, hread]
  rfl

theorem inv_of_read {file : XmlTree} (h : read root own file = .ok m) : Inv root own m := by
  unfold read at h
  cases hread : readNodes root 0 (file.map Node.rewritten) [] with
  | error e =>
    rw [hread] at h
    cases h
  | ok projects =>
    rw [hread] at h
    cases h
    obtain ⟨_, hreads, rfl, hnodup⟩ := (readNodes_eq_ok_iff nodup_empty).1 hread
    have hagain : (file.map Node.rewritten).map Node.rewritten = file.map Node.rewritten := by
      rw [List.map_map]
      exact List.map_congr_left fun n _ => rewritten_rewritten n
    refine ⟨rfl, rfl, ?_, hnodup⟩
    dsimp only
    rwa [hagain]

theorem map_fst_changeProject (m : Modules) (project : Text) (f : Project → Project) :
    (m.changeProject project f).map Prod.fst = m.projects.map Prod.fst := by
  rw [changeProject, List.map_map]
  refine List.map_congr_left fun e _ => ?_
  dsimp only [Function.comp]
  split <;> rfl

/-- A project is known by its name, and by its place. -/
theorem Inv.place_iff (h : Inv root own m) (hp : (project, p) ∈ m.projects) :
    ∀ e ∈ m.projects, e.1 = project ↔ e.2.xmlnode = 0 + p.xmlnode := by
  intro e he
  rw [Nat.zero_add]
  have hplaces : (m.projects.map fun e => e.2.xmlnode).Nodup :=
    List.pairwise_map.2 (h.reads.pairwise.imp Nat.ne_of_lt)
  constructor
  · intro heq
    rw [List.inj_on_of_nodup_map h.nodup he hp heq]
  · intro heq
    rw [List.inj_on_of_nodup_map hplaces he hp heq]

/-- A new module with a text that can be read is added to the tree and in memory. -/
theorem Inv.createModule (h : Inv root own m) (hp : (project, p) ∈ m.projects)
    (hne : module ≠ []) (hxml : module.all isXmlChar = true) (url : Option Text)
    (pseudo inactive : Bool) :
    Inv root own (m.createModule project p module url pseudo inactive).1 := by
  unfold Modules.createModule
  by_cases hurl : (url.any fun u => u ≠ [] ∧
      m.root.urlToAbsolute p.url ≠ m.root.urlToAbsolute u) = true
  · rw [if_pos hurl]
    exact h
  · rw [if_neg hurl, if_pos hxml]
    have hkeys := map_fst_changeProject m project (Project.push ⟨some module, some inactive,
      some pseudo⟩)
    refine ⟨h.root_eq, h.own_eq, ?_, (congrArg List.Nodup hkeys).mpr h.nodup⟩
    have hnew : (Module.newNode module pseudo inactive).rewritten =
        Module.newNode module pseudo inactive := by
      simp [Module.newNode, Leaf.rewritten, hne]
    have hreads := h.reads.modify ((if pseudo then [("pseudo", "true")] else []) ++
      if inactive then [("inactive", "true")] else []) (some module) p.xmlnode
    rw [ofNode_newNode] at hreads
    dsimp only
    rw [map_rewritten_modify, hnew]
    have hprojects :
        m.changeProject project (Project.push ⟨some module, some inactive, some pseudo⟩) =
          m.projects.map fun e => if e.2.xmlnode = 0 + p.xmlnode then
            (e.1, e.2.push ⟨some module, some inactive, some pseudo⟩) else e :=
      List.map_congr_left fun e he => by simp only [h.place_iff hp e he]
    exact hprojects ▸ hreads

/-- The element of a new project is read as the project. -/
theorem ofNode_new {rel : Text} {version : Option Text} {repository : Text}
    (hrel : strip rel = rel) (habs : root.urlToAbsolute rel = url)
    (hsplit : projectSplit url = some (repository, name))
    (hversion : ∀ v, version = some v → v ≠ [] ∧ strip v = v) (i : ℕ) :
    Project.ofNode root i [] (.element "url" [] (some rel) :: versionNode version) =
      .ok ⟨name, url, version, [], i⟩ := by
  have hurl : Project.readLeaf root ⟨none, none, []⟩ (.element "url" [] (some rel)) =
      .ok ⟨some url, none, []⟩ := by
    rw [Project.readLeaf, if_pos rfl, hrel, habs]
  have hleaves : Project.readLeaves root ⟨none, none, []⟩
      (.element "url" [] (some rel) :: versionNode version) = .ok ⟨some url, version, []⟩ := by
    rw [Project.readLeaves, hurl]
    cases version with
    | none => rfl
    | some v =>
      obtain ⟨hne, hv⟩ := hversion v rfl
      have hnode : versionNode (some v) = [.element "version" [] (some v)] := if_neg hne
      have hread : Project.readLeaf root ⟨some url, none, []⟩ (.element "version" [] (some v)) =
          .ok ⟨some url, some v, []⟩ := by
        rw [Project.readLeaf, if_neg (by decide), if_pos rfl, hv]
      rw [hnode]
      dsimp only
      rw [Project.readLeaves, hread]
      rfl
  have hmain : Project.mainUrl root [] = none := rfl
  have hname : Project.mainName root [] = none := if_neg fun h => absurd h.1 Bool.false_ne_true
  rw [Project.ofNode, hmain, hleaves, hname]
  simp only [Project.finish, hsplit]

/-! ### Calls -/

/-- The url of a new project has the name under which the project is added, which is not that of
the own project; and it and the version are texts that are read as they are written. -/
def CarefulProject (m : Modules) (project : Text) (version : Option Text) (url : Text) : Prop :=
  ∀ repository name, projectSplit (m.root.urlToAbsolute url) = some (repository, name) →
    name ≠ m.root.prjname ∧ project = name ∧ m.root.Absolute (m.root.urlToAbsolute url) ∧
      (m.root.urlToRelative m.ownproject (m.root.urlToAbsolute url)).all isXmlChar = true ∧
      strip (m.root.urlToRelative m.ownproject (m.root.urlToAbsolute url)) =
        m.root.urlToRelative m.ownproject (m.root.urlToAbsolute url) ∧
      ∀ v, version = some v → v ≠ [] ∧ v.all isXmlChar = true ∧ strip v = v

/-- A module is added with a text that is read as it is written, a project as above; a module that
is there is not deleted. -/
def Careful (m : Modules) : Call → Prop
  | .addModule project module version url _ _ =>
    (∀ t, module = some t → t ≠ [] ∧ t.all isXmlChar = true) ∧
      (m.projects.lookup project = none → m.CarefulProject project version (url.getD []))
  | .deleteModule project module =>
    ∀ p, m.projects.lookup project = some p → Project.hasModule p.modules module ≠ .ok true

/-- A short form of the url of a project is not empty. -/
theorem urlToRelative_ne_nil {repository : Text}
    (hsplit : projectSplit url = some (repository, name)) (r : RootMap) (own : Text) :
    r.urlToRelative own url ≠ [] := by
  obtain heq | ⟨u, _, _, -, -, heq⟩ := r.urlToRelative_cases own url
  · rw [heq]
    rintro rfl
    cases hsplit
  · rw [heq]
    exact List.append_ne_nil_of_left_ne_nil
      (List.append_ne_nil_of_right_ne_nil u (List.cons_ne_nil _ _)) _

/-- A new project is added to the tree and in memory. -/
theorem Inv.createProject {version : Option Text} (h : Inv root own m) (hplain : root.Plain)
    (hlookup : m.projects.lookup project = none)
    (hcareful : m.CarefulProject project version url) :
    Inv root own (m.createProject project version url).1 ∧
      ∀ p, (m.createProject project version url).2 = .ok p →
        (project, p) ∈ (m.createProject project version url).1.projects := by
  cases hsplit : projectSplit (m.root.urlToAbsolute url) with
  | none =>
    have hcreate : m.createProject project version url = (m, .error .splitUrl) := by
      simp only [Modules.createProject, hsplit]
    rw [hcreate]
    exact ⟨h, fun p hp => (nomatch hp)⟩
  | some r =>
    obtain ⟨repository, name⟩ := r
    obtain ⟨hown, rfl, habsolute, hrel, hstrip, hversion⟩ := hcareful repository name hsplit
    have hversion' : (version.getD []).all isXmlChar = true := by
      cases version with
      | none => rfl
      | some v => exact (hversion v rfl).2.1
    have hne := urlToRelative_ne_nil hsplit m.root m.ownproject
    have hback := RootMap.urlToAbsolute_urlToRelative (h.root_eq ▸ hplain) habsolute m.ownproject
    have hcreate : m.createProject project version url =
        (⟨m.root, m.ownproject, m.xmltree ++ [.element "project" [] (.element "url" []
            (some (m.root.urlToRelative m.ownproject (m.root.urlToAbsolute url))) ::
              versionNode version)],
          m.projects ++ [(project, ⟨project, m.root.urlToAbsolute url, version, [],
            m.xmltree.length⟩)]⟩,
          .ok ⟨project, m.root.urlToAbsolute url, version, [], m.xmltree.length⟩) := by
      simp only [Modules.createProject, hsplit, if_neg hown, if_neg (not_not.2 hrel),
        if_neg (not_not.2 hversion')]
    rw [hcreate]
    refine ⟨⟨h.root_eq, h.own_eq, ?_, ?_⟩, fun p hp => ?_⟩
    · have hnode := ofNode_new hstrip hback hsplit
        (fun v hv => ⟨(hversion v hv).1, (hversion v hv).2.2⟩) m.xmltree.length
      have hleaves : (Leaf.element "url" []
          (some (m.root.urlToRelative m.ownproject (m.root.urlToAbsolute url))) ::
            versionNode version).map Leaf.rewritten = Leaf.element "url" []
          (some (m.root.urlToRelative m.ownproject (m.root.urlToAbsolute url))) ::
            versionNode version := by
        cases version with
        | none => simp [Leaf.rewritten, versionNode, hne]
        | some v => simp [Leaf.rewritten, versionNode, hne, (hversion v rfl).1]
      dsimp only
      rw [List.map_append, List.map_singleton, Node.rewritten, hleaves]
      refine h.reads.append ⟨rfl, ⟨project, m.root.urlToAbsolute url, version, [],
        m.xmltree.length⟩, [], ?_, rfl, rfl⟩
      rw [Nat.zero_add, List.length_map, ← h.root_eq]
      exact hnode
    · dsimp only
      rw [List.map_append, List.map_singleton, ← List.concat_eq_append]
      refine h.nodup.concat fun hmem => ?_
      obtain ⟨e, he, heq⟩ := List.mem_map.1 hmem
      have hbne := List.lookup_eq_none_iff.1 hlookup e he
      rw [heq, bne_self_eq_false] at hbne
      cases hbne
    · rw [← Except.ok.inj hp]
      exact List.mem_append_right _ (List.mem_singleton_self _)

theorem mem_of_lookup {es : List (Text × Project)} (h : es.lookup project = some p) :
    (project, p) ∈ es := by
  obtain ⟨before, after, rfl, -⟩ := List.lookup_eq_some_iff.1 h
  exact List.mem_append_right _ List.mem_cons_self

/-- What holds before a call holds after it, also when it raises an exception. -/
theorem Inv.step {call : Call} (h : Inv root own m) (hplain : root.Plain)
    (hcareful : m.Careful call) : ∃ t, m.step call = .ok t ∧ Inv root own t := by
  cases call with
  | addModule project module version url pseudo inactive =>
    obtain ⟨hmodule, hproject⟩ := hcareful
    refine ⟨_, rfl, ?_⟩
    cases hlookup : m.projects.lookup project with
    | some p =>
      cases module with
      | none =>
        simp only [Modules.addModule, hlookup]
        exact h
      | some t =>
        obtain ⟨hne, hxml⟩ := hmodule t rfl
        cases hhas : Project.hasModule p.modules t with
        | error e =>
          simp only [Modules.addModule, hlookup, hhas]
          exact h
        | ok found =>
          cases found with
          | true =>
            simp only [Modules.addModule, hlookup, hhas]
            exact h
          | false =>
            simp only [Modules.addModule, hlookup, hhas]
            exact h.createModule (mem_of_lookup hlookup) hne hxml url pseudo inactive
    | none =>
      by_cases hurl : url.getD [] = []
      · simp only [Modules.addModule, hlookup, if_pos hurl]
        exact h
      · obtain ⟨hinv, hmem⟩ := h.createProject hplain hlookup (hproject hlookup)
        cases hcreate : m.createProject project version (url.getD []) with
        | mk m' r =>
          rw [hcreate] at hinv hmem
          cases r with
          | error e =>
            simp only [Modules.addModule, hlookup, if_neg hurl, hcreate]
            exact hinv
          | ok p =>
            cases module with
            | none =>
              simp only [Modules.addModule, hlookup, if_neg hurl, hcreate]
              exact hinv
            | some t =>
              obtain ⟨hne, hxml⟩ := hmodule t rfl
              simp only [Modules.addModule, hlookup, if_neg hurl, hcreate]
              exact hinv.createModule (hmem p rfl) hne hxml url pseudo inactive
  | deleteModule project module =>
    refine ⟨_, rfl, ?_⟩
    cases hlookup : m.projects.lookup project with
    | none =>
      simp only [Modules.deleteModule, hlookup]
      exact h
    | some p =>
      cases hhas : Project.hasModule p.modules module with
      | error e =>
        simp only [Modules.deleteModule, hlookup, hhas]
        exact h
      | ok found =>
        cases found with
        | true => exact absurd hhas (hcareful p hlookup)
        | false =>
          simp only [Modules.deleteModule, hlookup, hhas]
          exact h

/-- What is in memory after the calls is read again from the tree, if no module is deleted, and
projects are added under the names of their urls; and an absolute url comes back from its short
form, so that both are taken for the same. -/
theorem modulesInStep_of_run {file : XmlTree} {calls : List Call} (hplain : root.Plain)
    (hread : read root own file = .ok m) (hcareful : Allowed Modules.step Careful m calls) :
    (∃ t, exec Modules.step m calls = .ok t ∧ InStep t) ∧
      ∀ url, root.Absolute url →
        root.urlToAbsolute (root.urlToRelative own url) = url ∧ root.urlToAbsolute url = url := by
  constructor
  · obtain ⟨t, hexec, ht⟩ := exec_progress (fun _ _ h hok => h.step hplain hok)
      (inv_of_read hread) hcareful
    exact ⟨t, hexec, ht.inStep⟩
  · exact fun url habs => ⟨RootMap.urlToAbsolute_urlToRelative hplain habs own,
      RootMap.urlToAbsolute_of_absolute habs⟩

/-! ### A list with the own project -/

/-- One root, and no remote. -/
def sampleRoot : RootMap :=
  .make [("DAPPS_GITROOT_a".toList, "http://h/".toList)] (List.nodup_singleton _) none ['p']

/-- The own project, without modules. -/
def sampleFile : XmlTree := [.comment, .element "project" [("main", "true")] []]

def sampleModules : Modules := ⟨sampleRoot, ['p'], sampleFile, [(['p'], ⟨['p'], [], none, [], 1⟩)]⟩

theorem read_sampleFile : read sampleRoot ['p'] sampleFile = .ok sampleModules := rfl

/-- A test for careful calls. -/
def carefulTest (m : Modules) : Call → Bool
  | .addModule project module version url _ _ =>
    let abs := m.root.urlToAbsolute (url.getD [])
    let rel := m.root.urlToRelative m.ownproject abs
    (module.all fun t => t ≠ [] ∧ t.all isXmlChar) &&
      ((m.projects.lookup project).isSome ||
        (projectSplit abs).all fun r =>
          r.2 ≠ m.root.prjname ∧ project = r.2 ∧
            (m.root.items.all fun e => !(e.1 ++ rootEnd).isPrefixOf abs) ∧
            rel.all isXmlChar ∧ strip rel = rel ∧
            version.all fun v => v ≠ [] ∧ v.all isXmlChar ∧ strip v = v)
  | .deleteModule project module =>
    match m.projects.lookup project with
    | some p =>
      match Project.hasModule p.modules module with
      | .ok true => false
      | _ => true
    | none => true

theorem careful_of_test {call : Call} (h : m.carefulTest call = true) : m.Careful call := by
  cases call with
  | addModule project module version url pseudo inactive =>
    obtain ⟨hmodule, hproject⟩ := Bool.and_eq_true_iff.1 h
    refine ⟨?_, fun hlookup repository name hsplit => ?_⟩
    · rintro t rfl
      exact of_decide_eq_true hmodule
    · rw [hlookup, Option.isSome_none, Bool.false_or, hsplit] at hproject
      obtain ⟨hown, hname, habs, hxml, hstrip, hversion⟩ := of_decide_eq_true hproject
      refine ⟨hown, hname, fun e he hpre => ?_, hxml, hstrip, ?_⟩
      · have hnot := List.all_eq_true.1 habs e he
        rw [List.isPrefixOf_iff_prefix.2 hpre] at hnot
        cases hnot
      · rintro v rfl
        exact of_decide_eq_true hversion
  | deleteModule project module =>
    intro p hlookup hhas
    simp only [carefulTest, hlookup] at h
    rw [hhas] at h
    cases h

/-- A module is added to the own project, and one of a project with a version. -/
theorem inStep_twoModules :
    (∃ t, exec Modules.step sampleModules [.addModule ['p'] (some ['m']) none none false true,
        .addModule ['q'] (some ['n']) (some ['v', '1']) (some "dgra:///q.git".toList) true false,
        .deleteModule ['q'] ['o']] = .ok t ∧ InStep t) ∧
      ∀ url, sampleRoot.Absolute url →
        sampleRoot.urlToAbsolute (sampleRoot.urlToRelative ['p'] url) = url ∧
          sampleRoot.urlToAbsolute url = url := by
  have hplain : sampleRoot.items.all (fun e => decide (':' ∉ e.1)) = true := by decide +kernel
  exact modulesInStep_of_run (fun e he => of_decide_eq_true (List.all_eq_true.1 hplain e he))
    read_sampleFile (allowed_of_checks (fun _ _ => careful_of_test) (by decide +kernel))

/-- A module that has been deleted is read again. -/
theorem not_inStep_deleted :
    read sampleRoot ['p'] sampleFile = .ok sampleModules ∧
      ∃ t, exec Modules.step sampleModules [.addModule ['p'] (some ['m']) none none false false,
        .deleteModule ['p'] ['m']] = .ok t ∧ ¬InStep t := by
  refine ⟨rfl, ?_⟩
  obtain ⟨t, hexec, hend⟩ := exists_of_endsIn Modules.step sampleModules
    [.addModule ['p'] (some ['m']) none none false false, .deleteModule ['p'] ['m']]
    (fun t => match read t.root t.ownproject t.xmltree with
      | .ok again => decide ((again.projects.map fun e => e.2.modules.length) ≠
          t.projects.map fun e => e.2.modules.length)
      | .error _ => false) (by decide +kernel)
  refine ⟨t, hexec, ?_⟩
  rintro ⟨again, hread, hsame⟩
  simp only [hread] at hend
  rw [hsame] at hend
  exact of_decide_eq_true hend rfl

end Modules

end Dueca.Projects
