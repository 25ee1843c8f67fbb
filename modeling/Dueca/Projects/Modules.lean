import Dueca.Policy.Combine
import Dueca.Projects.RootMap

/-!
# The list of modules

A `modules.xml` lists projects with their modules. Each project and each module in memory has an
element of the xml tree. New ones are added to both; when modules are deleted, the tree stays as it
was. The tree is written after each change.

An element is modelled with what is read of it: its tag, its attributes, and the elements or the
text in it. An element for a project is known by its place in the tree.
-/

namespace Dueca.Projects

open Dueca.Lib Dueca.Policy

/-! ### Trees -/

abbrev Attributes := List (String × String)

/-- What is in a project. -/
inductive Leaf
  | comment
  | element (tag : String) (attrs : Attributes) (text : Option Text)

/-- What is in the list. -/
inductive Node
  | comment
  | element (tag : String) (attrs : Attributes) (children : List Leaf)

abbrev XmlTree := List Node

/-- An empty text is written, but not read. -/
def Leaf.rewritten : Leaf → Leaf
  | .comment => .comment
  | .element tag attrs text => .element tag attrs (text.filter (· ≠ []))

def Node.rewritten : Node → Node
  | .comment => .comment
  | .element tag attrs children => .element tag attrs (children.map Leaf.rewritten)

def Node.append (leaf : Leaf) : Node → Node
  | .comment => .comment
  | .element tag attrs children => .element tag attrs (children ++ [leaf])

/-- A character that xml can hold. -/
def isXmlChar (c : Char) : Bool :=
  (0x20 ≤ c.toNat ∨ c.toNat ∈ [0x9, 0xa, 0xd]) ∧ c.toNat ∉ [0xfffe, 0xffff]

inductive ModulesError
  | splitUrl
  | noText
  | tagUnknown
  | needUrl
  | multipleEntries
  | alreadyThere
  | noUrl
  | urlConflict
  | mainAttribute
  | xmlText
  deriving DecidableEq

/-! ### Modules -/

/-- A module, with the text of its element. -/
structure Module where
  text : Option Text
  inactive : Option Bool
  pseudo : Option Bool

namespace Module

def ofNode (attrs : Attributes) (text : Option Text) : Module where
  text := text
  inactive := XMLInterpretBool ((attrs.lookup "inactive").getD "false")
  pseudo := XMLInterpretBool ((attrs.lookup "pseudo").getD "false")

/-- `__str__` -/
def str (m : Module) : Except ModulesError Text :=
  match m.text with
  | some text => .ok (strip text)
  | none => .error .noText

/-- The element of a new module. -/
def newNode (name : Text) (pseudo inactive : Bool) : Leaf :=
  .element "module" ((if pseudo then [("pseudo", "true")] else []) ++
    if inactive then [("inactive", "true")] else []) (some name)

end Module

/-! ### Projects -/

structure Project where
  name : Text
  url : Text
  version : Option Text
  modules : List Module
  /-- The place of the element. -/
  xmlnode : ℕ

/-- What has been read of a project. -/
structure Draft where
  url : Option Text
  version : Option Text
  modules : List Module

namespace Project

/-- A turn of the loop over the elements of a project. -/
def readLeaf (root : RootMap) (d : Draft) : Leaf → Except ModulesError Draft
  | .comment => .ok d
  | .element tag attrs text =>
    if tag = "url" then
      match text with
      | some text => .ok { d with url := some (root.urlToAbsolute (strip text)) }
      | none => .error .noText
    else if tag = "version" then
      match text with
      | some text => .ok { d with version := some (strip text) }
      | none => .error .noText
    else if tag = "module" then .ok { d with modules := d.modules ++ [Module.ofNode attrs text] }
    else .error .tagUnknown

def readLeaves (root : RootMap) : Draft → List Leaf → Except ModulesError Draft
  | d, [] => .ok d
  | d, leaf :: leaves =>
    match readLeaf root d leaf with
    | .ok d' => readLeaves root d' leaves
    | .error e => .error e

/-- The own project. -/
def isMain (attrs : Attributes) : Bool := (attrs.lookup "main").any (· ≠ "")

/-- The name that is not taken from the url: there is no remote. -/
def mainName (root : RootMap) (attrs : Attributes) : Option Text :=
  if isMain attrs ∧ root.projecturl = none then some root.prjname else none

/-- The url to start from. -/
def mainUrl (root : RootMap) (attrs : Attributes) : Option Text :=
  if isMain attrs then some (root.projecturl.getD []) else none

/-- The name and the url are complete. -/
def finish (name : Option Text) (xmlnode : ℕ) (d : Draft) : Except ModulesError Project :=
  match d.url with
  | none => .error .needUrl
  | some url =>
    match name with
    | some name => .ok ⟨name, url, d.version, d.modules, xmlnode⟩
    | none =>
      match projectSplit url with
      | some (_, name) => .ok ⟨name, url, d.version, d.modules, xmlnode⟩
      | none => .error .splitUrl

/-- `_sync` for an element that is there. -/
def ofNode (root : RootMap) (xmlnode : ℕ) (attrs : Attributes) (children : List Leaf) :
    Except ModulesError Project :=
  match readLeaves root ⟨mainUrl root attrs, none, []⟩ children with
  | .ok d => finish (mainName root attrs) xmlnode d
  | .error e => .error e

/-- `hasModule`: names are compared until one is found. -/
def hasModule (modules : List Module) (module : Text) : Except ModulesError Bool :=
  match modules with
  | [] => .ok false
  | m :: modules =>
    match m.str with
    | .ok name => if name = module then .ok true else hasModule modules module
    | .error e => .error e

end Project

/-! ### The list -/

structure Modules where
  root : RootMap
  ownproject : Text
  xmltree : XmlTree
  /-- The projects by name. -/
  projects : List (Text × Project)

attribute [local instance] Text.lawful in
/-- The loop over the elements, from a place on. -/
def readNodes (root : RootMap) : ℕ → XmlTree → List (Text × Project) →
    Except ModulesError (List (Text × Project))
  | _, [], projects => .ok projects
  | i, .comment :: nodes, projects => readNodes root (i + 1) nodes projects
  | i, .element tag attrs children :: nodes, projects =>
    if tag = "project" then
      match Project.ofNode root i attrs children with
      | .ok p =>
        if p.name ∈ projects.map Prod.fst then .error .multipleEntries
        else readNodes root (i + 1) nodes (projects ++ [(p.name, p)])
      | .error e => .error e
    else .error .tagUnknown

namespace Modules

/-- `_sync`, when nothing has been read: `file` is the tree that has been written. -/
def read (root : RootMap) (ownproject : Text) (file : XmlTree) : Except ModulesError Modules :=
  (readNodes root 0 (file.map Node.rewritten) []).map fun projects =>
    ⟨root, ownproject, file.map Node.rewritten, projects⟩

/-- Change the project of a name. -/
def changeProject (m : Modules) (project : Text) (f : Project → Project) : List (Text × Project) :=
  m.projects.map fun e => if e.1 = project then (e.1, f e.2) else e

/-- `createModule`. A text that xml cannot hold is noticed when there is an element. -/
def createModule (m : Modules) (project : Text) (p : Project) (module : Text) (url : Option Text)
    (pseudo inactive : Bool) : Modules × Option ModulesError :=
  if (url.any fun u => u ≠ [] ∧ m.root.urlToAbsolute p.url ≠ m.root.urlToAbsolute u) then
    (m, some .urlConflict)
  else if module.all isXmlChar then
    ({ m with
        xmltree := m.xmltree.modify p.xmlnode (.append (Module.newNode module pseudo inactive))
        projects := m.changeProject project fun p =>
          { p with modules := p.modules ++ [⟨some module, some inactive, some pseudo⟩] } }, none)
  else
    ({ m with xmltree := m.xmltree.modify p.xmlnode (.append (.element "module" [] none)) },
      some .xmlText)

/-- The version of a new project, if there is one. -/
def versionNode (version : Option Text) : List Leaf :=
  match version with
  | some v => if v = [] then [] else [.element "version" [] (some v)]
  | none => []

/-- A new project. For the own project, the element cannot be marked, and stays as it is. -/
def createProject (m : Modules) (project : Text) (version : Option Text) (url : Text) :
    Modules × Except ModulesError Project :=
  let abs := m.root.urlToAbsolute url
  let rel := m.root.urlToRelative m.ownproject abs
  match projectSplit abs with
  | none => (m, .error .splitUrl)
  | some (_, name) =>
    if name = m.root.prjname then
      ({ m with xmltree := m.xmltree ++ [.element "project" [] []] }, .error .mainAttribute)
    else if ¬rel.all isXmlChar then
      ({ m with xmltree := m.xmltree ++ [.element "project" [] [.element "url" [] none]] },
        .error .xmlText)
    else if ¬(version.getD []).all isXmlChar then
      ({ m with xmltree := m.xmltree ++ [.element "project" []
          [.element "url" [] (some rel), .element "version" [] none]] }, .error .xmlText)
    else
      let p : Project := ⟨name, abs, version, [], m.xmltree.length⟩
      ({ m with
          xmltree := m.xmltree ++ [.element "project" []
            (.element "url" [] (some rel) :: versionNode version)]
          projects := m.projects ++ [(project, p)] }, .ok p)

/-- `addModule`, with what it raises. -/
def addModule (m : Modules) (project : Text) (module version url : Option Text)
    (pseudo inactive : Bool) : Modules × Option ModulesError :=
  match m.projects.lookup project with
  | some p =>
    match module with
    | none => (m, some .alreadyThere)
    | some module =>
      match Project.hasModule p.modules module with
      | .error e => (m, some e)
      | .ok true => (m, some .alreadyThere)
      | .ok false => m.createModule project p module url pseudo inactive
  | none =>
    if url.getD [] = [] then (m, some .noUrl)
    else
      match m.createProject project version (url.getD []) with
      | (m', .error e) => (m', some e)
      | (m', .ok p) =>
        match module with
        | none => (m', none)
        | some module => m'.createModule project p module url pseudo inactive

/-- `deleteModule`, with what it raises. The tree is not changed. -/
def deleteModule (m : Modules) (project module : Text) : Modules × Option ModulesError :=
  match m.projects.lookup project with
  | none => (m, none)
  | some p =>
    match Project.hasModule p.modules module with
    | .error e => (m, some e)
    | .ok false => (m, none)
    | .ok true =>
      match p.modules.mapM Module.str with
      | .error e => (m, some e)
      | .ok names =>
        ({ m with projects := m.changeProject project fun p =>
            { p with modules := p.modules.eraseIdx (names.findIdx (· = module)) } }, none)

/-! ### Runs -/

inductive Call
  | addModule (project : Text) (module version url : Option Text) (pseudo inactive : Bool)
  | deleteModule (project module : Text)

/-- A call, also when it raises an exception. -/
def step (m : Modules) : Call → Except Empty Modules
  | .addModule project module version url pseudo inactive =>
    .ok (m.addModule project module version url pseudo inactive).1
  | .deleteModule project module => .ok (m.deleteModule project module).1

end Modules

end Dueca.Projects
