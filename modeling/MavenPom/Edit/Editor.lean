import MavenPom.Dependency
import MavenPom.Markup.Tree.Edit
import MavenPom.Project.Document

/-!
# Editing POMs

Looking up and changing the elements of one POM. Elements are known by their local names in the
namespace of the root element, whatever its prefix. An edit that changes something marks it.
-/

/-!
## The order of elements

The order in which a POM's elements are conventionally written. Elements that are not listed have
no place in it.
-/

namespace MavenPom.ElementOrder

def project : List String :=
  ["modelVersion", "parent", "groupId", "artifactId", "version", "packaging", "name",
    "description", "url", "inceptionYear", "organization", "licenses", "developers",
    "contributors", "mailingLists", "prerequisites", "modules", "scm", "issueManagement",
    "ciManagement", "distributionManagement", "properties", "dependencyManagement",
    "dependencies", "repositories", "pluginRepositories", "build", "reporting", "profiles"]

def dependency : List String :=
  ["groupId", "artifactId", "version", "type", "classifier", "scope", "systemPath", "exclusions",
    "optional"]

def profile : List String :=
  ["id", "activation", "build", "modules", "distributionManagement", "properties",
    "dependencyManagement", "dependencies", "repositories", "pluginRepositories", "reporting"]

/-- Whether an element's place is after another one's. -/
def isAfter (order : List String) (later earlier : String) : Bool :=
  match order.idxOf? earlier, order.idxOf? later with
  | some i, some j => i < j
  | _, _ => false

end MavenPom.ElementOrder

/-! ## Editors -/

namespace MavenPom

open Markup

/-- A POM's tree in the course of edits. -/
structure Editor where
  tree : Tree
  root : NodeId
  /-- The namespace of the root element. -/
  ns : Option String
  indent : Indent
  dirty : Bool
  deriving DecidableEq, Repr

/-- The block of properties that a property is in. -/
inductive PropertyScope where
  | project
  | profile (id : String)
  deriving DecidableEq, Repr

namespace Editor

/-- The path of a POM's dependencies. -/
def dependencies : List String := ["dependencies"]

/-- The path of a POM's managed dependencies. -/
def managedDependencies : List String := ["dependencyManagement", "dependencies"]

/-! ## Looking up -/

def child? (e : Editor) (id : NodeId) (name : String) : Option NodeId :=
  e.tree.childNamed? id e.ns name

/-- The trimmed text of an element. -/
def text (e : Editor) (id : NodeId) : String := Text.trim (e.tree.text id)

/-- The elements that a path leads to from the root. -/
def select (e : Editor) (path : List String) : List NodeId := e.tree.select e.ns path e.root

/-- Whether an element gives an artifact's names. -/
def hasKey (e : Editor) (key : ArtifactKey) (id : NodeId) : Bool :=
  e.tree.childText? id e.ns "groupId" == some key.groupId &&
    e.tree.childText? id e.ns "artifactId" == some key.artifactId

/-- The entries for an artifact in the containers that a path leads to. -/
def findDependencies (e : Editor) (container : List String) (key : ArtifactKey) : List NodeId :=
  (e.select (container ++ ["dependency"])).filter (e.hasKey key)

def findDependency? (e : Editor) (container : List String) (key : ArtifactKey) : Option NodeId :=
  (e.findDependencies container key).head?

/-- The version element of an entry, where there is exactly one. -/
def versionSlot? (e : Editor) (entry : NodeId) : Option NodeId :=
  match e.tree.childrenNamed entry e.ns "version" with
  | [slot] => some slot
  | _ => none

/-- The first profile element with an id. -/
def profile? (e : Editor) (id : String) : Option NodeId :=
  (e.child? e.root "profiles").bind fun profiles =>
    (e.tree.childrenNamed profiles e.ns "profile").find? fun profile =>
      (e.child? profile "id").map e.text == some id

/-- The element that a block of properties is in. -/
def owner? (e : Editor) (scope : PropertyScope) : Option NodeId :=
  match scope with
  | .project => some e.root
  | .profile id => e.profile? id

/-- The value of a property in a block. -/
def property? (e : Editor) (scope : PropertyScope) (name : String) : Option String :=
  ((e.owner? scope).bind fun owner => (e.child? owner "properties").bind (e.child? · name)).map
    e.text

/-! ## Changing -/

/-- The first child that comes after a new one in an order. -/
def successor? (e : Editor) (parent : NodeId) (name : String) (order : List String) :
    Option NodeId :=
  (e.tree.childElements parent).find? fun child =>
    (e.tree.element? child).any fun element => ElementOrder.isAfter order element.localName name

/-- A child element, which is added where there is none: before the first one that comes after it
    in an order, or else as the last. -/
def ensureChild (e : Editor) (parent : NodeId) (name : String) (order : List String) :
    Editor × NodeId :=
  match e.child? parent name with
  | some present => (e, present)
  | none =>
    let (tree, id) := match e.successor? parent name order with
      | some before => e.tree.insertElementBefore parent before name e.indent
      | none => e.tree.appendElement parent name e.indent
    ({ e with tree, dirty := true }, id)

/-- The elements of a path below an element, added where there are none. -/
def ensureBelow (e : Editor) (parent : NodeId) (order : List String) :
    List String → Editor × NodeId
  | [] => (e, parent)
  | name :: path =>
    let (e', id) := e.ensureChild parent name order
    ensureBelow e' id [] path

/-- The container at a path below the root. -/
def ensurePath (e : Editor) (path : List String) : Editor × NodeId :=
  e.ensureBelow e.root ElementOrder.project path

/-- Gives an element a text, unless it has it but for blanks around it. -/
def setText (e : Editor) (id : NodeId) (text : String) : Editor :=
  if e.text id = text then e else { e with tree := e.tree.setText id text, dirty := true }

/-- Gives an entry that has none a version. -/
def addVersion (e : Editor) (entry : NodeId) (version : String) : Editor :=
  let (e', id) := e.ensureChild entry "version" ElementOrder.dependency
  e'.setText id version

/-- The child elements of a new entry, with their texts. -/
def entryFields (d : Dependency) (version : Option String) : List (String × String) :=
  [("groupId", d.groupId), ("artifactId", d.artifactId)] ++
    (version.map ("version", ·)).toList ++
    (if d.packaging = "jar" then [] else [("type", d.packaging)]) ++
    (d.classifier.map ("classifier", ·)).toList ++
    (if d.scope = "compile" then [] else [("scope", d.scope)])

/-- Adds an entry for a dependency to a container. -/
def appendDependency (e : Editor) (container : NodeId) (d : Dependency)
    (version : Option String) : Editor :=
  let (tree, entry) := e.tree.appendElement container "dependency" e.indent
  let filled := (entryFields d version).foldl
    (fun t (name, text) => (t.appendTextElement entry name text e.indent).1) tree
  { e with tree := filled, dirty := true }

/-- The order of the elements among which a block of properties is. -/
def blockOrder : PropertyScope → List String
  | .project => ElementOrder.project
  | .profile _ => ElementOrder.profile

/-- Gives a property in a block a value. Where there is no such block's profile, nothing is
    changed. -/
def setProperty (e : Editor) (scope : PropertyScope) (name value : String) : Editor :=
  match e.owner? scope with
  | none => e
  | some owner =>
    let (e₁, block) := e.ensureChild owner "properties" (blockOrder scope)
    let (e₂, id) := e₁.ensureChild block name []
    e₂.setText id value

end Editor

namespace Document

/-- An editor of the document, which has a root element. -/
def editor? (d : Document) : Option Editor :=
  d.edited.rootElement?.map fun root =>
    ⟨d.edited, root, d.edited.namespace? root, d.indent, d.dirty⟩

/-- The document with the outcome of edits. -/
def edit (d : Document) (f : Editor → Editor) : Document :=
  match d.editor? with
  | none => d
  | some e => { d with edited := (f e).tree, dirty := (f e).dirty }

end Document

end MavenPom
