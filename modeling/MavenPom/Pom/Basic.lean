import MavenPom.Dependency
import MavenPom.Interpolation
import MavenPom.Markup.Strict.Document
import MavenPom.Pom.Profile

/-!
# POMs

What one POM file declares, before anything is inherited or interpolated. Elements count by their
local names, and of elements that may stand once, the first.
-/

namespace MavenPom

open Markup.Strict (Node)

/-- Where a POM says that its parent's file is. -/
inductive RelativePath where
  /-- Nothing is said: `../pom.xml`. -/
  | standard
  | explicit (path : String)
  /-- The element is empty: in no file. -/
  | disabled
  deriving DecidableEq, Repr

structure ParentReference where
  groupId : String
  artifactId : String
  version : Option String
  relativePath : RelativePath
  deriving DecidableEq, Repr

/-- A dependency as it is declared, without defaults. -/
structure DeclaredDependency where
  groupId : Option String
  artifactId : Option String
  version : Option String
  classifier : Option String
  packaging : Option String
  declaredScope : Option String
  optional : Bool
  exclusions : List ArtifactKey
  deriving DecidableEq, Repr

namespace DeclaredDependency

def key? (d : DeclaredDependency) : Option ArtifactKey :=
  match d.groupId, d.artifactId with
  | some g, some a => some ⟨g, a⟩
  | _, _ => none

def scope (d : DeclaredDependency) : String := d.declaredScope.getD "compile"

/-- Whether an exclusion's pattern covers a name. -/
def covers (pattern name : String) : Bool := pattern == "*" || pattern == name

/-- Whether an exclusion of the dependency covers an artifact. -/
def excludes (d : DeclaredDependency) (key : ArtifactKey) : Bool :=
  d.exclusions.any fun e => covers e.groupId key.groupId && covers e.artifactId key.artifactId

end DeclaredDependency

structure Profile where
  id : String
  activeByDefault : Bool
  properties : Properties
  dependencies : List DeclaredDependency
  managed : List DeclaredDependency
  deriving DecidableEq, Repr

structure Pom where
  groupId : Option String
  artifactId : Option String
  version : Option String
  declaredPackaging : Option String
  parent : Option ParentReference
  properties : Properties
  dependencies : List DeclaredDependency
  /-- The dependencies of `dependencyManagement`. -/
  managed : List DeclaredDependency
  profiles : List Profile
  deriving DecidableEq, Repr

namespace Pom

/-- The property that an element declares. -/
def propertyOf? : Node → Option (String × String)
  | .element name children =>
    some (name, Text.trim (((Node.element name children).leadingText?).getD ""))
  | _ => none

def propertiesOf (n : Node) : Properties :=
  Table.ofList (((n.child? "properties").map fun p => p.children.filterMap propertyOf?).getD [])

def exclusionOf? (n : Node) : Option ArtifactKey :=
  match n.childText? "groupId", n.childText? "artifactId" with
  | some g, some a => some ⟨g, a⟩
  | _, _ => none

def dependencyOf (n : Node) : DeclaredDependency :=
  { groupId := n.childText? "groupId"
    artifactId := n.childText? "artifactId"
    version := n.childText? "version"
    classifier := n.childText? "classifier"
    packaging := n.childText? "type"
    declaredScope := n.childText? "scope"
    optional := n.childText? "optional" == some "true"
    exclusions := ((n.child? "exclusions").map fun e =>
      (e.childrenNamed "exclusion").filterMap exclusionOf?).getD [] }

/-- The dependencies listed in a child element `dependencies`. -/
def dependenciesOf (n : Node) : List DeclaredDependency :=
  ((n.child? "dependencies").map fun d =>
    (d.childrenNamed "dependency").map dependencyOf).getD []

def managedOf (n : Node) : List DeclaredDependency :=
  ((n.child? "dependencyManagement").map dependenciesOf).getD []

def profileOf (n : Node) : Profile :=
  { id := (n.childText? "id").getD ""
    activeByDefault :=
      (((n.child? "activation").bind (·.childText? "activeByDefault")).map String.toLower) ==
        some "true"
    properties := propertiesOf n
    dependencies := dependenciesOf n
    managed := managedOf n }

def relativePathOf (parent : Node) : RelativePath :=
  match parent.child? "relativePath" with
  | none => .standard
  | some n =>
    match n.leadingText?.bind Text.trim? with
    | some path => .explicit path
    | none => .disabled

def parentOf (n : Node) : ParentReference :=
  { groupId := (n.childText? "groupId").getD ""
    artifactId := (n.childText? "artifactId").getD ""
    version := n.childText? "version"
    relativePath := relativePathOf n }

/-- What the root element of a POM declares. -/
def ofNode (project : Node) : Pom :=
  { groupId := project.childText? "groupId"
    artifactId := project.childText? "artifactId"
    version := project.childText? "version"
    declaredPackaging := project.childText? "packaging"
    parent := (project.child? "parent").map parentOf
    properties := propertiesOf project
    dependencies := dependenciesOf project
    managed := managedOf project
    profiles := ((project.child? "profiles").map fun p =>
      (p.childrenNamed "profile").map profileOf).getD [] }

/-- Reads a POM. The location is only for the error. -/
def parse (text location : String) : Except ProjectError Pom :=
  match Markup.Strict.parse? text with
  | some project => .ok (ofNode project)
  | none => .error (.notWellFormed location)

/-- The POM's group, or its parent's. -/
def effectiveGroupId? (p : Pom) : Option String :=
  (p.groupId.or (p.parent.map (·.groupId))).filter (!·.isEmpty)

/-- The POM's version, or its parent's. -/
def effectiveVersion? (p : Pom) : Option String :=
  p.version.or (p.parent.bind (·.version))

def packaging (p : Pom) : String := p.declaredPackaging.getD "jar"

/-- Whether a text has the beginning of a property reference. -/
def opensReference (text : String) : Bool :=
  (Text.cut? "$\x7b".toList text.toList).isSome

/-- Whether a POM is the one that a parent reference names. Versions decide only if both are known
    and the reference's is not interpolated. -/
def isNamedBy (p : Pom) (r : ParentReference) : Bool :=
  p.effectiveGroupId? == some r.groupId && p.artifactId == some r.artifactId &&
    match r.version, p.effectiveVersion? with
    | some wanted, some actual => wanted == actual || opensReference wanted
    | _, _ => true

/-- The profiles in force. Those active by default give way to one that is asked for. -/
def activeProfiles (p : Pom) (s : ProfileSelection) : List Profile :=
  let anyAskedFor := p.profiles.any fun q => s.activates q.id
  p.profiles.filter fun q =>
    !s.deactivates q.id && (s.activates q.id || (q.activeByDefault && !anyAskedFor))

/-- The properties of the POM, with those of its profiles in force over them. -/
def activeProperties (p : Pom) (s : ProfileSelection) : Properties :=
  (p.activeProfiles s).foldl (fun props q => props.extend q.properties) p.properties

end Pom

end MavenPom
