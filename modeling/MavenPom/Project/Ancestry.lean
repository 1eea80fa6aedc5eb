import MavenPom.Project.Document

/-!
# Ancestors on disk

Finding the POMs that a POM inherits from, by the paths of its `parent` references, inside a
boundary directory. Only relative paths are followed, and no file twice. The files do not change
while this goes on, and there are finitely many, so the search ends.
-/

namespace MavenPom

/-- Whether a parent must be what its reference names, and what happens to a file that is not. -/
inductive Following where
  /-- A parent has to declare the coordinates that its child asks for. -/
  | byCoordinates
  /-- Any POM at the place is the parent. -/
  | byPath
  deriving DecidableEq, Repr

namespace Ancestry

/-- Whether a path begins at a root, a home directory or a drive. -/
def isAnchored (path : String) : Bool :=
  match path.toList with
  | [] => false
  | c :: cs =>
    c == '~' || c == '/' || c == '\\' || (decide (c.toNat < 0x80) && cs.head? == some ':')

/-- The path of a parent's file, relative to the directory of the child's. -/
def relativePath? (r : RelativePath) : Option String :=
  match r with
  | .disabled => none
  | .standard => some "../pom.xml"
  | .explicit path => some path

/-- Where a parent reference of the file at a location leads. A directory stands for its POM. -/
def candidate? (files : FileTree) (child : Location) (r : RelativePath) :
    Except ProjectError (Option Location) :=
  match relativePath? r with
  | none => .ok none
  | some path =>
    if isAnchored path then .error (.invalidPath path .absolute)
    else
      let l := Location.descend child.dropLast path
      .ok (some (if files.isDirectoryAt l then l ++ ["pom.xml"] else l))

/-- A document, and where its file is. -/
structure Found where
  location : Location
  document : Document
  deriving DecidableEq, Repr

/-- The parent of a document, if it is on disk. A path that the reference gives itself must not lead
    to a wrong place, while the standard one may. -/
def parent? (files : FileTree) (boundary : Location) (following : Following)
    (visited : List Location) (child : Found) : Except ProjectError (Option Found) :=
  match child.document.pom.parent with
  | none => .ok none
  | some reference => do
    let explicit := match reference.relativePath with
      | .explicit _ => true
      | _ => false
    match ← candidate? files child.location reference.relativePath with
    | none => return none
    | some l =>
      if !boundary.isPrefixOf l then
        if explicit then .error (.invalidPath l.path .escapesBoundary) else return none
      else if !files.isFileAt l then return none
      else if visited.contains l then .error (.invalidPath l.path .loop)
      else
        let document ← Document.load files l.path
        if following = .byCoordinates ∧ ¬document.pom.isNamedBy reference then
          if explicit then
            .error (.model (l.path ++ " does not declare parent " ++ reference.groupId ++ ":" ++
              reference.artifactId))
          else return none
        else return some ⟨l, document⟩

/-- The ancestors of a document, nearest first. There are no more than `bound`. -/
def ancestors (files : FileTree) (boundary : Location) (following : Following) :
    Nat → List Location → Found → Except ProjectError (List Document)
  | 0, _, _ => .ok []
  | bound + 1, visited, child => do
    match ← parent? files boundary following visited child with
    | none => return []
    | some parent =>
      let above ← ancestors files boundary following bound (parent.location :: visited) parent
      return parent.document :: above

/-- A document's ancestors. No file is found twice, so there are fewer than there are files. -/
def ancestorsOf (files : FileTree) (boundary : Location) (following : Following)
    (target : Found) : Except ProjectError (List Document) :=
  ancestors files boundary following files.files.length [target.location] target

/-- The location of what a path names. -/
def canonical (files : FileTree) (path : String) : Except ProjectError Location :=
  (files.locate path).mapError (.unreadable path)

/-- A project's documents: the target, and its ancestors from the nearest. -/
structure Lineage where
  target : Document
  ancestors : List Document
  deriving DecidableEq, Repr

/-- The document at a path and the boundary's location. -/
def start (files : FileTree) (path boundary : String) :
    Except ProjectError (Location × Found) := do
  let limit ← canonical files boundary
  let l ← canonical files path
  return (limit, ⟨l, ← Document.load files l.path⟩)

/-- Finds ancestors by their paths alone. -/
def findByPath (files : FileTree) (path boundary : String) : Except ProjectError Lineage := do
  let (limit, target) ← start files path boundary
  return ⟨target.document, ← ancestorsOf files limit .byPath target⟩

/-- Finds ancestors that are what they are referred to as, or where that fails, by their paths
    alone. -/
def find (files : FileTree) (path boundary : String) : Except ProjectError Lineage := do
  let (limit, target) ← start files path boundary
  match ancestorsOf files limit .byCoordinates target with
  | .ok above => return ⟨target.document, above⟩
  | .error _ => return ⟨target.document, ← ancestorsOf files limit .byPath target⟩

end Ancestry

end MavenPom
