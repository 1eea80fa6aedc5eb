import MavenPom.Chain
import MavenPom.Pom.Effective
import MavenPom.Project.Document
import MavenPom.Request.Basic

/-!
# Projects

A request together with the documents that it is about: a target POM, and its ancestors from the
nearest to the farthest.
-/

namespace MavenPom

structure Project where
  target : Document
  ancestors : List Document
  request : Request
  /-- Whether a command has changed something for the request. -/
  modified : Bool
  deriving DecidableEq, Repr

namespace Project

/-- A project that nothing has been done to yet. -/
def new (target : Document) (ancestors : List Document) (request : Request) : Project :=
  ⟨target, ancestors, request, false⟩

/-- The target, followed by its ancestors. -/
def documents (p : Project) : List Document := p.target :: p.ancestors

def document? (p : Project) (index : Nat) : Option Document := p.documents[index]?

/-- The project with the document at a place changed. -/
def modifyDocument (p : Project) (f : Document → Document) : Nat → Project
  | 0 => { p with target := f p.target }
  | index + 1 => { p with ancestors := p.ancestors.modify index f }

/-- The project with all documents changed. -/
def mapDocuments (p : Project) (f : Document → Document) : Project :=
  { p with target := f p.target, ancestors := p.ancestors.map f }

/-- The place of the ancestor that holds managed entries, if there are ancestors. -/
def managedIndex? (p : Project) : Option Nat :=
  if p.ancestors.isEmpty then none
  else
    match p.request.managedTarget with
    | .farthest => some p.ancestors.length
    | .nearest => some 1

/-- What the documents declare, the farthest first. -/
def lineage (p : Project) : List Pom := (p.documents.map (·.pom)).reverse

/-- The properties that the target sees: those of all documents and their profiles in force, the
    nearer ones over the farther ones, and the target's names under `project.` and `pom.`. -/
def properties (p : Project) : Properties :=
  let declared := p.lineage.foldl
    (fun props pom => props.extend (pom.activeProperties p.request.selection)) Table.empty
  let pom := p.target.pom
  EffectiveModel.withProjectProperties declared pom.effectiveGroupId? pom.artifactId
    pom.effectiveVersion?

instance : Modifiable Project where
  isMutation p := p.request.isMutation
  markModified p := { p with modified := true }

end Project

end MavenPom
