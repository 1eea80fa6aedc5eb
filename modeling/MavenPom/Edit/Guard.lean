import MavenPom.Project.Basic
import MavenPom.Request.Basic

/-!
# Guards

Commands that refuse requests which cannot be carried out.
-/

namespace MavenPom.Guard

/-- Refuses a request for a change without a dependency. -/
def dependencyPresent : Command Project RequestError where
  name := "check-dependency-present"
  isSupport := true
  execute := do
    let p ← get
    if p.request.isMutation ∧ p.request.dependency = none then throw .missingDependency
    pure .notApplicable
  postProcess := pure false

/-- The fault of an ancestor that is not packaged to be inherited from. -/
def packagingFault? (d : Document) : Option RequestError :=
  if d.pom.packaging = "pom" then none
  else some (.wrongPackaging d.source.text d.pom.packaging)

/-- Whether a document names another one as its parent. -/
def isLinked (child parent : Document) : Bool :=
  child.pom.parent.any fun declared =>
    parent.pom.effectiveGroupId? == some declared.groupId &&
      parent.pom.artifactId == some declared.artifactId

/-- The fault of a document that does not name its parent. -/
def linkFault? (child parent : Document) : Option RequestError :=
  if isLinked child parent then none
  else
    let expected := parent.pom.effectiveGroupId?.getD "?" ++ ":" ++ parent.pom.artifactId.getD "?"
    some (.invalidParent child.source.text expected)

/-- What is wrong with the ancestors of a project: first with what they are, then with how each
    document names the next. -/
def hierarchyFault? (p : Project) : Option RequestError :=
  (p.ancestors.findSome? packagingFault?).or
    ((p.documents.zip p.ancestors).findSome? fun (child, parent) => linkFault? child parent)

/-- Refuses ancestors that are not what they ought to be. -/
def parentPackaging : Command Project RequestError where
  name := "check-parent-packaging"
  isSupport := true
  execute := do
    match hierarchyFault? (← get) with
    | some fault => throw fault
    | none => pure .notApplicable
  postProcess := pure false

end MavenPom.Guard
