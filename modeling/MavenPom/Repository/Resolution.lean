import MavenPom.Pom.Effective
import MavenPom.Repository.PomStore

/-!
# Resolving dependencies

The effective models of POMs whose ancestors and imported models are in a repository, and the
dependencies that a model has directly and through others. Of the declarations of an artifact, the
one nearest to the root counts, and of equally near ones the first.
-/

namespace MavenPom

/-- Where models come from, and the profiles that they are built for. -/
structure Resolver extends PomSource where
  selection : ProfileSelection

/-- A step of resolving. -/
abbrev Resolving (α : Type) := Action PomStore BuildError α

namespace Resolver

/-! ## Effective models -/

/-- How deep imported models may import others. -/
def importLimit : Nat := 16

/-- The name of a model in errors. -/
def coordinateOf (m : EffectiveModel) : String :=
  m.groupId.getD "?" ++ ":" ++ m.artifactId.getD "?" ++ ":" ++ m.version.getD "?"

/-- Adds the ancestors that a lineage lacks, up to one without a parent. As POMs with the same
    content have the same parent, a lineage with more than `bound` of them has a cycle. -/
def climb (r : Resolver) (bound : Nat) (visited : List ArtifactKey) (lineage : List Pom) :
    Resolving (List Pom) :=
  match lineage.head?.bind (·.parent) with
  | none => pure lineage
  | some parent => do
    let key : ArtifactKey := ⟨parent.groupId, parent.artifactId⟩
    match parent.version with
    | none => throw (.invalidModel key.text ["parent has no version"])
    | some version =>
      if visited.contains key then
        throw (.invalidModel key.text ["parent hierarchy contains a cycle"])
      else
        match bound with
        | 0 => throw (.invalidModel key.text ["parent hierarchy contains a cycle"])
        | bound + 1 => do
          let pom ← PomStore.load r.toPomSource ⟨key.groupId, key.artifactId, version⟩
          climb r bound (key :: visited) (pom :: lineage)

/-- The lineage with all its ancestors. -/
def complete (r : Resolver) (lineage : List Pom) : Resolving (List Pom) := do
  let s ← get
  let bound := s.loaded.entries.length + (PomStore.contents r.toPomSource s).length + 1
  climb r bound [] lineage

/-- The POM that an import names. -/
def importKey? (d : DeclaredDependency) : Option PomKey :=
  match d.groupId, d.artifactId, d.version with
  | some g, some a, some v => some ⟨g, a, v⟩
  | _, _, _ => none

/-- Adds what the model of an imported POM manages. -/
def addImport (r : Resolver) (modelOf : Pom → Resolving EffectiveModel) (m : EffectiveModel)
    (d : DeclaredDependency) : Resolving EffectiveModel :=
  match importKey? d with
  | none => throw (.invalidModel (coordinateOf m) ["import-scoped dependency lacks coordinates"])
  | some key => do
    let pom ← PomStore.load r.toPomSource key
    let bom ← modelOf pom
    pure (m.importManaged bom)

/-- The effective model of the last POM of a lineage, where imported models may be nested in
    `levels` others. -/
def modelWithin (r : Resolver) : Nat → List Pom → Resolving EffectiveModel
  | 0, lineage => do
    let m := EffectiveModel.build (← complete r lineage) r.selection
    if m.imports.isEmpty then pure m
    else throw (.invalidModel (coordinateOf m) ["import-scoped BOMs nest too deeply"])
  | levels + 1, lineage => do
    let m := EffectiveModel.build (← complete r lineage) r.selection
    m.imports.foldlM (addImport r fun pom => modelWithin r levels [pom]) m

/-- The effective model of the last POM of a lineage, which begins with the farthest ancestor. -/
def effectiveModel (r : Resolver) (lineage : List Pom) : Resolving EffectiveModel :=
  modelWithin r importLimit lineage

/-! ## Dependencies of dependencies -/

/-- The scope of a dependency's dependency, unless it is left out. -/
def mediate? (outer inner : String) : Option String :=
  if inner = "compile" ∨ inner = "runtime" then
    match outer with
    | "compile" => some inner
    | "runtime" => some "runtime"
    | "provided" => some "provided"
    | "test" => some "test"
    | _ => none
  else none

/-- A dependency to be visited. Its exclusions are those of the whole path to it. -/
structure Pending where
  dependency : DeclaredDependency
  scope : String
  deriving DecidableEq, Repr

/-- The dependency as it is resolved. -/
def Pending.resolved (p : Pending) (key : ArtifactKey) (version : String) : Dependency :=
  ⟨key.groupId, key.artifactId, some version, p.dependency.classifier,
    p.dependency.packaging.getD "jar", p.scope⟩

/-- Whether dependencies of a scope are not followed. -/
def isLocalScope (scope : String) : Bool := ["test", "provided", "system", "import"].contains scope

/-- The version that a model manages for an artifact. -/
def pin? (root : EffectiveModel) (key : ArtifactKey) : Option String :=
  (root.managed.get? key).bind (·.version)

/-- What is to be visited for a declaration in the model of a visited dependency, if anything. -/
def follow (root : EffectiveModel) (p : Pending) (dependent : PomKey) (child : DeclaredDependency) :
    Except BuildError (Option Pending) :=
  if child.optional || isLocalScope child.scope then .ok none
  else
    match child.key?, child.key?.bind fun _ => mediate? p.scope child.scope with
    | some key, some scope =>
      if p.dependency.excludes key then .ok none
      else
        match (pin? root key).or child.version with
        | none =>
          .error (.invalidModel key.text ["no version for dependency of " ++ dependent.text])
        | some version =>
          .ok (some ⟨{ child with
            version := some version
            exclusions := child.exclusions ++ p.dependency.exclusions }, scope⟩)
    | _, _ => .ok none

/-- What is to be visited after a dependency. -/
def followAll (r : Resolver) (root : EffectiveModel) (p : Pending) (key : PomKey) :
    Resolving (List Pending) :=
  if p.scope = "system" then pure []
  else do
    let pom ← PomStore.load r.toPomSource key
    let m ← effectiveModel r [pom]
    match m.dependencies.mapM (follow root p key) with
    | .error cause => throw cause
    | .ok found => pure (found.filterMap id)

/-- Visits dependencies in their order, and those that they have after all others. Only the first
    for an artifact counts, and no more than `bound` do. -/
def visit (r : Resolver) (root : EffectiveModel) (bound : Nat) (seen : List ArtifactKey) :
    List Pending → Resolving (List Dependency)
  | [] => pure []
  | p :: queue =>
    match p.dependency.key?, p.dependency.version with
    | some key, some version =>
      if seen.contains key then visit r root bound seen queue
      else
        match bound with
        | 0 => throw (.invalidModel (coordinateOf root) ["too many dependencies"])
        | bound + 1 => do
          let children ← followAll r root p ⟨key.groupId, key.artifactId, version⟩
          let rest ← visit r root bound (key :: seen) (queue ++ children)
          pure (p.resolved key version :: rest)
    | _, _ => visit r root bound seen queue
termination_by queue => (bound, queue.length)

/-- How many dependencies a POM and its profiles declare. -/
def declaredCount (p : Pom) : Nat :=
  p.profiles.foldr (·.dependencies.length + ·) p.dependencies.length

/-- No fewer than the artifacts that can be found from a model: those of its own dependencies, and
    for each POM that is loaded or can be those that its model has, which the POMs of its lineage
    declare. -/
def visitBound (r : Resolver) (root : EffectiveModel) (s : PomStore) : Nat :=
  let supply := PomStore.supply r.toPomSource s
  root.dependencies.length + supply.length * supply.foldr (declaredCount · + ·) 0

/-- The key of a model itself, which is not a dependency of it. -/
def ownKey (m : EffectiveModel) : List ArtifactKey :=
  match m.groupId, m.artifactId with
  | some g, some a => [⟨g, a⟩]
  | _, _ => []

/-- All dependencies of a model, direct ones first. -/
def resolve (r : Resolver) (root : EffectiveModel) : Resolving (List Dependency) := do
  if root.problems ≠ [] then throw (.invalidModel (coordinateOf root) root.problems)
  let bound := visitBound r root (← get)
  visit r root bound (ownKey root) (root.dependencies.map fun d => ⟨d, d.scope⟩)

end Resolver

end MavenPom
