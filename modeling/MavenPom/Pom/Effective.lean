import MavenPom.Pom.Basic

/-!
# Effective models

What a POM amounts to once its ancestors, its profiles in force and its properties are taken into
account. A nearer POM's value counts over a farther one's, and managed entries fill in what
dependencies leave out.
-/

namespace MavenPom

structure EffectiveModel where
  groupId : Option String
  artifactId : Option String
  version : Option String
  packaging : String
  properties : Properties
  managed : Table ArtifactKey DeclaredDependency
  /-- The managed entries of scope `import`, which stand for a whole model. -/
  imports : List DeclaredDependency
  dependencies : List DeclaredDependency
  deriving DecidableEq, Repr

namespace DeclaredDependency

/-- The dependency with its references replaced. -/
def interpolated (props : Properties) (d : DeclaredDependency) : DeclaredDependency :=
  { d with
    groupId := d.groupId.map (interpolate props)
    artifactId := d.artifactId.map (interpolate props)
    version := d.version.map (interpolate props)
    classifier := d.classifier.map (interpolate props)
    packaging := d.packaging.map (interpolate props)
    declaredScope := d.declaredScope.map (interpolate props)
    exclusions := d.exclusions.map fun e =>
      ⟨interpolate props e.groupId, interpolate props e.artifactId⟩ }

/-- The dependency with what it leaves out taken from a managed entry. -/
def filledFrom (d managed : DeclaredDependency) : DeclaredDependency :=
  { d with
    version := d.version.or managed.version
    declaredScope := d.declaredScope.or managed.declaredScope
    exclusions := if d.exclusions.isEmpty then managed.exclusions else d.exclusions }

end DeclaredDependency

namespace EffectiveModel

/-- The version that stands for one whose references cannot be resolved. -/
def unknownVersion : String := "UNKNOWN"

/-- The model of no POM at all. -/
def initial : EffectiveModel := ⟨none, none, none, "jar", Table.empty, Table.empty, [], []⟩

/-- The names and properties of a model, once a nearer POM is added to it. -/
def inherit (s : ProfileSelection) (m : EffectiveModel) (p : Pom) : EffectiveModel :=
  { m with
    groupId := p.effectiveGroupId?.or m.groupId
    artifactId := p.artifactId.or m.artifactId
    version := p.effectiveVersion?.or m.version
    packaging := p.packaging
    properties := m.properties.extend (p.activeProperties s) }

/-- The properties with a model's own name under `project.` and `pom.`. -/
def withProjectProperty (props : Properties) (name : String) (value : Option String) :
    Properties :=
  match value with
  | none => props
  | some v => (props.insert ("project." ++ name) v).insert ("pom." ++ name) v

/-- The properties with a group, an artifact and a version as those of the project. -/
def withProjectProperties (props : Properties) (groupId artifactId version : Option String) :
    Properties :=
  withProjectProperty
    (withProjectProperty (withProjectProperty props "groupId" groupId) "artifactId" artifactId)
    "version" version

/-- Puts a dependency in the place of the one with its key, or at the end. -/
def place (d : DeclaredDependency) : List DeclaredDependency → List DeclaredDependency
  | [] => [d]
  | e :: rest => if d.key?.isSome ∧ e.key? = d.key? then d :: rest else e :: place d rest

/-- Takes a managed entry into account. An import replaces the one with its key. -/
def manage (m : EffectiveModel) (d : DeclaredDependency) : EffectiveModel :=
  if d.scope = "import" then
    { m with imports := m.imports.filter (fun e => e.key? ≠ d.key?) ++ [d] }
  else
    match d.key? with
    | some key => { m with managed := m.managed.insert key d }
    | none => m

/-- The managed entries of a POM and of its profiles in force. -/
def managedIn (s : ProfileSelection) (p : Pom) : List DeclaredDependency :=
  p.managed ++ (p.activeProfiles s).flatMap (·.managed)

/-- The dependencies of a POM and of its profiles in force. -/
def declaredIn (s : ProfileSelection) (p : Pom) : List DeclaredDependency :=
  p.dependencies ++ (p.activeProfiles s).flatMap (·.dependencies)

/-- Takes the entries of a POM into account, interpolated by the model's properties. -/
def addEntries (s : ProfileSelection) (m : EffectiveModel) (p : Pom) : EffectiveModel :=
  let m' := ((managedIn s p).map (·.interpolated m.properties)).foldl manage m
  { m' with
    dependencies := ((declaredIn s p).map (·.interpolated m.properties)).foldl
      (fun ds d => place d ds) m'.dependencies }

/-- The model with its dependencies filled in from its managed entries. -/
def applyManaged (m : EffectiveModel) : EffectiveModel :=
  { m with dependencies := m.dependencies.map fun d =>
      match d.key?.bind m.managed.get? with
      | some managed => d.filledFrom managed
      | none => d }

/-- The model of the last POM of a lineage, which begins with the farthest ancestor. -/
def build (lineage : List Pom) (s : ProfileSelection) : EffectiveModel :=
  let named := lineage.foldl (inherit s) initial
  let props := withProjectProperties named.properties named.groupId named.artifactId named.version
  (lineage.foldl (addEntries s) { named with properties := props }).applyManaged

/-- The model with the managed entries of another where it has none of its own. -/
def importManaged (m bom : EffectiveModel) : EffectiveModel :=
  applyManaged { m with
    managed := bom.managed.entries.foldl (fun t (key, d) => t.insertNew key d) m.managed }

/-- The managed entries in the order of their keys. -/
def managedInOrder (m : EffectiveModel) : List DeclaredDependency :=
  (m.managed.entries.mergeSort fun a b => a.1.le b.1).map (·.2)

/-- What keeps the dependency at a place of the model from being resolved. -/
def problem? (index : Nat) (d : DeclaredDependency) : Option String :=
  match d.key? with
  | none => some ("dependency #" ++ toString index ++ " is missing groupId or artifactId")
  | some key =>
    match d.version with
    | none => some (key.text ++ " has no version and no managed version")
    | some v =>
      if Interpolation.hasReference v then
        some (key.text ++ " has unresolved version \x60" ++ v ++ "\x60")
      else none

/-- All that keeps the dependencies from being resolved. -/
def problems (m : EffectiveModel) : List String :=
  (m.dependencies.zipIdx).filterMap fun (d, index) => problem? index d

/-- A declared dependency with its defaults, unless its key is missing. -/
def dependencyOf? (d : DeclaredDependency) : Option Dependency :=
  d.key?.map fun key =>
    { groupId := key.groupId
      artifactId := key.artifactId
      version := d.version.map fun v => if Interpolation.hasReference v then unknownVersion else v
      classifier := d.classifier
      packaging := d.packaging.getD "jar"
      scope := d.scope }

/-- The dependencies with their defaults; those without a key are left out. -/
def toDependencies (m : EffectiveModel) : List Dependency :=
  m.dependencies.filterMap dependencyOf?

end EffectiveModel

end MavenPom
