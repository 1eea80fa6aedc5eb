import MavenPom.Edit.VersionSlot

/-!
# Bringing in a dependency

The ways to add or upgrade the requested dependency: where the target lists it with a version, where
the target manages it, through an ancestor that manages it, or else in the target alone.
-/

namespace MavenPom.Insertion

/-- The element that a lookup in the document at a place finds. -/
def lookup? {α : Type} (p : Project) (index : Nat) (f : Editor → Option α) : Option α :=
  (p.document? index).bind fun d => d.editor?.bind f

/-- Edits the document at a place. -/
def editAt (index : Nat) (f : Editor → Editor) : Editing Unit :=
  modify fun p => p.modifyDocument (·.edit f) index

/-- Adds an entry for a dependency to the container at a path. -/
def addEntry (container : List String) (d : Dependency) (version : Option String) (e : Editor) :
    Editor :=
  let (e', id) := e.ensurePath container
  e'.appendDependency id d version

/-- Upgrades the entry that the target has in the container at a path, if it has a version. -/
def upgradeIn (container : List String) : Editing Outcome := do
  let p ← get
  match p.request.dependency with
  | none => pure .notApplicable
  | some d =>
    match lookup? p 0 fun e => (e.findDependency? container d.key).bind e.versionSlot? with
    | none => pure .notApplicable
    | some slot =>
      match d.version with
      | none => pure .handled
      | some version => do
        VersionSlot.update 0 slot d.artifactId version
        pure .handled

/-- Brings the managed entry of a dependency in the document at `index` to its version. -/
def manageIn (index : Nat) (d : Dependency) : Editing Unit := do
  let p ← get
  let present := lookup? p index fun e =>
    (e.findDependency? Editor.managedDependencies d.key).map fun entry =>
      (entry, e.versionSlot? entry)
  match d.version, present with
  | none, none => editAt index (addEntry Editor.managedDependencies d none)
  | none, some _ => pure ()
  | some version, some (_, some slot) => VersionSlot.update index slot d.artifactId version
  | some version, some (entry, none) => do
    let text ← VersionSlot.newText index d.artifactId version
    editAt index (·.addVersion entry text)
  | some version, none => do
    let text ← VersionSlot.newText index d.artifactId version
    editAt index (addEntry Editor.managedDependencies d (some text))

/-- Has the target list a dependency, without a version where it does not yet. -/
def referenceInTarget (d : Dependency) : Editing Unit :=
  editAt 0 fun e =>
    if (e.findDependency? Editor.dependencies d.key).isSome then e
    else addEntry Editor.dependencies d none e

/-- Has the target list a dependency with its version. -/
def insertInTarget (d : Dependency) : Editing Unit :=
  editAt 0 fun e =>
    match e.findDependency? Editor.dependencies d.key, d.version with
    | some entry, some version => e.addVersion entry version
    | some _, none => e
    | none, version => addEntry Editor.dependencies d version e

/-- A command that changes documents and leaves nothing to be done on the way out. -/
def command (name : String) (execute : Editing Outcome) : Command Project RequestError :=
  ⟨name, false, execute, pure false⟩

def upgrade : Command Project RequestError :=
  command "simple-upgrade" (upgradeIn Editor.dependencies)

def upgradeManaged : Command Project RequestError :=
  command "simple-dependency-management" (upgradeIn Editor.managedDependencies)

/-- Manages the dependency in an ancestor, and has the target refer to it. -/
def manageInAncestor : Command Project RequestError :=
  command "composite-dependency-management" do
    let p ← get
    match p.request.dependency, p.managedIndex? with
    | some d, some index => do
      manageIn index d
      referenceInTarget d
      pure .handled
    | _, _ => pure .notApplicable

/-- Inserts the dependency into the target alone. With properties, the version is managed there. -/
def insert : Command Project RequestError :=
  command "simple-insert" do
    let p ← get
    match p.request.dependency with
    | none => pure .notApplicable
    | some d => do
      if p.request.useProperties then
        manageIn 0 d
        referenceInTarget d
      else insertInTarget d
      pure .handled

end MavenPom.Insertion
