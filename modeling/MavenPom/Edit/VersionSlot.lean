import MavenPom.Edit.Editor
import MavenPom.Project.Basic
import MavenPom.Request.Basic
import MavenPom.Version

/-!
# Writing versions

How a requested version is written where a version stands. With properties, a reference to a
property stands there, and the version is the property's value, in the block that the reference
reads it from. Properties that Maven itself provides are never written.
-/

namespace MavenPom

/-- A step of carrying out a request. -/
abbrev Editing (α : Type) := Action Project RequestError α

namespace VersionSlot

/-- The property for an artifact's version. -/
def propertyFor (artifactId : String) : String := "versions." ++ artifactId

/-- The text of a reference to a property. -/
def reference (name : String) : String := "$\x7b" ++ name ++ "\x7d"

/-- The characters that only references are written with. -/
def isMark (c : Char) : Bool := c == '$' || c == '\x7b' || c == '\x7d'

/-- The property that a text is a reference to, and nothing else. -/
def referenced? (text : String) : Option String :=
  (Text.strip? "$\x7b".toList text.toList).bind fun rest =>
    match rest.getLast? with
    | some '\x7d' =>
      let name := rest.dropLast
      if name.isEmpty || name.any isMark then none else some (String.ofList name)
    | _ => none

/-- Whether Maven itself provides a property. -/
def isBuiltin (name : String) : Bool :=
  ["basedir", "version", "groupId", "artifactId"].contains name ||
    ["project.", "pom.", "env.", "settings.", "java.", "os.", "user."].any (·.isPrefixOf name)

/-- The block that provides a property: that of the last profile in force which declares it, or
    else the project's. -/
def scopeOf (s : ProfileSelection) (p : Pom) (name : String) : PropertyScope :=
  match ((p.activeProfiles s).filter fun q => (q.properties.get? name).isSome).getLast? with
  | some q => .profile q.id
  | none => .project

/-- Where a property is declared, and its value. -/
structure Declaration where
  index : Nat
  scope : PropertyScope
  value : String
  deriving DecidableEq, Repr

/-- The declaration of a property in the document at a place. -/
def declarationIn? (p : Project) (name : String) (index : Nat) : Option Declaration :=
  (p.document? index).bind fun d =>
    let scope := scopeOf p.request.selection d.pom name
    (d.editor?.bind (·.property? scope name)).map (⟨index, scope, ·⟩)

/-- The declaration of a property, looked for in the document at `owner` first. -/
def declaration? (p : Project) (owner : Nat) (name : String) : Option Declaration :=
  let others := (List.range p.documents.length).filter (· ≠ owner)
  (owner :: others).findSome? (declarationIn? p name)

/-- How often the documents, as they were read, refer to a property. -/
def uses (p : Project) (name : String) : Nat :=
  p.documents.foldr (fun d n => Text.occurrences (reference name).toList d.text.toList + n) 0

/-- Gives a property a value where it is declared, or else in the document at `owner`. A property
    with another value that is used more than once is not changed, unless the request says so. -/
def writeProperty (owner : Nat) (name value : String) : Editing Unit := do
  let p ← get
  let (index, scope) ← match declaration? p owner name with
    | none => pure (owner, PropertyScope.project)
    | some found => do
      if found.value ≠ value ∧ ¬p.request.overrideExisting ∧ uses p name > 1 then
        throw (.ambiguousProperty name found.value value)
      pure (found.index, found.scope)
  modify fun p => p.modifyDocument (·.edit fun e => e.setProperty scope name value) index

/-- The text to be written where a version stands, after its property has been written. -/
def writeReference (index : Nat) (name requested : String) : Editing String := do
  writeProperty index name requested
  pure (reference name)

/-- The property to be written for a version: the one that is referred to, unless it is Maven's. -/
def propertyToWrite (current artifactId : String) : String :=
  ((referenced? current).filter (!isBuiltin ·)).getD (propertyFor artifactId)

/-- Whether a request is to leave a version in place. -/
def keeps (p : Project) (current requested : String) : Bool :=
  p.request.skipIfNewer &&
    Version.isNewer? requested (interpolate p.properties current) == some false

/-- Brings a version element of the document at `index` to the requested version. -/
def update (index : Nat) (slot : Markup.NodeId) (artifactId requested : String) :
    Editing Unit := do
  let p ← get
  match (p.document? index).bind (·.editor?) with
  | none => pure ()
  | some e =>
    let current := e.text slot
    if keeps p current requested then pure ()
    else
      let text ←
        if p.request.useProperties then
          writeReference index (propertyToWrite current artifactId) requested
        else pure requested
      modify fun p => p.modifyDocument (·.edit fun e => e.setText slot text) index

/-- The text for a new version element of the document at `index`. -/
def newText (index : Nat) (artifactId requested : String) : Editing String := do
  if (← get).request.useProperties then
    writeReference index (propertyFor artifactId) requested
  else pure requested

end VersionSlot

end MavenPom
