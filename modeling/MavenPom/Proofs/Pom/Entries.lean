import Mathlib.Data.Prod.Basic
import MavenPom.Proofs.Edit.Append

/-!
# Entries of POMs

The dependencies and the managed entries of a POM are read from the first container at a path. What
changes below the first name of the path changes these entries alone.
-/

namespace MavenPom

open Markup.Strict (Node)
open Markup.Strict.Node (leaf Puts ChangedAt Appended GivenText blank)

/-- The two places where a POM lists entries. -/
inductive Container where
  | dependencies
  | managed
  deriving DecidableEq, Repr

namespace Container

/-- The path from the root to a container. -/
def path : Container → List String
  | .dependencies => Editor.dependencies
  | .managed => Editor.managedDependencies

/-- The first name of the path. -/
def first : Container → String
  | .dependencies => "dependencies"
  | .managed => "dependencyManagement"

/-- What follows the first name of the path. -/
def below : Container → List String
  | .dependencies => []
  | .managed => ["dependencies"]

theorem path_eq (c : Container) : c.path = c.first :: c.below := by cases c <;> rfl

theorem path_colon (c : Container) : ∀ name ∈ c.path, ':' ∉ name.toList := by
  cases c <;> decide

end Container

namespace Pom

/-- The entries of a POM in a container. -/
def entries (p : Pom) : Container → List DeclaredDependency
  | .dependencies => p.dependencies
  | .managed => p.managed

/-- The POM with other entries in a container. -/
def withEntries (p : Pom) : Container → List DeclaredDependency → Pom
  | .dependencies, entries => { p with dependencies := entries }
  | .managed, entries => { p with managed := entries }

@[simp] theorem entries_withEntries (p : Pom) (c : Container) (es : List DeclaredDependency) :
    (p.withEntries c es).entries c = es := by
  cases c <;> rfl

@[simp] theorem withEntries_entries (p : Pom) (c : Container) :
    p.withEntries c (p.entries c) = p := by
  cases c <;> rfl

end Pom

namespace Markup.Strict.Node

/-- The node that a path leads to through the first child of each name. -/
def follow? : List String → Node → Option Node
  | [], n => some n
  | name :: path, n => (n.child? name).bind (follow? path)

/-- Where the end of a path has changed, the path leads to what it is now. If it led nowhere
    before, that has come from an element without content. -/
theorem ChangedAt.follow? {R : Node → Node → Prop} {path : List String} {n n' : Node}
    (h : ChangedAt R path n n') :
    ∃ m m', R m m' ∧ n'.follow? path = some m' ∧
      (n.follow? path = some m ∨ n.follow? path = none ∧ ∃ name, m = blank name) := by
  induction path generalizing n n' with
  | nil => exact ⟨n, n', h, rfl, .inl rfl⟩
  | cons name path ih =>
    obtain ⟨old, new, hputs, hchanged⟩ := h
    obtain ⟨hold, hnew⟩ := hputs.child?
    obtain ⟨m, m', hR, hm', hm⟩ := ih hchanged
    refine ⟨m, m', hR, by simp [Node.follow?, hnew, hm'], ?_⟩
    cases old with
    | some first =>
      simp only [Node.follow?, hold, Option.bind_some]
      exact hm
    | none =>
      simp only [Node.follow?, hold, Option.bind_none]
      refine .inr ⟨trivial, ?_⟩
      rcases hm with hm | ⟨-, hm⟩
      · cases path with
        | nil => exact ⟨name, (Option.some.inj hm).symm⟩
        | cons step path => simp [Node.follow?, blank, child?, children, isNamed] at hm
      · exact hm

theorem Appended.childrenNamed {n n' new : Node} (h : Appended [new] n n') {name : String}
    (hnew : new.isNamed name = true) :
    n'.childrenNamed name = n.childrenNamed name ++ [new] := by
  obtain ⟨own, text, text', kids, rfl, rfl⟩ := h
  simp [Node.childrenNamed, children, hnew]

theorem childText?_leaves (own text name : String) (fields : List (String × String)) :
    (Node.element own (.text text :: fields.map leaf)).childText? name =
      ((fields.find? fun field => field.1 == name).map (·.2)).bind Text.trim? := by
  have hfind : (fields.map leaf).find? (isNamed name) =
      (fields.find? fun field => field.1 == name).map leaf := by
    rw [List.find?_map]
    rfl
  simp only [childText?, child?, children, List.find?_cons, isNamed_text, hfind]
  cases fields.find? fun field => field.1 == name <;> rfl

theorem child?_leaves (own text name : String) (fields : List (String × String)) :
    (Node.element own (.text text :: fields.map leaf)).child? name =
      (fields.find? fun field => field.1 == name).map leaf := by
  simp only [child?, children, List.find?_cons, isNamed_text, List.find?_map]
  rfl

end Markup.Strict.Node

/-- The entry that is written for a dependency. -/
def Dependency.declared (d : Dependency) (version : Option String) : DeclaredDependency where
  groupId := some d.groupId
  artifactId := some d.artifactId
  version
  classifier := d.classifier
  packaging := if d.packaging = "jar" then none else some d.packaging
  declaredScope := if d.scope = "compile" then none else some d.scope
  optional := false
  exclusions := []

@[simp] theorem Dependency.key?_declared (d : Dependency) (version : Option String) :
    (d.declared version).key? = some d.key := rfl

namespace Pom

/-- The fields of a new entry are read as they were written. -/
theorem dependencyOf_entryFields {d : Dependency} (hd : d.Proper) {version : Option String}
    (hversion : ∀ v, version = some v → Text.IsTrimmed v) (text : String) :
    dependencyOf (.element "dependency" (.text text :: (Editor.entryFields d version).map leaf)) =
      d.declared version := by
  have hclassifier : d.classifier.bind Text.trim? = d.classifier := by
    cases hc : d.classifier with
    | none => rfl
    | some c => exact (hd.classifier c hc).trim?_eq
  have hversion' : version.bind Text.trim? = version := by
    cases hv : version with
    | none => rfl
    | some v => exact (hversion v hv).trim?_eq
  have hmap : ∀ (o : Option String) (name other : String),
      (o.map (name, ·)).toList.find? (fun field : String × String => field.1 == other) =
        if name = other then o.map (name, ·) else none := by
    intro o name other
    cases o <;> by_cases h : name = other <;> simp [h]
  have hif : ∀ (p : Prop) [Decidable p] (name value other : String),
      (if p then [] else [(name, value)]).find? (fun field : String × String =>
        field.1 == other) = if p ∨ name ≠ other then none else some (name, value) := by
    intro p _ name value other
    by_cases hp : p <;> by_cases h : name = other <;> simp [hp, h]
  simp only [dependencyOf, Node.childText?_leaves, Node.child?_leaves, Editor.entryFields,
    List.find?_append, hmap, hif, Dependency.declared]
  simp only [List.find?_cons, List.find?_nil]
  simp [hd.groupId.trim?_eq, hd.artifactId.trim?_eq, hclassifier, hversion']
  constructor
  · split <;> simp [hd.packaging.trim?_eq]
  · split <;> simp [hd.scope.trim?_eq]

theorem entries_ofNode (n : Node) (c : Container) :
    (ofNode n).entries c =
      ((n.follow? c.path).map fun m =>
        (m.childrenNamed "dependency").map dependencyOf).getD [] := by
  cases c with
  | dependencies =>
    simp only [entries, ofNode, dependenciesOf, Container.path, Editor.dependencies, Node.follow?]
    cases n.child? "dependencies" <;> rfl
  | managed =>
    simp only [entries, ofNode, managedOf, dependenciesOf, Container.path,
      Editor.managedDependencies, Node.follow?]
    cases n.child? "dependencyManagement" with
    | none => rfl
    | some m => cases hm : m.child? "dependencies" <;> simp [dependenciesOf, hm]

/-- A POM whose root has changed below the first name of a container's path has changed in the
    entries there alone. -/
theorem ofNode_of_child?_eq {n n' : Node} {c : Container}
    (h : ∀ name, name ≠ c.first → n'.child? name = n.child? name) :
    ofNode n' = (ofNode n).withEntries c ((ofNode n').entries c) := by
  have htext : ∀ name, name ≠ c.first → n'.childText? name = n.childText? name := fun name hne => by
    rw [Node.childText?, Node.childText?, h name hne]
  cases c with
  | dependencies =>
    simp only [Container.first] at h htext
    simp only [ofNode, withEntries, entries, propertiesOf, managedOf]
    rw [htext "groupId" (by decide), htext "artifactId" (by decide), htext "version" (by decide),
      htext "packaging" (by decide), h "parent" (by decide), h "properties" (by decide),
      h "dependencyManagement" (by decide), h "profiles" (by decide)]
  | managed =>
    simp only [Container.first] at h htext
    simp only [ofNode, withEntries, entries, propertiesOf, dependenciesOf]
    rw [htext "groupId" (by decide), htext "artifactId" (by decide), htext "version" (by decide),
      htext "packaging" (by decide), h "parent" (by decide), h "properties" (by decide),
      h "dependencies" (by decide), h "profiles" (by decide)]

/-- A new entry is read behind those of its container. -/
theorem entries_ofNode_appended {R : Node → Node → Prop} {added : DeclaredDependency}
    (hR : ∀ n n', R n n' → ∃ entry, Appended [entry] n n' ∧ entry.isNamed "dependency" = true ∧
      dependencyOf entry = added) {n n' : Node} {c : Container} (h : ChangedAt R c.path n n') :
    (ofNode n').entries c = (ofNode n).entries c ++ [added] := by
  obtain ⟨m, m', hmR, hm', hm⟩ := h.follow?
  obtain ⟨entry, happended, hentry, rfl⟩ := hR m m' hmR
  rw [entries_ofNode, entries_ofNode, hm', Option.map_some, Option.getD_some,
    happended.childrenNamed hentry, List.map_append]
  rcases hm with hm | ⟨hm, name, rfl⟩
  · rw [hm]
    rfl
  · rw [hm]
    rfl

/-- An entry that is given a version reads as itself with that version. -/
theorem dependencyOf_givenVersion {n n' : Node} {version : String}
    (h : ChangedAt (GivenText version) ["version"] n n') (hversion : Text.IsTrimmed version) :
    dependencyOf n' = { dependencyOf n with version := some version } := by
  obtain ⟨old, new, hputs, own, rest, rest', -, hnew⟩ := h
  have hchild : ∀ name, name ≠ "version" → n'.child? name = n.child? name := fun name hne =>
    hputs.child?_of_ne hne
  have htext : ∀ name, name ≠ "version" → n'.childText? name = n.childText? name :=
    fun name hne => hputs.childText?_of_ne hne
  have hversion' : n'.childText? "version" = some version := by
    rw [Node.childText?, hputs.child?.2, hnew]
    exact hversion.trim?_eq
  simp only [dependencyOf, hversion']
  rw [htext "groupId" (by decide), htext "artifactId" (by decide), htext "classifier" (by decide),
    htext "type" (by decide), htext "scope" (by decide), htext "optional" (by decide),
    hchild "exclusions" (by decide)]

end Pom

end MavenPom
