import MavenPom.Proofs.Edit.Property

/-!
# Version elements

The version element that a request is about is the one of the first entry for its artifact. Bringing
in an entry gives this element its text, where there is one.
-/

namespace MavenPom.Editor

open Markup Markup.Tree

variable {e : Editor} {c : Container} {key : ArtifactKey}

/-- The version element of the first entry for an artifact. -/
def slot? (e : Editor) (c : Container) (key : ArtifactKey) : Option NodeId :=
  (e.findDependency? c.path key).bind e.versionSlot?

/-- The text of that element. -/
def slotText? (e : Editor) (c : Container) (key : ArtifactKey) : Option String :=
  (e.slot? c key).map e.text

theorem mem_entryIds_of_findDependency? {id : NodeId}
    (h : e.findDependency? c.path key = some id) : id ∈ e.entryIds c := by
  rw [findDependency?_eq] at h
  exact List.mem_of_find?_eq_some h

/-! ## Edits elsewhere -/

theorem hasKey_of_sameBelow {tree : Tree} {dirty : Bool} {id : NodeId}
    (h : SameBelow e.tree tree id) :
    hasKey { e with tree, dirty } key id = e.hasKey key id := by
  simp only [hasKey, h.childText?_eq]

private theorem versionSlot?_of_sameBelow {tree : Tree} {dirty : Bool} {id : NodeId}
    (h : SameBelow e.tree tree id) :
    versionSlot? { e with tree, dirty } id = e.versionSlot? id := by
  simp only [versionSlot?, h.childrenNamed_eq]

section ChangedUnder

variable {tree : Tree} {name : String} (h : ChangedUnder e.tree tree e.ns e.root name)
  (hne : c.first ≠ name) (dirty : Bool)

include h hne

private theorem sameBelow_entry {id : NodeId} (hid : id ∈ e.entryIds c) :
    SameBelow e.tree tree id := by
  rw [entryIds, c.path_eq] at hid
  exact h.of_select hne hid

theorem findDependencies_of_changedUnder :
    findDependencies { e with tree, dirty } c.path key = e.findDependencies c.path key := by
  have hids : entryIds { e with tree, dirty } c = e.entryIds c := by
    rw [entryIds, entryIds, select, select, c.path_eq]
    exact h.select_eq hne _
  rw [findDependencies, findDependencies]
  rw [entryIds, entryIds] at hids
  rw [hids]
  exact List.filter_congr fun id hid => hasKey_of_sameBelow (sameBelow_entry h hne hid)

theorem slot?_of_changedUnder : slot? { e with tree, dirty } c key = e.slot? c key := by
  rw [slot?, slot?, findDependency?, findDependencies_of_changedUnder h hne, ← findDependency?]
  exact Option.bind_congr fun id hid =>
    versionSlot?_of_sameBelow (sameBelow_entry h hne (mem_entryIds_of_findDependency? hid))

end ChangedUnder

/-! ## Bringing in an entry -/

variable {d : Dependency} {version : String}

theorem versionSlot?_eq_some {entry slot : NodeId} :
    e.versionSlot? entry = some slot ↔ e.tree.childrenNamed entry e.ns "version" = [slot] := by
  unfold versionSlot?
  split
  · next s hs => simp [hs]
  · next hne =>
    refine ⟨fun h => ?_, fun h => absurd h (hne slot)⟩
    cases h

theorem bring_eq_addVersion {entry : NodeId} (h : e.findDependency? c.path d.key = some entry) :
    e.bring c d version = e.addVersion entry version := by
  rw [bring, h]

theorem bring_eq_addEntry (h : e.findDependency? c.path d.key = none) :
    e.bring c d version = Insertion.addEntry c.path d (some version) e := by
  rw [bring, h]

/-- Where the first entry has a version element, that one is given the version. -/
theorem bring_eq_setText {slot : NodeId} (h : e.slot? c d.key = some slot) :
    e.bring c d version = e.setText slot version := by
  obtain ⟨entry, hentry, hslot⟩ := Option.bind_eq_some_iff.mp h
  rw [bring_eq_addVersion hentry, addVersion, ensureChild, child?, childNamed?,
    versionSlot?_eq_some.mp hslot]
  rfl

/-- The first entry for an artifact is what the element that is found shows. -/
theorem find?_entries (hsingle : Markup.Strict.Node.Single c.path e.shown) :
    (e.pom.entries c).find? (·.key? = some key) =
      (e.findDependency? c.path key).map (e.entry c) := by
  have hkey : (fun x : DeclaredDependency => decide (x.key? = some key)) ∘ e.entry c =
      e.hasKey key := by
    funext id
    rw [Bool.eq_iff_iff, Function.comp_apply, decide_eq_true_eq, key?_entry]
  rw [entries_pom hsingle, List.find?_map, hkey, findDependency?_eq]

/-- The text of the version element is the version of the first entry, unless it is empty. -/
theorem find?_entries_of_slotText? (hsingle : Markup.Strict.Node.Single c.path e.shown)
    {text : String} (h : e.slotText? c key = some text) :
    ∃ x, (e.pom.entries c).find? (·.key? = some key) = some x ∧
      x.version = if text.isEmpty then none else some text := by
  obtain ⟨slot, hslot, rfl⟩ := Option.map_eq_some_iff.mp h
  obtain ⟨entry, hentry, hversion⟩ := Option.bind_eq_some_iff.mp hslot
  refine ⟨e.entry c entry, ?_, ?_⟩
  · rw [find?_entries hsingle, hentry, Option.map_some]
  · simp only [Editor.entry, Pom.dependencyOf, childText?_shownNode, childText?, childNamed?,
      versionSlot?_eq_some.mp hversion, List.head?_cons, Option.bind_some, Text.trim?, text]
    rfl

end MavenPom.Editor

/-!
## Edits that change nothing

An editor that shows already what an edit is to bring about is left as it is, and not marked.
-/

namespace MavenPom.Editor

open Markup Markup.Tree

variable {e : Editor} {c : Container} {d : Dependency} {parent id : NodeId}
  {name text value : String}

theorem setText_self (h : e.text id = text) : e.setText id text = e := if_pos h

theorem ensureChild_self (h : e.child? parent name = some id) (order : List String) :
    e.ensureChild parent name order = (e, id) := by
  rw [ensureChild, h]

/-- The text of the first version element of the first entry for an artifact. -/
def version? (e : Editor) (c : Container) (key : ArtifactKey) : Option String :=
  ((e.findDependency? c.path key).bind (e.child? · "version")).map e.text

/-- An entry that has a version already is not changed by bringing it in. -/
theorem bring_self (h : e.version? c d.key = some text) : e.bring c d text = e := by
  obtain ⟨slot, hslot, htext⟩ := Option.map_eq_some_iff.mp h
  obtain ⟨entry, hentry, hslot⟩ := Option.bind_eq_some_iff.mp hslot
  rw [bring_eq_addVersion hentry, addVersion, ensureChild_self hslot]
  exact setText_self htext

/-- The element of a property in a block. -/
def propertyId? (e : Editor) (scope : PropertyScope) (name : String) : Option NodeId :=
  (e.owner? scope).bind fun owner => (e.child? owner "properties").bind (e.child? · name)

/-- Setting a property that a block declares changes its text. -/
theorem setProperty_eq_setText {scope : PropertyScope} (h : e.propertyId? scope name = some id)
    (value : String) : e.setProperty scope name value = e.setText id value := by
  obtain ⟨owner, howner, hfield⟩ := Option.bind_eq_some_iff.mp h
  obtain ⟨block, hblock, hfield⟩ := Option.bind_eq_some_iff.mp hfield
  rw [setProperty, howner]
  simp only [ensureChild_self hblock, ensureChild_self hfield]

/-- A property that has a value already is not changed by setting it. -/
theorem setProperty_self {scope : PropertyScope} (h : e.property? scope name = some value) :
    e.setProperty scope name value = e := by
  obtain ⟨field, hfield, htext⟩ := Option.map_eq_some_iff.mp h
  exact (setProperty_eq_setText hfield value).trans (setText_self htext)

end MavenPom.Editor
