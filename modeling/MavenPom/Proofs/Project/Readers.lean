import MavenPom.Proofs.Edit.Property
import MavenPom.Proofs.Pom.Reading
import MavenPom.Proofs.Project.Characters
import MavenPom.Proofs.Project.Growth

/-!
# Both readings of a document

Queries take a document's POM from the strict reader, which knows elements by their local names, and
edits look up the elements of its tree in the namespace of the root. They find the same entries and
properties where this makes no difference: where nothing that they look for is repeated or in
another namespace, and texts are plain.
-/

namespace MavenPom

open Markup

namespace Markup.Tree

/-- All child elements of a local name are in a namespace. -/
def Unmixed (t : Tree) (ns : Option String) (id : NodeId) (name : String) : Prop :=
  ∀ child ∈ t.childElements id, t.localName child = name → t.namespace? child = ns

instance (t : Tree) (ns : Option String) (id : NodeId) (name : String) :
    Decidable (t.Unmixed ns id name) :=
  inferInstanceAs (Decidable (∀ child ∈ t.childElements id, _))

/-- No element on a path has two child elements of the path's next local name, or one in another
    namespace. -/
def Straight (t : Tree) (ns : Option String) : List String → NodeId → Prop
  | [], _ => True
  | name :: path, id =>
    t.Unmixed ns id name ∧ (t.childrenNamed id ns name).length ≤ 1 ∧
      ∀ child ∈ t.childrenNamed id ns name, t.Straight ns path child

instance Straight.decidable (t : Tree) (ns : Option String) :
    (path : List String) → (id : NodeId) → Decidable (t.Straight ns path id)
  | [], _ => isTrue trivial
  | name :: path, id =>
    have := fun child => Straight.decidable t ns path child
    inferInstanceAs (Decidable (t.Unmixed ns id name ∧ (t.childrenNamed id ns name).length ≤ 1 ∧
      ∀ child ∈ t.childrenNamed id ns name, t.Straight ns path child))

variable {t : Tree} {ns : Option String} {id : NodeId} {node : Strict.Node} {name : String}
  {path : List String}

theorem Unmixed.filter_eq (h : t.Unmixed ns id name) :
    (t.childElements id).filter (t.localName · == name) = t.childrenNamed id ns name := by
  rw [childrenNamed_eq_filter, members, List.filter_filter]
  refine List.filter_congr fun child hchild => ?_
  by_cases hname : t.localName child = name
  · simp [hname, h child hchild hname]
  · simp [hname]

/-- A straight path shows as one without repetition. -/
theorem Straight.single (h : t.Straight ns path id) (depth : Nat) :
    Strict.Node.Single path (t.shownNode ns (depth + path.length + 1) id) := by
  induction path generalizing id with
  | nil => trivial
  | cons name path ih =>
    obtain ⟨-, hlength, hbelow⟩ := h
    rw [List.length_cons, ← Nat.add_assoc, Strict.Node.Single, childrenNamed_shownNode]
    refine ⟨by rwa [List.length_map], fun m hm => ?_⟩
    obtain ⟨child, hchild, rfl⟩ := List.mem_map.mp hm
    exact ih (hbelow child hchild)

namespace Stands

/-- Both readers find the same child elements of a name. -/
theorem forall₂_unmixed (h : t.Stands id node) (hname : t.Unmixed ns id name) :
    List.Forall₂ t.Stands (t.childrenNamed id ns name) (node.childrenNamed name) := by
  rw [← hname.filter_eq]
  exact h.forall₂_childrenNamed name

theorem rel_child? (h : t.Stands id node) (hname : t.Unmixed ns id name) :
    Option.Rel t.Stands (t.childNamed? id ns name) (node.child? name) := by
  have hall := h.forall₂_unmixed hname
  rw [Strict.Node.child?_eq, childNamed?]
  generalize t.childrenNamed id ns name = ids, node.childrenNamed name = nodes at hall
  cases hall with
  | nil => exact .none
  | cons hfirst _ => exact .some hfirst

/-- A straight path leads both readers to the same element. -/
theorem rel_follow? (h : t.Stands id node) (hpath : t.Straight ns path id) :
    Option.Rel t.Stands (t.follow? ns path id) (node.follow? path) := by
  induction path generalizing id node with
  | nil => exact .some h
  | cons name path ih =>
    obtain ⟨hname, -, hbelow⟩ := hpath
    have hrel := h.rel_child? hname
    have hfirst : ∀ child ∈ t.childNamed? id ns name, t.Straight ns path child :=
      fun child hchild => hbelow child (List.mem_of_mem_head? hchild)
    rw [follow?, Strict.Node.follow?]
    generalize t.childNamed? id ns name = child, node.child? name = m at hrel hfirst
    cases hrel with
    | none => exact .none
    | some hchild => exact ih hchild (hfirst _ rfl)

/-- What a straight path finds once, the strict reader finds once. -/
theorem length_childrenNamed_le (h : t.Stands id node) (hpath : t.Straight ns (name :: path) id) :
    (node.childrenNamed name).length ≤ 1 := by
  rw [← (h.forall₂_unmixed hpath.1).length_eq]
  exact hpath.2.1

/-- Both readers take the same text from a child element. -/
theorem childText?_eq (h : t.Stands id node) (hname : t.Unmixed ns id name)
    (hplain : ∀ child ∈ t.childNamed? id ns name, t.PlainText child) :
    node.childText? name = t.childText? id ns name := by
  have hrel := h.rel_child? hname
  rw [Strict.Node.childText?_eq, childText?]
  generalize t.childNamed? id ns name = child, node.child? name = m at hrel hplain
  cases hrel with
  | none => rfl
  | some hchild =>
    rw [Option.bind_some, Option.bind_some, Text.trim?, Text.trim?,
      hchild.trim_leadingText (hplain _ rfl)]

end Stands

end Markup.Tree

namespace DeclaredDependency

/-- What tells an entry from others: its group, artifact and version. -/
def coordinates (x : DeclaredDependency) : Option String × Option String × Option String :=
  (x.groupId, x.artifactId, x.version)

end DeclaredDependency

namespace Editor

variable {e : Editor} {c : Container} {root : Strict.Node} {name : String}

/-- The child elements that give an entry's coordinates. -/
def coordinateNames : List String := ["groupId", "artifactId", "version"]

/-- The group, the artifact and the version that an entry's element gives. -/
def coordinates (e : Editor) (id : NodeId) : Option String × Option String × Option String :=
  (e.tree.childText? id e.ns "groupId", e.tree.childText? id e.ns "artifactId",
    e.tree.childText? id e.ns "version")

/-- The entries of a container stand in one place, they and what gives their coordinates are in the
    root's namespace, and the coordinates are plain texts. -/
structure PlainEntries (e : Editor) (c : Container) : Prop where
  straight : e.tree.Straight e.ns c.path e.root
  entries : ∀ container ∈ e.select c.path, e.tree.Unmixed e.ns container "dependency"
  names : ∀ entry ∈ e.entryIds c, ∀ name ∈ coordinateNames, e.tree.Unmixed e.ns entry name
  texts : ∀ entry ∈ e.entryIds c, ∀ name ∈ coordinateNames,
    ∀ field ∈ e.child? entry name, e.tree.PlainText field

/-- A property is given at most once, in one block, in the root's namespace and by a plain text. -/
structure PlainProperty (e : Editor) (name : String) : Prop where
  straight : e.tree.Straight e.ns ["properties", name] e.root
  text : ∀ property ∈ e.select ["properties", name], e.tree.PlainText property

instance (e : Editor) (c : Container) : Decidable (e.PlainEntries c) :=
  decidable_of_iff (e.tree.Straight e.ns c.path e.root ∧
      (∀ container ∈ e.select c.path, e.tree.Unmixed e.ns container "dependency") ∧
      (∀ entry ∈ e.entryIds c, ∀ name ∈ coordinateNames, e.tree.Unmixed e.ns entry name) ∧
      ∀ entry ∈ e.entryIds c, ∀ name ∈ coordinateNames,
        ∀ field ∈ e.child? entry name, e.tree.PlainText field)
    ⟨fun ⟨hstraight, hentries, hnames, htexts⟩ => ⟨hstraight, hentries, hnames, htexts⟩,
      fun h => ⟨h.straight, h.entries, h.names, h.texts⟩⟩

instance (e : Editor) (name : String) : Decidable (e.PlainProperty name) :=
  decidable_of_iff (e.tree.Straight e.ns ["properties", name] e.root ∧
      ∀ property ∈ e.select ["properties", name], e.tree.PlainText property)
    ⟨fun ⟨hstraight, htext⟩ => ⟨hstraight, htext⟩, fun h => ⟨h.straight, h.text⟩⟩

/-- Both readers find the same entries in a container. -/
theorem PlainEntries.map_coordinates (hplain : e.PlainEntries c) (h : e.tree.Stands e.root root) :
    ((Pom.ofNode root).entries c).map (·.coordinates) = (e.entryIds c).map e.coordinates := by
  have hentry : ∀ entry ∈ e.entryIds c, ∀ {m : Strict.Node}, e.tree.Stands entry m →
      (Pom.dependencyOf m).coordinates = e.coordinates entry := by
    intro entry hentry m hm
    have hfield : ∀ name ∈ coordinateNames, m.childText? name = e.tree.childText? entry e.ns name :=
      fun name hname => hm.childText?_eq (hplain.names entry hentry name hname)
        (hplain.texts entry hentry name hname)
    rw [DeclaredDependency.coordinates, coordinates, Pom.dependencyOf, hfield "groupId" (by decide),
      hfield "artifactId" (by decide), hfield "version" (by decide)]
  have hsingle : Strict.Node.Single c.path e.shown := by
    rw [shown, c.shownDepth_eq]
    exact hplain.straight.single _
  have hrel := h.rel_follow? hplain.straight
  rw [entryIds_eq hsingle] at hentry ⊢
  rw [Pom.entries_ofNode]
  cases hfollow : e.tree.follow? e.ns c.path e.root with
  | none =>
    rw [hfollow] at hrel
    generalize root.follow? c.path = m at hrel
    cases hrel
    rfl
  | some container =>
    rw [hfollow] at hrel hentry
    generalize root.follow? c.path = m at hrel
    cases hrel with
    | some hcontainer =>
      have hall := hcontainer.forall₂_unmixed
        (hplain.entries container (Tree.mem_select_of_follow? hfollow))
      rw [Option.map_some, Option.getD_some] at hentry ⊢
      rw [Option.map_some, Option.getD_some, List.map_map]
      have heach := ((List.forall₂_and_left _ _).mpr ⟨hentry, hall⟩).imp
        fun entry m hboth => (hboth.1 hboth.2).symm
      have hmaps := List.forall₂_map_left_iff.mpr (List.forall₂_map_right_iff.mpr heach)
      rw [List.forall₂_eq_eq_eq] at hmaps
      exact hmaps.symm

/-- Both readers find the same value for a property. -/
theorem PlainProperty.get?_properties (hplain : e.PlainProperty name)
    (h : e.tree.Stands e.root root) :
    (Pom.ofNode root).properties.get? name = e.property? .project name := by
  have honce : root.DeclaresOnce name := by
    obtain ⟨hblocks, -, hbelow⟩ := hplain.straight
    have hfirst : ∀ block ∈ e.tree.childNamed? e.root e.ns "properties",
        e.tree.Straight e.ns [name] block :=
      fun block hblock => hbelow block (List.mem_of_mem_head? hblock)
    have hrel := h.rel_child? hblocks
    intro block hblock
    rw [Option.mem_def.mp hblock] at hrel
    generalize e.tree.childNamed? e.root e.ns "properties" = first at hrel hfirst
    cases hrel with
    | some hstands => exact hstands.length_childrenNamed_le (hfirst _ rfl)
  have hget : (Pom.ofNode root).properties.get? name =
      (root.follow? ["properties", name]).map fun m => Text.trim m.leadingText := by
    refine (Pom.get?_propertiesOf honce).trans ?_
    simp only [Strict.Node.follow?, Option.bind_fun_some, Strict.Node.leadingText]
  have hproperty : e.property? .project name =
      (e.tree.follow? e.ns ["properties", name] e.root).map e.text := by
    simp only [property?, owner?, Option.bind_some, Tree.follow?, child?, Option.bind_fun_some]
  have htext : ∀ property ∈ e.tree.follow? e.ns ["properties", name] e.root,
      e.tree.PlainText property :=
    fun property hproperty => hplain.text property (Tree.mem_select_of_follow? hproperty)
  have hrel := h.rel_follow? hplain.straight
  rw [hget, hproperty]
  generalize e.tree.follow? e.ns ["properties", name] e.root = property,
    root.follow? ["properties", name] = m at hrel htext
  cases hrel with
  | none => rfl
  | some hstands => exact congrArg some (hstands.trim_leadingText (htext _ rfl))

end Editor

namespace Document

/-- Both readers of a document take the same coordinates, in the same order, for the entries of
    every container that has plain ones, and the same value for every property that is plain. -/
theorem readers_agree {bytes : Bytes} {source : DocumentSource} {d : Document}
    (h : ofBytes bytes source = .ok d) :
    ∃ e, d.editor? = some e ∧
      (∀ c : Container, e.PlainEntries c →
        (d.pom.entries c).map (·.coordinates) = (e.entryIds c).map e.coordinates) ∧
      ∀ name, e.PlainProperty name → d.pom.properties.get? name = e.property? .project name := by
  obtain ⟨hparse, node, hnode, hpom⟩ := exists_node_of_ofBytes h
  obtain ⟨-, -, hedited, -⟩ := facts_of_ofBytes h
  obtain ⟨root, hroot, hstands⟩ := Tree.exists_stands_of_parse hparse hnode
  rw [← hedited] at hroot hstands
  refine ⟨_, by rw [editor?, hroot]; rfl, fun c hplain => ?_, fun name hplain => ?_⟩
  · rw [hpom]
    exact hplain.map_coordinates hstands
  · rw [hpom]
    exact hplain.get?_properties hstands

/-- A POM with an entry and a property that both readers take for the same. -/
def plain : List Char :=
  "<project xmlns=\"p\"><properties><v>\r\n2<!-- kept --></v></properties><dependencies>".toList ++
    "<dependency><groupId>&lt;<![CDATA[g]]></groupId></dependency></dependencies></project>".toList

theorem readers_agree_plain :
    ofBytes (Utf8.encode plain) .memory = .ok (ofChars plain) ∧
    ∃ e, (ofChars plain).editor? = some e ∧
      (e.PlainEntries .dependencies ∧ e.PlainEntries .managed ∧ e.PlainProperty "v") ∧
      ((ofChars plain).pom.entries .dependencies).map (·.coordinates) =
        (e.entryIds .dependencies).map e.coordinates ∧
      ((ofChars plain).pom.entries .managed).map (·.coordinates) =
        (e.entryIds .managed).map e.coordinates ∧
      (ofChars plain).pom.properties.get? "v" = e.property? .project "v" := by
  -- As a list, the characters need not be decoded whenever they are looked at.
  have hplain : plain = _ :=
    congrArg₂ (· ++ ·) (@String.toList_ofList _) (@String.toList_ofList _)
  have hread := ofBytes_encode (by rw [hplain]; decide +kernel : Readable plain)
  obtain ⟨e, he, hentries, hproperty⟩ := readers_agree hread
  have hall : ∀ e ∈ (ofChars plain).editor?, e.PlainEntries .dependencies ∧
      e.PlainEntries .managed ∧ e.PlainProperty "v" := by
    rw [hplain]
    decide +kernel
  obtain ⟨hdependencies, hmanaged, hv⟩ := hall e he
  exact ⟨hread, e, he, hall e he, hentries _ hdependencies, hentries _ hmanaged, hproperty _ hv⟩

/-- A POM with an entry and a property in a namespace that is not the root's, and with another entry
    in a second container. -/
def mixed : List Char :=
  "<project xmlns:o=\"o\"><properties><o:v>2</o:v></properties><dependencies><o:dependency>".toList ++
    ("<groupId>g</groupId></o:dependency></dependencies><dependencies><dependency>".toList ++
      "<groupId>h</groupId></dependency></dependencies></project>".toList)

/-- Local names alone count for the strict reader, and the first container alone. -/
theorem readers_differ_mixed :
    ofBytes (Utf8.encode mixed) .memory = .ok (ofChars mixed) ∧
    ∃ e, (ofChars mixed).editor? = some e ∧
      ((ofChars mixed).pom.entries .dependencies).map (·.coordinates) =
        [(some "g", none, none)] ∧
      (e.entryIds .dependencies).map e.coordinates = [(some "h", none, none)] ∧
      (ofChars mixed).pom.properties.get? "v" = some "2" ∧ e.property? .project "v" = none := by
  have hmixed : mixed = _ := congrArg₂ (· ++ ·) (@String.toList_ofList _)
    (congrArg₂ (· ++ ·) (@String.toList_ofList _) (@String.toList_ofList _))
  have hfound : ∃ e ∈ (ofChars mixed).editor?,
      ((ofChars mixed).pom.entries .dependencies).map (·.coordinates) =
        [(some "g", none, none)] ∧
      (e.entryIds .dependencies).map e.coordinates = [(some "h", none, none)] ∧
      (ofChars mixed).pom.properties.get? "v" = some "2" ∧ e.property? .project "v" = none := by
    rw [hmixed]
    decide +kernel
  obtain ⟨e, he, hreadings⟩ := hfound
  exact ⟨ofBytes_encode (by rw [hmixed]; decide +kernel), e, he, hreadings⟩

end Document

end MavenPom
