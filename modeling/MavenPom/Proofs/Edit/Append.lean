import MavenPom.Proofs.Edit.Path
import MavenPom.Proofs.Markup.Edit

/-!
# Texts and entries that are written

Giving an element at the end of a path a trimmed text has it show that text. A new entry shows its
fields as elements with texts, and stands behind everything that its container shows.
-/

namespace MavenPom

open Markup Markup.Tree

/-! ## Texts -/

namespace Markup.Strict.Node

/-- `n'` is `n` with a text before its child elements, which may have changed. -/
def GivenText (text : String) (n n' : Node) : Prop :=
  ∃ own rest rest', n = .element own rest ∧ n' = .element own (.text text :: rest')

end Markup.Strict.Node

namespace Editor

open Markup.Strict.Node (ChangedAt GivenText)

variable {e : Editor} {id parent : NodeId} {path : List String} {text : String}

theorem setText_within (hwf : e.tree.WellFormed) (hid : id < e.tree.size) (text : String) :
    Within e.tree (e.setText id text).tree id := by
  unfold setText
  split
  · exact within_self hwf hid
  · exact within_setText hwf hid text

theorem setText_spec (h : e.HasElement id) (htext : Text.trim text = text) (depth : Nat) :
    GivenText text (e.tree.shownNode e.ns (depth + 1) id)
      ((e.setText id text).tree.shownNode e.ns (depth + 1) id) := by
  unfold setText
  split
  · next hsame =>
    refine ⟨e.tree.localName id, _, (e.tree.members e.ns id).map (e.tree.shownNode e.ns depth),
      rfl, ?_⟩
    rw [shownNode, show Text.trim (e.tree.text id) = text from hsame]
  · refine ⟨e.tree.localName id, _,
      ((e.tree.setText id text).members e.ns id).map
        ((e.tree.setText id text).shownNode e.ns depth),
      rfl, ?_⟩
    rw [shownNode, (within_setText h.wellFormed h.lt text).localName_eq h.lt, text_setText h.lt,
      htext]

theorem setText_eq (e : Editor) (id : NodeId) (text : String) :
    ∃ tree dirty, e.setText id text = { e with tree, dirty } := by
  unfold setText
  split
  · exact ⟨e.tree, e.dirty, rfl⟩
  · exact ⟨_, _, rfl⟩

/-- The element at the end of a path, given a text. -/
def putText (e : Editor) (parent : NodeId) (order path : List String) (text : String) : Editor :=
  (e.ensureBelow parent order path).1.setText (e.ensureBelow parent order path).2 text

theorem addVersion_eq (e : Editor) (entry : NodeId) (version : String) :
    e.addVersion entry version = e.putText entry ElementOrder.dependency ["version"] version := rfl

theorem setProperty_eq {scope : PropertyScope} {owner : NodeId} (h : e.owner? scope = some owner)
    (name value : String) : e.setProperty scope name value =
      e.putText owner (blockOrder scope) ["properties", name] value := by
  rw [setProperty, h]
  rfl

theorem putText_eq (e : Editor) (parent : NodeId) (order path : List String) (text : String) :
    ∃ tree dirty, e.putText parent order path text = { e with tree, dirty } := by
  obtain ⟨tree, dirty, heq⟩ := e.ensureBelow_eq parent order path
  obtain ⟨tree', dirty', heq'⟩ := setText_eq (e.ensureBelow parent order path).1
    (e.ensureBelow parent order path).2 text
  exact ⟨tree', dirty', by rw [putText, heq', heq]⟩

theorem within_putText (hwf : e.tree.WellFormed) (hparent : parent < e.tree.size)
    (order path : List String) (text : String) :
    Within e.tree (e.putText parent order path text).tree parent := by
  obtain ⟨hwf', hid⟩ := ensureBelow_lt hwf hparent order path
  exact within_ensureBelow hwf hparent (setText_within hwf' hid text)

/-- A text that is put at the end of a path shows there. -/
theorem changedAt_putText (h : e.HasElement parent) (hpath : ∀ name ∈ path, ':' ∉ name.toList)
    (htext : Text.trim text = text) (order : List String) (depth : Nat) :
    ChangedAt (GivenText text) path (e.tree.shownNode e.ns (depth + path.length + 1) parent)
      ((e.putText parent order path text).tree.shownNode e.ns (depth + path.length + 1)
        parent) := by
  have hid := hasElement_ensureBelow h hpath order
  have hgiven := setText_spec hid htext depth
  obtain ⟨tree, dirty, heq⟩ := e.ensureBelow_eq parent order path
  have hns : (e.ensureBelow parent order path).1.ns = e.ns := by rw [heq]
  rw [hns] at hgiven
  exact (changedAt_ensureBelow h hpath (setText_within hid.wellFormed hid.lt text) hgiven).2

theorem changedUnder_putText (h : e.HasElement parent) {name : String}
    (hpath : ∀ step ∈ name :: path, ':' ∉ step.toList) (order : List String) (text : String) :
    ChangedUnder e.tree (e.putText parent order (name :: path) text).tree e.ns parent name := by
  have hid := hasElement_ensureBelow h hpath order
  exact changedUnder_ensureBelow h hpath (setText_within hid.wellFormed hid.lt text)

end Editor

/-! ## Entries -/

namespace Markup.Strict.Node

/-- An element with nothing but a text. -/
def leaf (field : String × String) : Node := .element field.1 [.text field.2]

/-- `n'` is `n` with nodes added behind its children. -/
def Appended (added : List Node) (n n' : Node) : Prop :=
  ∃ own text text' kids,
    n = .element own (.text text :: kids) ∧ n' = .element own (.text text' :: (kids ++ added))

theorem Appended.trans {added more : List Node} {n n' n'' : Node} (h : Appended added n n')
    (h' : Appended more n' n'') : Appended (added ++ more) n n'' := by
  obtain ⟨own, text, text', kids, rfl, rfl⟩ := h
  obtain ⟨own', text₁, text'', kids', heq, rfl⟩ := h'
  injection heq with hown hchildren
  injection hchildren with htext hkids
  subst hown hkids
  exact ⟨own, text, text'', kids, rfl, by rw [List.append_assoc]⟩

end Markup.Strict.Node

open Strict.Node (leaf Appended blank)

namespace Markup.Tree

variable {t : Tree} {ns : Option String} {parent : NodeId}

/-- An element with a field added. -/
def addField (parent : NodeId) (style : Indent) (t : Tree) (field : String × String) : Tree :=
  (t.appendTextElement parent field.1 field.2 style).1

/-- What is added to an element with a text shows as a leaf behind its children. -/
theorem addField_spec (ht : t.WellFormed) (helement : t.isElement parent = true)
    (hns : t.namespace? parent = ns) {field : String × String} (hname : ':' ∉ field.1.toList)
    (htext : Text.trim field.2 = field.2) (style : Indent) (depth : Nat) :
    Within t (addField parent style t field) parent ∧
      Appended [leaf field] (t.shownNode ns (depth + 2) parent)
        ((addField parent style t field).shownNode ns (depth + 2) parent) := by
  obtain ⟨x, hx⟩ := Option.isSome_iff_exists.mp helement
  have hparent := lt_size_of_element? hx
  obtain ⟨hid, hinserted⟩ := inserted_appendElement field.1 ht hparent style
  rw [addField, appendTextElement]
  simp only [hid]
  generalize (t.appendElement parent field.1 style).1 = t₁ at hinserted ⊢
  have hw := within_setText hinserted.wellFormed hinserted.size_lt field.2
  obtain ⟨hbefore, hafter⟩ := hinserted.shownNode_parent hw ht helement hns hname (depth + 1)
  have hleaf : (t₁.setText t.size field.2).shownNode ns (depth + 1) t.size = leaf field := by
    rw [shownNode, hinserted.localName_of_within hw hname, text_setText hinserted.size_lt, htext,
      members, childElements_setText hinserted.size_lt]
    rfl
  rw [hleaf] at hafter
  exact ⟨hinserted.within_parent hw ht hparent, _, _, _, _, by simpa using hbefore,
    by simpa using hafter⟩

/-- Fields that are added to an element one by one show as leaves behind its children. -/
theorem foldl_addField (style : Indent) (fields : List (String × String))
    (hfields : ∀ field ∈ fields, ':' ∉ field.1.toList ∧ Text.trim field.2 = field.2)
    (ht : t.WellFormed) (helement : t.isElement parent = true) (hns : t.namespace? parent = ns)
    (depth : Nat) :
    Within t (fields.foldl (addField parent style) t) parent ∧
      Appended (fields.map leaf) (t.shownNode ns (depth + 2) parent)
        ((fields.foldl (addField parent style) t).shownNode ns (depth + 2) parent) := by
  induction fields generalizing t with
  | nil =>
    obtain ⟨x, hx⟩ := Option.isSome_iff_exists.mp helement
    rw [List.foldl_nil]
    refine ⟨within_self ht (lt_size_of_element? hx), t.localName parent,
      Text.trim (t.text parent), Text.trim (t.text parent),
      (t.members ns parent).map (t.shownNode ns (depth + 1)), by rw [shownNode], ?_⟩
    rw [List.map_nil, List.append_nil, shownNode]
  | cons field fields ih =>
    obtain ⟨hfield, hfields⟩ := List.forall_mem_cons.mp hfields
    obtain ⟨hwithin, happended⟩ :=
      addField_spec ht helement hns hfield.1 hfield.2 style depth
    have hself : parent ∉ t.ancestors parent := fun hmem =>
      Nat.lt_irrefl _ (ht.lt_of_mem_ancestors hmem)
    rw [List.foldl_cons]
    obtain ⟨hwithin', happended'⟩ := ih hfields hwithin.after
      (by rw [isElement, hwithin.element?_eq hwithin.lt]; exact helement)
      ((hwithin.namespace?_eq hwithin.lt hself).trans hns)
    exact ⟨hwithin.trans hwithin', happended.trans happended'⟩

end Markup.Tree

namespace Editor

/-- The fields of an entry are trimmed, and their names have no colon. -/
theorem entryFields_spec {d : Dependency} (hd : d.Proper) {version : Option String}
    (hversion : ∀ v, version = some v → Text.trim v = v) :
    ∀ field ∈ entryFields d version, ':' ∉ field.1.toList ∧ Text.trim field.2 = field.2 := by
  intro field hfield
  simp only [entryFields, List.mem_append, List.mem_cons, List.not_mem_nil, or_false,
    Option.mem_toList, Option.map_eq_some_iff] at hfield
  rcases hfield with ((((rfl | rfl) | ⟨v, hv, rfl⟩) | hfield) | ⟨c, hc, rfl⟩) | hfield
  · exact ⟨(by decide : ':' ∉ "groupId".toList), hd.groupId.1⟩
  · exact ⟨(by decide : ':' ∉ "artifactId".toList), hd.artifactId.1⟩
  · exact ⟨(by decide : ':' ∉ "version".toList), hversion v hv⟩
  · split at hfield
    · simp at hfield
    · obtain rfl := List.mem_singleton.mp hfield
      exact ⟨(by decide : ':' ∉ "type".toList), hd.packaging.1⟩
  · exact ⟨(by decide : ':' ∉ "classifier".toList), (hd.classifier c hc).1⟩
  · split at hfield
    · simp at hfield
    · obtain rfl := List.mem_singleton.mp hfield
      exact ⟨(by decide : ':' ∉ "scope".toList), hd.scope.1⟩

theorem foldl_fields (parent : NodeId) (style : Indent) (fields : List (String × String))
    (t : Tree) : fields.foldl (fun t (name, text) =>
      (t.appendTextElement parent name text style).1) t = fields.foldl (addField parent style) t :=
  rfl

/-- A new entry is appended, and then its fields are appended to it. -/
theorem tree_appendDependency {e : Editor} {container : NodeId} (h : e.tree.WellFormed)
    (hcontainer : container < e.tree.size) (d : Dependency) (version : Option String) :
    (e.appendDependency container d version).tree =
      (entryFields d version).foldl (addField e.tree.size e.indent)
        (e.tree.appendElement container "dependency" e.indent).1 := by
  obtain ⟨hid, -⟩ := inserted_appendElement "dependency" h hcontainer e.indent
  rw [appendDependency]
  simp only [hid]
  rw [foldl_fields]

/-- A new entry shows its fields, behind everything that its container shows. -/
theorem appendDependency_spec {e : Editor} {container : NodeId} (h : e.HasElement container)
    {d : Dependency} (hd : d.Proper) {version : Option String}
    (hversion : ∀ v, version = some v → Text.trim v = v) (depth : Nat) :
    Within e.tree (e.appendDependency container d version).tree container ∧
      ∃ text, Appended
        [.element "dependency" (.text text :: (entryFields d version).map leaf)]
        (e.tree.shownNode e.ns (depth + 3) container)
        ((e.appendDependency container d version).tree.shownNode e.ns (depth + 3) container) := by
  obtain ⟨-, hinserted⟩ := inserted_appendElement "dependency" h.wellFormed h.lt e.indent
  rw [tree_appendDependency h.wellFormed h.lt]
  have hcolon : ':' ∉ "dependency".toList := by decide
  have hnew := h.inserted hcolon hinserted true
  obtain ⟨hw, happended⟩ := foldl_addField e.indent (entryFields d version)
    (entryFields_spec hd hversion) hnew.wellFormed hnew.isElement hnew.ns_eq depth
  obtain ⟨own, text, text', kids, hblank, hfilled⟩ := happended
  have hshown := @Inserted.shownNode_new _ _ e.ns _ _ _ _ hinserted hcolon (depth + 1)
  rw [hshown, blank] at hblank
  injection hblank with hown hkids
  injection hkids with htext hkids
  subst hown hkids
  obtain ⟨hbefore, hafter⟩ :=
    hinserted.shownNode_parent hw h.wellFormed h.isElement h.ns_eq hcolon (depth + 2)
  rw [hfilled] at hafter
  exact ⟨hinserted.within_parent hw h.wellFormed h.lt, text', _, _, _, _, by simpa using hbefore,
    by simpa using hafter⟩

theorem appendDependency_eq (e : Editor) (container : NodeId) (d : Dependency)
    (version : Option String) :
    ∃ tree, e.appendDependency container d version = { e with tree, dirty := true } :=
  ⟨_, rfl⟩

end Editor

end MavenPom
