import MavenPom.Edit.Insertion
import MavenPom.Proofs.Edit.Append
import MavenPom.Proofs.Markup.Uniform

/-!
# Editing uniform POMs

The edits of a POM keep its tree uniform: containers, entries, versions and properties are added on
lines of their own, and what is written in them is neither blank nor broken otherwise than the rest.
-/

namespace MavenPom

open Markup

/-- A text can be the content of an element where lines are broken as in a style: it is not blank,
    and all its line breaks are the style's. -/
structure Markup.Indent.Admits (style : Indent) (text : String) : Prop where
  nonblank : Text.isAllBlank text = false
  breaks : style.lineBreak.Only text

/-- A reference to a property with a name that can be written can be written itself. -/
theorem VersionSlot.admits_reference {style : Indent} {name : String}
    (h : style.lineBreak.Only name) : style.Admits (reference name) where
  nonblank := by
    rw [Text.isAllBlank, reference, List.all_eq_false]
    exact ⟨'$', by simp [String.toList_append], by decide⟩
  breaks := by
    have hname : (reference name).toList = '$' :: '\x7b' :: (name.toList ++ ['\x7d']) := by
      simp [reference, String.toList_append]
    have hclose : '\n' ∉ ['\x7d'] := by decide
    rw [LineBreak.Only, hname, LineBreak.count_cons_of_ne (by decide),
      LineBreak.count_cons_of_ne (by decide), LineBreak.others_count_append,
      LineBreak.others_count_eq_zero hclose, Nat.add_zero]
    exact h

namespace Dependency

/-- All texts of a dependency. -/
def texts (d : Dependency) : List String :=
  [d.groupId, d.artifactId, d.packaging, d.scope] ++ d.version.toList ++ d.classifier.toList

/-- No text of a dependency is blank or has a line break. -/
def OnLines (d : Dependency) : Prop :=
  ∀ text ∈ d.texts, Text.isAllBlank text = false ∧ '\n' ∉ text.toList

instance (d : Dependency) : Decidable d.OnLines :=
  inferInstanceAs (Decidable (∀ text ∈ d.texts, _))

theorem OnLines.admits {d : Dependency} (h : d.OnLines) (style : Indent) {text : String}
    (htext : text ∈ d.texts) : style.Admits text :=
  ⟨(h text htext).1, LineBreak.only_of_not_mem (h text htext).2⟩

theorem OnLines.artifactId {d : Dependency} (h : d.OnLines) : '\n' ∉ d.artifactId.toList :=
  (h d.artifactId (by simp [texts])).2

theorem OnLines.admits_version {d : Dependency} (h : d.OnLines) (style : Indent) {version : String}
    (hversion : d.version = some version) : style.Admits version :=
  h.admits style (by simp [texts, hversion])

end Dependency

namespace Editor

open Markup.Tree

variable {e e' e'' : Editor} {parent id : NodeId} {name text : String}

/-- `e'` comes from `e` by edits that keep its tree uniform. -/
structure Lays (e e' : Editor) : Prop where
  indent : e'.indent = e.indent
  tree : Tree.Lays e.indent e.tree e'.tree

theorem Lays.refl (h : e.tree.WellFormed) : Lays e e := ⟨rfl, .refl h⟩

theorem Lays.trans (h : Lays e e') (h' : Lays e' e'') : Lays e e'' :=
  ⟨h'.indent.trans h.indent, h.tree.trans (h.indent ▸ h'.tree)⟩

theorem child?_lt (h : e.tree.WellFormed) (hchild : e.child? parent name = some id) :
    id < e.tree.size :=
  h.child_lt (mem_children_of_named (List.mem_of_mem_head? hchild))

/-- A child that is ensured is added in the layout of the tree, if it is added. -/
theorem lays_ensureChild (h : e.tree.WellFormed) (hparent : parent < e.tree.size)
    (hname : e.child? parent name = none → e.indent.lineBreak.Only name) (order : List String) :
    Lays e (e.ensureChild parent name order).1 ∧
      (e.ensureChild parent name order).2 < (e.ensureChild parent name order).1.tree.size := by
  unfold ensureChild
  split
  · next present hpresent => exact ⟨.refl h, child?_lt h hpresent⟩
  · next hnone =>
    cases hsuccessor : e.successor? parent name order with
    | none =>
      obtain ⟨hid, hinserted⟩ := inserted_appendElement name h hparent e.indent
      exact ⟨⟨rfl, lays_appendElement h hparent (hname hnone)⟩, hid ▸ hinserted.size_lt⟩
    | some before =>
      obtain ⟨hid, _, _, hinserted⟩ :=
        inserted_insertElementBefore name h hparent before e.indent
      have helement : e.tree.isElement before = true :=
        (List.mem_filter.mp (List.mem_of_find?_eq_some hsuccessor)).2
      exact ⟨⟨rfl, lays_insertElementBefore h hparent (hname hnone) helement⟩,
        hid ▸ hinserted.size_lt⟩

theorem lays_setText (h : e.tree.WellFormed) (hid : id < e.tree.size)
    (htext : e.indent.Admits text) : Lays e (e.setText id text) := by
  unfold setText
  split
  · exact .refl h
  · exact ⟨rfl, Tree.lays_setText h hid htext.nonblank htext.breaks⟩

theorem lays_ensureBelow (h : e.tree.WellFormed) (hparent : parent < e.tree.size)
    {path : List String} (hpath : ∀ step ∈ path, '\n' ∉ step.toList) (order : List String) :
    Lays e (e.ensureBelow parent order path).1 ∧
      (e.ensureBelow parent order path).2 < (e.ensureBelow parent order path).1.tree.size := by
  induction path generalizing e parent order with
  | nil => exact ⟨.refl h, hparent⟩
  | cons step path ih =>
    obtain ⟨hstep, hpath⟩ := List.forall_mem_cons.mp hpath
    obtain ⟨hlays, hlt⟩ := lays_ensureChild h hparent
      (fun _ => LineBreak.only_of_not_mem hstep) order
    obtain ⟨hbelow, hid⟩ := ih hlays.tree.wellFormed hlt hpath []
    exact ⟨hlays.trans hbelow, hid⟩

theorem lays_addVersion (h : e.tree.WellFormed) (hid : id < e.tree.size)
    (htext : e.indent.Admits text) : Lays e (e.addVersion id text) := by
  have hname : '\n' ∉ "version".toList := by decide
  obtain ⟨hlays, hlt⟩ := lays_ensureChild h hid
    (fun _ => LineBreak.only_of_not_mem hname) ElementOrder.dependency
  exact hlays.trans (lays_setText hlays.tree.wellFormed hlt (hlays.indent ▸ htext))

/-! ## Entries -/

theorem lays_addField {t : Tree} {style : Indent} (h : t.WellFormed) (hparent : parent < t.size)
    {field : String × String} (hname : '\n' ∉ field.1.toList) (htext : style.Admits field.2) :
    Tree.Lays style t (addField parent style t field) := by
  obtain ⟨hid, hinserted⟩ := inserted_appendElement field.1 h hparent style
  have hlays : Tree.Lays style t (t.appendElement parent field.1 style).1 :=
    lays_appendElement h hparent (LineBreak.only_of_not_mem hname)
  rw [addField, appendTextElement]
  simp only [hid]
  exact hlays.trans
    (Tree.lays_setText hlays.wellFormed hinserted.size_lt htext.nonblank htext.breaks)

theorem lays_foldl_addField {t : Tree} {style : Indent} (h : t.WellFormed)
    (hparent : parent < t.size) {fields : List (String × String)}
    (hfields : ∀ field ∈ fields, '\n' ∉ field.1.toList ∧ style.Admits field.2) :
    Tree.Lays style t (fields.foldl (addField parent style) t) := by
  induction fields generalizing t with
  | nil => exact .refl h
  | cons field fields ih =>
    obtain ⟨⟨hname, htext⟩, hfields⟩ := List.forall_mem_cons.mp hfields
    have hfirst := lays_addField h hparent hname htext
    rw [List.foldl_cons]
    exact hfirst.trans (ih hfirst.wellFormed (Nat.lt_of_lt_of_le hparent hfirst.size_le) hfields)

/-- An entry's fields have the texts of the dependency, and the version that is to be written. -/
theorem entryFields_admits {d : Dependency} (hd : d.OnLines) {version : Option String}
    {style : Indent} (hversion : ∀ text ∈ version, style.Admits text) :
    ∀ field ∈ entryFields d version, '\n' ∉ field.1.toList ∧ style.Admits field.2 := by
  have hgroup : '\n' ∉ "groupId".toList := by decide
  have hartifact : '\n' ∉ "artifactId".toList := by decide
  have hnamed : '\n' ∉ "version".toList := by decide
  have htype : '\n' ∉ "type".toList := by decide
  have hclassifier : '\n' ∉ "classifier".toList := by decide
  have hscope : '\n' ∉ "scope".toList := by decide
  intro field hfield
  simp only [entryFields, List.mem_append, List.mem_cons, List.not_mem_nil, or_false,
    Option.mem_toList, Option.map_eq_some_iff] at hfield
  rcases hfield with ((((rfl | rfl) | ⟨text, htext, rfl⟩) | hjar) | ⟨text, htext, rfl⟩) | hcompile
  · exact ⟨hgroup, hd.admits style (by simp [Dependency.texts])⟩
  · exact ⟨hartifact, hd.admits style (by simp [Dependency.texts])⟩
  · exact ⟨hnamed, hversion text htext⟩
  · split at hjar
    · cases hjar
    · obtain rfl := List.mem_singleton.mp hjar
      exact ⟨htype, hd.admits style (by simp [Dependency.texts])⟩
  · exact ⟨hclassifier, hd.admits style (by simp [Dependency.texts, htext])⟩
  · split at hcompile
    · cases hcompile
    · obtain rfl := List.mem_singleton.mp hcompile
      exact ⟨hscope, hd.admits style (by simp [Dependency.texts])⟩

theorem lays_appendDependency (h : e.tree.WellFormed) (hid : id < e.tree.size) {d : Dependency}
    (hd : d.OnLines) {version : Option String}
    (hversion : ∀ text ∈ version, e.indent.Admits text) :
    Lays e (e.appendDependency id d version) := by
  obtain ⟨-, hinserted⟩ := inserted_appendElement "dependency" h hid e.indent
  have hname : '\n' ∉ "dependency".toList := by decide
  have hlays : Tree.Lays e.indent e.tree (e.tree.appendElement id "dependency" e.indent).1 :=
    lays_appendElement h hid (LineBreak.only_of_not_mem hname)
  refine ⟨rfl, ?_⟩
  rw [tree_appendDependency h hid]
  exact hlays.trans
    (lays_foldl_addField hlays.wellFormed hinserted.size_lt (entryFields_admits hd hversion))

theorem lays_addEntry (h : e.tree.WellFormed) (hroot : e.root < e.tree.size)
    {container : List String} (hcontainer : ∀ step ∈ container, '\n' ∉ step.toList)
    {d : Dependency} (hd : d.OnLines) {version : Option String}
    (hversion : ∀ text ∈ version, e.indent.Admits text) :
    Lays e (Insertion.addEntry container d version e) := by
  obtain ⟨hlays, hlt⟩ := lays_ensureBelow h hroot hcontainer ElementOrder.project
  refine hlays.trans (lays_appendDependency hlays.tree.wellFormed hlt hd fun text htext => ?_)
  exact hlays.indent ▸ hversion text htext

/-! ## Properties -/

theorem owner?_lt (h : e.tree.WellFormed) (hroot : e.root < e.tree.size) {scope : PropertyScope}
    (howner : e.owner? scope = some id) : id < e.tree.size := by
  cases scope with
  | project =>
    cases howner
    exact hroot
  | profile profile =>
    obtain ⟨profiles, -, hfind⟩ := Option.bind_eq_some_iff.mp howner
    exact h.child_lt (mem_children_of_named (List.mem_of_find?_eq_some hfind))

/-- A property is written in the layout of the tree. Where it is declared, its name may be any. -/
theorem lays_setProperty (h : e.tree.WellFormed) (hroot : e.root < e.tree.size)
    {scope : PropertyScope} (hname : e.property? scope name = none → e.indent.lineBreak.Only name)
    (htext : e.indent.Admits text) : Lays e (e.setProperty scope name text) := by
  unfold setProperty
  cases howner : e.owner? scope with
  | none => exact .refl h
  | some owner =>
    have hproperties : '\n' ∉ "properties".toList := by decide
    obtain ⟨hblock, hlt⟩ := lays_ensureChild h (owner?_lt h hroot howner)
      (fun _ => LineBreak.only_of_not_mem hproperties) (blockOrder scope)
    have hdeclared : (e.ensureChild owner "properties" (blockOrder scope)).1.child?
        (e.ensureChild owner "properties" (blockOrder scope)).2 name = none →
        e.property? scope name = none := by
      intro hnone
      unfold property?
      rw [howner, Option.bind_some]
      cases hchild : e.child? owner "properties" with
      | none => rfl
      | some block =>
        rw [ensureChild, hchild] at hnone
        rw [Option.bind_some, hnone]
        rfl
    obtain ⟨hproperty, hid⟩ := lays_ensureChild hblock.tree.wellFormed hlt
      (fun hnone => hblock.indent ▸ hname (hdeclared hnone)) []
    have hboth := hblock.trans hproperty
    exact hboth.trans (lays_setText hboth.tree.wellFormed hid (hboth.indent ▸ htext))

/-! ## Elements that are looked up -/

theorem lt_of_findDependency? (h : e.tree.WellFormed) (hroot : e.root < e.tree.size)
    {container : List String} {key : ArtifactKey} {entry : NodeId}
    (hentry : e.findDependency? container key = some entry) : entry < e.tree.size :=
  h.lt_of_select hroot (List.mem_of_mem_filter (List.mem_of_mem_head? hentry))

end Editor

end MavenPom
