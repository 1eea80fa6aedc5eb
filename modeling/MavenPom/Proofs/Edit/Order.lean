import MavenPom.Edit.Insertion
import MavenPom.Proofs.Edit.Slot
import MavenPom.Proofs.Markup.Order
import Mathlib.Data.List.Find

/-!
# Editing POMs in order

The edits of a POM keep the order of its elements. A block of properties, a container or a version
is added at its place, and an entry that is added has its fields in order.
-/

namespace MavenPom

open Markup Markup.Tree ElementOrder

/-! ## Elements inside the root element -/

namespace Markup.Tree

variable {t t' : Tree} {x parent : NodeId} {name : String}

/-- The root element, or what comes after it. -/
def FromRoot (t : Tree) (x : NodeId) : Prop := ∃ r ∈ t.rootElement?, r ≤ x

/-- An element of a name, inside the root element. -/
structure Nested (t : Tree) (name : String) (x : NodeId) : Prop where
  lt : x < t.size
  inside : ∃ r ∈ t.rootElement?, r < x
  named : t.localName x = name

namespace Nested

theorem keepsOrder (h : t.Nested name x) (hkeeps : t.KeepsOrder t') : t'.Nested name x where
  lt := Nat.lt_of_lt_of_le h.lt hkeeps.size_le
  inside := hkeeps.rootElement? ▸ h.inside
  named := (hkeeps.localName_eq h.lt).trans h.named

theorem order?_eq (h : t.Nested name x) : t.order? x = named? name := by
  obtain ⟨r, hr, hlt⟩ := h.inside
  rw [order?, h.named, if_neg]
  intro hroot
  obtain rfl := Option.some.inj (hr.symm.trans hroot)
  exact Nat.lt_irrefl _ hlt

theorem child (ht : t.WellFormed) (hparent : t.FromRoot parent)
    (hx : x ∈ t.children parent) (hname : t.localName x = name) : t.Nested name x := by
  obtain ⟨r, hr, hle⟩ := hparent
  exact ⟨ht.child_lt hx, ⟨r, hr, Nat.lt_of_le_of_lt hle (ht.lt_child hx)⟩, hname⟩

theorem fromRoot (h : t.Nested name x) : t.FromRoot x := by
  obtain ⟨r, hr, hlt⟩ := h.inside
  exact ⟨r, hr, Nat.le_of_lt hlt⟩

/-- The last name of a path is that of the elements that it leads to. -/
theorem select (ht : t.WellFormed) {ns : Option String} {path : List String}
    (hparent : t.FromRoot parent) (hx : x ∈ t.select ns (path ++ [name]) parent) :
    t.Nested name x := by
  induction path generalizing parent with
  | nil =>
    obtain ⟨c, hc, hx⟩ := mem_select_cons.mp hx
    obtain rfl : x = c := by simpa [Tree.select] using hx
    exact child ht hparent (mem_children_of_named hc) (localName_of_mem hc)
  | cons step path ih =>
    obtain ⟨c, hc, hx⟩ := mem_select_cons.mp hx
    exact ih (child ht hparent (mem_children_of_named hc) (localName_of_mem hc)).fromRoot hx

end Nested

theorem FromRoot.keepsOrder (h : t.FromRoot x) (hkeeps : t.KeepsOrder t') : t'.FromRoot x := by
  rwa [FromRoot, hkeeps.rootElement?]

theorem WellFormed.root_lt (ht : t.WellFormed) (h : t.FromRoot x) : root < x := by
  obtain ⟨r, hr, hle⟩ := h
  exact Nat.lt_of_lt_of_le (ht.lt_child (List.mem_of_find?_eq_some hr)) hle

/-- An element that has been added is a child with its name. -/
theorem Inserted.nested {front back : List NodeId} (h : Inserted t t' parent name front back)
    (hkeeps : t.KeepsOrder t') (hparent : t.FromRoot parent) :
    t.size ∈ t'.children parent ∧ (':' ∉ name.toList → t'.Nested name t.size) := by
  have hchild : t.size ∈ t'.children parent := by
    have hmem : t.size ∈ t'.childElements parent := by simp [h.after]
    exact List.mem_of_mem_filter hmem
  refine ⟨hchild, fun hname => ?_⟩
  refine .child h.wellFormed (hparent.keepsOrder hkeeps) hchild ?_
  rw [localName, h.element?_new]
  exact (elementUnder_spec hname).1

end Markup.Tree

namespace Editor

variable {e : Editor} {parent : NodeId} {name : String} {order : List String}

/-! ## Adding elements -/

/-- The successor of a name is the first child element whose place is after its own. -/
theorem successor?_cases (e : Editor) (parent : NodeId) (name : String) (order : List String) :
    (e.successor? parent name order = none ∧ ∀ x ∈ e.tree.childElements parent,
        isAfter order (e.tree.localName x) name = false) ∨
      ∃ before front back, e.successor? parent name order = some before ∧
        e.tree.childElements parent = front ++ before :: back ∧
        isAfter order (e.tree.localName before) name = true ∧
        ∀ x ∈ front, isAfter order (e.tree.localName x) name = false := by
  have hafter : e.successor? parent name order = (e.tree.childElements parent).find? fun x =>
      isAfter order (e.tree.localName x) name := by
    refine List.find?_congr fun x hx => ?_
    obtain ⟨element, helement⟩ := Option.isSome_iff_exists.mp (List.mem_filter.mp hx).2
    rw [localName, helement]
    rfl
  rw [hafter]
  cases hfind : (e.tree.childElements parent).find? fun x =>
      isAfter order (e.tree.localName x) name with
  | none => exact .inl ⟨rfl, by simpa using hfind⟩
  | some before =>
    obtain ⟨hbefore, front, back, hsplit, hfront⟩ := List.find?_eq_some_iff_append.mp hfind
    exact .inr ⟨before, front, back, rfl, hsplit, hbefore, by simpa using hfront⟩

/-- A child that is ensured is there already, or is added where its name is in order. -/
theorem ensureChild_places (h : e.tree.WellFormed) (hlt : parent < e.tree.size) (name : String)
    (order : List String) :
    (∃ c ∈ e.tree.childrenNamed parent e.ns name, e.ensureChild parent name order = (e, c)) ∨
      ∃ tree front back,
        e.ensureChild parent name order = ({ e with tree, dirty := true }, e.tree.size) ∧
        Inserted e.tree tree parent name front back ∧
        (∀ x, e.tree.size < x → x < tree.size → ∃ raw, tree.content x = .text raw) ∧
        (∀ x ∈ front, isAfter order (e.tree.localName x) name = false) ∧
        ∀ x ∈ back.head?, isAfter order (e.tree.localName x) name = true := by
  unfold ensureChild
  split
  · next present hpresent => exact .inl ⟨present, List.mem_of_mem_head? hpresent, rfl⟩
  · refine .inr ?_
    rcases e.successor?_cases parent name order with
      ⟨hnone, hbefore⟩ | ⟨before, front, back, hsome, hsplit, hafter, hbefore⟩
    · obtain ⟨hid, hinserted⟩ := inserted_appendElement name h hlt e.indent
      rw [hnone]
      refine ⟨_, _, _, by simp [hid], hinserted, fun x hx hlt => ?_, hbefore, by simp⟩
      exact (content_appendElement _ x hx hlt).imp' _ fun _ => id
    · obtain ⟨hid, hinserted⟩ := inserted_before h hlt hsplit name e.indent
      rw [hsome]
      refine ⟨_, _, _, by simp [hid], hinserted, fun x hx hlt => ?_, hbefore, by simpa using hafter⟩
      exact (content_insertElementBefore _ _ x hx hlt).imp' _ fun _ => id

theorem keepsOrder_ensureChild (h : e.tree.WellFormed) (hlt : parent < e.tree.size)
    (hin : e.tree.FromRoot parent)
    (horder : ∀ o ∈ e.tree.order? parent, o = order ∧ name ∈ order) :
    e.tree.KeepsOrder (e.ensureChild parent name order).1.tree ∧
      (e.ensureChild parent name order).2 ∈
        (e.ensureChild parent name order).1.tree.children parent ∧
      (':' ∉ name.toList → (e.ensureChild parent name order).1.tree.Nested name
        (e.ensureChild parent name order).2) := by
  rcases ensureChild_places h hlt name order with
    ⟨c, hc, heq⟩ | ⟨tree, front, back, heq, hinserted, htext, hfront, hback⟩
  · have hchild := mem_children_of_named hc
    rw [heq]
    exact ⟨.refl h, hchild, fun _ => .child h hin hchild (localName_of_mem hc)⟩
  · have hkeeps : e.tree.KeepsOrder tree := by
      refine hinserted.keepsOrder h (h.root_lt hin) hlt htext fun o ho => ?_
      obtain ⟨rfl, hname⟩ := horder o ho
      exact ⟨hname, hfront, hback⟩
    rw [heq]
    exact ⟨hkeeps, hinserted.nested hkeeps hin⟩

/-- A version, a property or an element that has been added may be given a text. -/
theorem keepsOrder_setText {t : Tree} {x : NodeId} (h : t.KeepsOrder e.tree)
    (hin : e.tree.FromRoot x) (hlt : x < e.tree.size)
    (hvalue : x < t.size → e.tree.IsValue x) (text : String) :
    t.KeepsOrder (e.setText x text).tree := by
  unfold setText
  split
  · exact h
  · exact h.setText hlt (Nat.ne_of_gt (h.wellFormed.root_lt hin)) hvalue text

theorem keepsOrder_addVersion (h : e.tree.WellFormed) {entry : NodeId}
    (hentry : e.tree.Nested "dependency" entry) (version : String) :
    e.tree.KeepsOrder (e.addVersion entry version).tree := by
  have hplace : ∀ o ∈ e.tree.order? entry, o = dependency ∧ "version" ∈ dependency := by
    intro o ho
    rw [hentry.order?_eq] at ho
    exact ⟨(Option.some.inj ho).symm, by decide⟩
  obtain ⟨hkeeps, -, hnested⟩ := keepsOrder_ensureChild h hentry.lt hentry.fromRoot hplace
  have hversion := hnested (by decide)
  exact keepsOrder_setText hkeeps hversion.fromRoot hversion.lt (fun _ => .inl hversion.named)
    version

/-! ## Properties -/

/-- The elements that blocks of properties are in have an order. -/
theorem order?_of_owner? (h : e.Sound) {scope : PropertyScope} {owner : NodeId}
    (howner : e.owner? scope = some owner) : owner < e.tree.size ∧
      e.tree.FromRoot owner ∧ e.tree.order? owner = some (blockOrder scope) := by
  cases scope with
  | project =>
    obtain rfl : e.root = owner := Option.some.inj howner
    exact ⟨h.root_lt, ⟨_, h.rootElement?, Nat.le_refl _⟩, if_pos h.rootElement?⟩
  | profile profile =>
    have hmem : owner ∈ e.tree.select e.ns (["profiles"] ++ ["profile"]) e.root :=
      mem_select_of_profile? howner
    have hnested : e.tree.Nested "profile" owner :=
      .select h.wellFormed ⟨_, h.rootElement?, Nat.le_refl _⟩ hmem
    exact ⟨hnested.lt, hnested.fromRoot, hnested.order?_eq⟩

/-- A property is written in its block, which is added at its place. -/
theorem keepsOrder_setProperty (h : e.Sound) (scope : PropertyScope) (name value : String) :
    e.tree.KeepsOrder (e.setProperty scope name value).tree := by
  unfold setProperty
  cases howner : e.owner? scope with
  | none => exact .refl h.wellFormed
  | some owner =>
    obtain ⟨hlt, hin, horder⟩ := order?_of_owner? h howner
    have hplace : ∀ o ∈ e.tree.order? owner,
        o = blockOrder scope ∧ "properties" ∈ blockOrder scope := by
      intro o ho
      rw [horder] at ho
      refine ⟨(Option.some.inj ho).symm, ?_⟩
      cases scope
      · exact (by decide : "properties" ∈ ElementOrder.project)
      · exact (by decide : "properties" ∈ ElementOrder.profile)
    obtain ⟨hkeeps, -, hnested⟩ := keepsOrder_ensureChild h.wellFormed hlt hin hplace
    have hblock := hnested (by decide)
    have hunordered : ∀ o ∈ (e.ensureChild owner "properties" (blockOrder scope)).1.tree.order?
        (e.ensureChild owner "properties" (blockOrder scope)).2, o = [] ∧ name ∈ [] := by
      intro o ho
      rw [hblock.order?_eq] at ho
      cases ho
    obtain ⟨hkeeps', hchild, -⟩ :=
      keepsOrder_ensureChild hkeeps.wellFormed hblock.lt hblock.fromRoot hunordered
    refine keepsOrder_setText (hkeeps.trans hkeeps') ?_ (hkeeps'.wellFormed.child_lt hchild)
      (fun _ => .inr ⟨_, hkeeps'.wellFormed.parent_eq hchild, ?_⟩) value
    · obtain ⟨r, hr, hle⟩ := (hblock.keepsOrder hkeeps').fromRoot
      exact ⟨r, hr, Nat.le_trans hle (Nat.le_of_lt (hkeeps'.wellFormed.lt_child hchild))⟩
    · exact (hblock.keepsOrder hkeeps').named

/-! ## Entries -/

/-- A field is added behind the other ones of an entry. -/
theorem keepsOrder_addField {t : Tree} {entry : NodeId} (h : t.WellFormed)
    (hentry : t.Nested "dependency" entry) (field : String × String) {more : List String}
    (hfields : (t.childNames entry ++ field.1 :: more).Sublist dependency) (style : Indent) :
    t.KeepsOrder (addField entry style t field) ∧
      (addField entry style t field).childNames entry = t.childNames entry ++ [field.1] := by
  obtain ⟨hid, hinserted⟩ := inserted_appendElement field.1 h hentry.lt style
  have hmem : field.1 ∈ dependency := hfields.subset (by simp)
  have hsorted : InOrder dependency (t.childNames entry ++ field.1 :: more) :=
    InOrder.sublist (by decide : InOrder dependency dependency) hfields
  have hstep : t.KeepsOrder (t.appendElement entry field.1 style).1 := by
    refine hinserted.keepsOrder h (h.root_lt hentry.fromRoot) hentry.lt (fun x hx hlt =>
      (content_appendElement _ x hx hlt).imp' _ fun _ => id) fun order horder => ?_
    rw [hentry.order?_eq] at horder
    obtain rfl := Option.some.inj horder
    exact ⟨hmem, fun x hx => hsorted.isAfter_eq_false _ (List.mem_map_of_mem hx), by simp⟩
  rw [addField, appendTextElement_eq h hentry.lt]
  have hroot : t.size ≠ Tree.root := Nat.ne_of_gt (Nat.lt_of_le_of_lt (Nat.zero_le _) hentry.lt)
  refine ⟨hstep.setText hinserted.size_lt hroot (fun hlt => absurd hlt (Nat.lt_irrefl _)) _, ?_⟩
  have hsame : ((t.appendElement entry field.1 style).1.setText t.size field.2).childNames entry =
      (t.appendElement entry field.1 style).1.childNames entry := by
    refine (childNames_congr hinserted.wellFormed (fun x hx => ?_) ?_).2
    · rw [content_setText, if_neg (Nat.ne_of_lt hx)]
    · rw [children_setText _ hinserted.size_lt, if_neg (Nat.ne_of_gt hentry.lt)]
  have hcolon : ':' ∉ field.1.toList :=
    not_mem_of_named? (show named? "dependency" = some dependency from rfl) hmem
  rw [hsame, (hinserted.childNames_eq h hcolon).2]
  rfl

/-- Fields that are added to an entry one by one are in order, if all of them together are. -/
theorem keepsOrder_foldl_addField {t : Tree} {entry : NodeId} (h : t.WellFormed)
    (hentry : t.Nested "dependency" entry) {fields : List (String × String)}
    (hfields : (t.childNames entry ++ fields.map (·.1)).Sublist dependency) (style : Indent) :
    t.KeepsOrder (fields.foldl (addField entry style) t) := by
  induction fields generalizing t with
  | nil => exact .refl h
  | cons field fields ih =>
    obtain ⟨hstep, hnames⟩ := keepsOrder_addField h hentry field hfields style
    rw [List.foldl_cons]
    refine hstep.trans (ih hstep.wellFormed (hentry.keepsOrder hstep) ?_)
    rw [hnames, List.append_assoc]
    exact hfields

/-- A new entry has its fields in order, each of them once. -/
theorem sublist_entryFields (d : Dependency) (version : Option String) :
    ((entryFields d version).map (·.1)).Sublist dependency := by
  have hversion : ((version.map ("version", ·)).toList.map (·.1)).Sublist ["version"] := by
    cases version <;> simp
  have hjar : ((if d.packaging = "jar" then [] else [("type", d.packaging)]).map (·.1)).Sublist
      ["type"] := by split <;> simp
  have hclassifier : ((d.classifier.map ("classifier", ·)).toList.map (·.1)).Sublist
      ["classifier"] := by cases d.classifier <;> simp
  have hcompile : ((if d.scope = "compile" then [] else [("scope", d.scope)]).map (·.1)).Sublist
      ["scope"] := by split <;> simp
  have hnames : ["groupId", "artifactId", "version", "type", "classifier", "scope"].Sublist
      dependency := by decide
  rw [entryFields, List.map_append, List.map_append, List.map_append, List.map_append]
  refine List.Sublist.trans ?_ hnames
  exact ((((List.Sublist.refl _).append hversion).append hjar).append hclassifier).append hcompile

/-- An entry is added behind the others, with its fields in order. -/
theorem keepsOrder_appendDependency (h : e.tree.WellFormed) {container : NodeId}
    (hcontainer : e.tree.Nested name container) (hname : named? name = none) (d : Dependency)
    (version : Option String) :
    e.tree.KeepsOrder (e.appendDependency container d version).tree := by
  obtain ⟨hid, hinserted⟩ := inserted_appendElement "dependency" h hcontainer.lt e.indent
  have hstep : e.tree.KeepsOrder (e.tree.appendElement container "dependency" e.indent).1 := by
    refine hinserted.keepsOrder h (h.root_lt hcontainer.fromRoot) hcontainer.lt (fun x hx hlt =>
      (content_appendElement _ x hx hlt).imp' _ fun _ => id) fun order horder => ?_
    rw [hcontainer.order?_eq, hname] at horder
    cases horder
  have hentry := (hinserted.nested hstep hcontainer.fromRoot).2 (by decide)
  rw [tree_appendDependency h hcontainer.lt]
  refine hstep.trans (keepsOrder_foldl_addField hstep.wellFormed hentry ?_ e.indent)
  rw [childNames, childElements, hinserted.children_new]
  exact sublist_entryFields d version

/-- What a path leads to has no order where the names on it have none. -/
theorem keepsOrder_ensureBelow (h : e.tree.WellFormed) (hparent : e.tree.Nested name parent)
    (hname : named? name = none) {path : List String}
    (hpath : ∀ step ∈ path, ':' ∉ step.toList ∧ named? step = none) :
    e.tree.KeepsOrder (e.ensureBelow parent [] path).1.tree ∧
      ∃ last, named? last = none ∧
        (e.ensureBelow parent [] path).1.tree.Nested last (e.ensureBelow parent [] path).2 := by
  induction path generalizing e parent name with
  | nil => exact ⟨.refl h, name, hname, hparent⟩
  | cons step path ih =>
    obtain ⟨⟨hcolon, hstep⟩, hpath⟩ := List.forall_mem_cons.mp hpath
    have hunordered : ∀ o ∈ e.tree.order? parent, o = [] ∧ step ∈ [] := by
      intro o ho
      rw [hparent.order?_eq, hname] at ho
      cases ho
    obtain ⟨hkeeps, -, hnested⟩ :=
      keepsOrder_ensureChild h hparent.lt hparent.fromRoot hunordered
    obtain ⟨hkeeps', hbelow⟩ := ih hkeeps.wellFormed (hnested hcolon) hstep hpath
    exact ⟨hkeeps.trans hkeeps', hbelow⟩

/-- Containers are added at their places, where there are none. -/
theorem keepsOrder_addEntry (h : e.Sound) (c : Container) (d : Dependency)
    (version : Option String) : e.tree.KeepsOrder (Insertion.addEntry c.path d version e).tree := by
  have hfirst : c.first ∈ ElementOrder.project ∧ ':' ∉ c.first.toList ∧ named? c.first = none := by
    cases c <;> decide
  have hbelow : ∀ step ∈ c.below, ':' ∉ step.toList ∧ named? step = none := by cases c <;> decide
  have hplace : ∀ o ∈ e.tree.order? e.root,
      o = ElementOrder.project ∧ c.first ∈ ElementOrder.project := by
    intro o ho
    rw [order?, if_pos h.rootElement?] at ho
    exact ⟨(Option.some.inj ho).symm, hfirst.1⟩
  obtain ⟨hkeeps, -, hnested⟩ := keepsOrder_ensureChild h.wellFormed h.root_lt
    ⟨_, h.rootElement?, Nat.le_refl _⟩ hplace
  obtain ⟨hkeeps', last, hlast, hcontainer⟩ :=
    keepsOrder_ensureBelow hkeeps.wellFormed (hnested hfirst.2.1) hfirst.2.2 hbelow
  rw [Insertion.addEntry, ensurePath, c.path_eq]
  exact (hkeeps.trans hkeeps').trans
    (keepsOrder_appendDependency hkeeps'.wellFormed hcontainer hlast d version)

/-! ## Bringing in an entry -/

section Entries

variable {c : Container} {key : ArtifactKey}

theorem nested_of_findDependency? (h : e.Sound) {entry : NodeId}
    (hentry : e.findDependency? c.path key = some entry) : e.tree.Nested "dependency" entry :=
  .select h.wellFormed ⟨_, h.rootElement?, Nat.le_refl _⟩ (mem_entryIds_of_findDependency? hentry)

theorem keepsOrder_bring (h : e.Sound) (c : Container) (d : Dependency) (version : String) :
    e.tree.KeepsOrder (e.bring c d version).tree := by
  unfold bring
  split
  · next hentry => exact keepsOrder_addVersion h.wellFormed (nested_of_findDependency? h hentry) _
  · exact keepsOrder_addEntry h c d _

theorem keepsOrder_enlist (h : e.Sound) (c : Container) (d : Dependency) :
    e.tree.KeepsOrder (e.enlist c d).tree := by
  unfold enlist
  split
  · exact .refl h.wellFormed
  · exact keepsOrder_addEntry h c d none

end Entries

end Editor

end MavenPom
