import MavenPom.Edit.Insertion
import MavenPom.Proofs.Edit.Append

/-!
# Growth below the root element

Whatever is edited below the root element, what stands around that element stays as it is, and so
does its own start tag. Once something has been edited, the element is not empty.
-/

namespace MavenPom.Markup.Tree

variable {t t' t'' : Tree} {r parent x : NodeId}

/-- `r` is the root element of `t`, with content that opens without an end tag. -/
structure Rooted (t : Tree) (r : NodeId) : Prop where
  wellFormed : t.WellFormed
  document : t.content root = .document
  rootElement? : t.rootElement? = some r
  opens_root : Opens (t.content r)
  opens : ∀ c ∈ t.children r, Opens (t.content c)

/-- `t'` is `t` with more content below its root element `r`, or with other texts there. -/
structure Grown (r : NodeId) (t t' : Tree) : Prop where
  rooted : t'.Rooted r
  size_le : t.size ≤ t'.size
  content_eq : ∀ x < t.size, t'.content x = t.content x
  children_root : t'.children root = t.children root
  grown : t' = t ∨ t'.children r ≠ []

/-- `x` is an element below the root element `r`. -/
structure Inner (t : Tree) (r x : NodeId) : Prop where
  isElement : t.isElement x = true
  not_mem : x ∉ t.children root
  nonempty : t.children r ≠ []

theorem Rooted.mem_children (h : t.Rooted r) : r ∈ t.children root :=
  List.mem_of_find?_eq_some h.rootElement?

theorem Rooted.isElement (h : t.Rooted r) : t.isElement r = true :=
  List.find?_some h.rootElement?

theorem lt_of_isElement (h : t.isElement x = true) : x < t.size := by
  obtain ⟨e, he⟩ := Option.isSome_iff_exists.mp h
  exact lt_size_of_element? he

theorem Rooted.ne_root (h : t.Rooted r) (hx : t.isElement x = true) : x ≠ root := by
  rintro rfl
  rw [Tree.isElement, element?, h.document] at hx
  cases hx

theorem Grown.refl (h : t.Rooted r) : Grown r t t :=
  ⟨h, Nat.le_refl _, fun _ _ => rfl, rfl, .inl rfl⟩

theorem Grown.trans (h : Grown r t t') (h' : Grown r t' t'') : Grown r t t'' where
  rooted := h'.rooted
  size_le := Nat.le_trans h.size_le h'.size_le
  content_eq x hx := (h'.content_eq x (Nat.lt_of_lt_of_le hx h.size_le)).trans (h.content_eq x hx)
  children_root := h'.children_root.trans h.children_root
  grown := by
    rcases h'.grown with rfl | hne
    · exact h.grown
    · exact .inr hne

theorem Inner.ne (h : t.Inner r x) (ht : t.Rooted r) : x ≠ r := by
  rintro rfl
  exact h.not_mem ht.mem_children

theorem Inner.grown (h : t.Inner r x) (hgrown : Grown r t t') : t'.Inner r x where
  isElement := by
    rw [isElement_congr (hgrown.content_eq x (lt_of_isElement h.isElement))]
    exact h.isElement
  not_mem := hgrown.children_root ▸ h.not_mem
  nonempty := by
    rcases hgrown.grown with rfl | hne
    · exact h.nonempty
    · exact hne

/-- An element of the root element or below is one that has its children below. -/
def Holds (t : Tree) (r x : NodeId) : Prop := x = r ∨ t.Inner r x

theorem Holds.isElement (h : t.Holds r x) (ht : t.Rooted r) : t.isElement x = true := by
  rcases h with rfl | h
  · exact ht.isElement
  · exact h.isElement

theorem Holds.inner (h : t.Holds r parent) (ht : t.Rooted r) (hx : x ∈ t.children parent)
    (helement : t.isElement x = true) : t.Inner r x where
  isElement := helement
  not_mem hmem := by
    have hparent := ht.wellFormed.parent_eq hx
    rw [ht.wellFormed.parent_eq hmem, Option.some.injEq] at hparent
    exact ht.ne_root (h.isElement ht) hparent.symm
  nonempty := by
    rcases h with rfl | h
    · exact List.ne_nil_of_mem hx
    · exact h.nonempty

theorem Holds.named (h : t.Holds r parent) (ht : t.Rooted r) {ns : Option String} {name : String}
    (hx : x ∈ t.childrenNamed parent ns name) : t.Inner r x := by
  have helements := (mem_childrenNamed.mp hx).1
  exact h.inner ht (mem_children_of_named hx) (List.mem_filter.mp helements).2

/-! ## Single edits -/

theorem Rooted.pos (h : t.Rooted r) : root < t.size := lt_size_of_mem_children h.mem_children

/-- Where old nodes keep their content, a root element keeps its place. -/
theorem Rooted.frame (h : t.Rooted r) (hwf : t'.WellFormed)
    (hcontent : ∀ x < t.size, t'.content x = t.content x)
    (hroot : t'.children root = t.children root)
    (hopens : ∀ c ∈ t'.children r, Opens (t'.content c)) : t'.Rooted r where
  wellFormed := hwf
  document := (hcontent root h.pos).trans h.document
  rootElement? := by
    have hsame : ∀ c ∈ t.children root, t'.isElement c = t.isElement c := fun c hc =>
      isElement_congr (hcontent c (h.wellFormed.child_lt hc))
    have hfind := h.rootElement?
    unfold Tree.rootElement? at hfind ⊢
    rw [hroot, ← List.head?_filter, List.filter_congr hsame, List.head?_filter]
    exact hfind
  opens_root := by
    rw [hcontent r (h.wellFormed.child_lt h.mem_children)]
    exact h.opens_root
  opens := hopens

theorem cut?_head {mark before after : List Char} {c : Char} {cs : List Char}
    (h : Text.cut? mark (c :: cs) = some (before, after)) :
    before = [] ∨ ∃ rest, before = c :: rest := by
  rw [Text.cut?] at h
  split at h
  · cases h
    exact .inl rfl
  · obtain ⟨⟨front, back⟩, -, heq⟩ := Option.map_eq_some_iff.mp h
    cases heq
    exact .inr ⟨front, rfl⟩

/-- An element with the prefix of the root element opens as that one does. -/
theorem Rooted.opens_elementUnder (h : t.Rooted r) {name : String} {c : Char} {cs : List Char}
    (hname : name.toList = c :: cs) (hc : c ≠ '/') :
    Opens (.element (t.elementUnder r name)) := by
  obtain ⟨e, he⟩ := Option.isSome_iff_exists.mp h.isElement
  have hopens := h.opens_root
  rw [element?_eq_some_iff.mp he] at hopens
  obtain ⟨first, rest, hfirst, hne⟩ := hopens
  unfold elementUnder
  rw [he, Option.bind_some]
  cases hprefix : e.nsPrefix with
  | none => exact ⟨c, cs, hname, hc⟩
  | some p =>
    obtain ⟨⟨before, after⟩, hsplit, rfl⟩ := Option.map_eq_some_iff.mp hprefix
    obtain ⟨⟨front, back⟩, hcut, heq⟩ := Option.map_eq_some_iff.mp hsplit
    cases heq
    rw [hfirst] at hcut
    have htext : (String.ofList front ++ ":" ++ name).toList = front ++ ':' :: name.toList := by
      simp [String.toList_append]
    rcases cut?_head hcut with rfl | ⟨more, rfl⟩
    · exact ⟨':', name.toList, htext, by decide⟩
    · exact ⟨first, _, htext, hne⟩

theorem Inserted.grown {name : String} {front back : List NodeId}
    (h : Inserted t t' parent name front back) (ht : t.Rooted r) (hparent : t.Holds r parent)
    (hname : parent = r → ∃ c cs, name.toList = c :: cs ∧ c ≠ '/') :
    Grown r t t' ∧ t'.Inner r t.size := by
  have hne : parent ≠ root := ht.ne_root (hparent.isElement ht)
  have hroot : t'.children root = t.children root := h.children root ht.pos hne.symm
  have hnew : t.size ∈ t'.children parent := by
    have hmem : t.size ∈ t'.childElements parent := by
      rw [h.after]
      simp
    exact List.mem_of_mem_filter hmem
  have hlt : r < t.size := ht.wellFormed.child_lt ht.mem_children
  have hold : ∀ c ∈ t.children r, Opens (t'.content c) := by
    intro c hc
    rw [h.content c (ht.wellFormed.child_lt hc)]
    exact ht.opens c hc
  have hopens : ∀ c ∈ t'.children r, Opens (t'.content c) := by
    intro c hc
    by_cases heq : parent = r
    · subst heq
      rcases h.added c hc with hc | rfl | hc
      · exact hold c hc
      · obtain ⟨first, rest, hfirst, hslash⟩ := hname rfl
        rw [h.content_new]
        exact ht.opens_elementUnder hfirst hslash
      · exact hc
    · rw [h.children r hlt (Ne.symm heq)] at hc
      exact hold c hc
  have hnonempty : t'.children r ≠ [] := by
    by_cases heq : parent = r
    · subst heq
      exact List.ne_nil_of_mem hnew
    · rw [h.children r hlt (Ne.symm heq)]
      exact (hparent.resolve_left heq).nonempty
  have hrooted := ht.frame h.wellFormed h.content hroot hopens
  refine ⟨⟨hrooted, Nat.le_of_lt h.size_lt, h.content, hroot, .inr hnonempty⟩, ?_, ?_, hnonempty⟩
  · rw [Tree.isElement, h.element?_new]
    rfl
  · rw [hroot]
    exact ht.wellFormed.fresh_not_mem (Nat.le_refl _) root

theorem grown_setText (ht : t.Rooted r) (hx : t.Inner r x) (text : String) :
    Grown r t (t.setText x text) := by
  have hlt := lt_of_isElement hx.isElement
  have hcontent : ∀ y < t.size, (t.setText x text).content y = t.content y := by
    intro y hy
    rw [content_setText, if_neg (Nat.ne_of_lt hy)]
  have hroot : (t.setText x text).children root = t.children root := by
    rw [children_setText text hlt, if_neg (ht.ne_root hx.isElement)]
  have hchildren : (t.setText x text).children r = t.children r := by
    rw [children_setText text hlt, if_neg (hx.ne ht)]
  have hopens : ∀ c ∈ (t.setText x text).children r, Opens ((t.setText x text).content c) := by
    intro c hc
    rw [hchildren] at hc
    rw [hcontent c (ht.wellFormed.child_lt hc)]
    exact ht.opens c hc
  refine ⟨ht.frame (ht.wellFormed.setText text hlt) hcontent hroot hopens, ?_, hcontent, hroot, ?_⟩
  · rw [size_setText]
    exact Nat.le_succ _
  · rw [hchildren]
    exact .inr hx.nonempty

end MavenPom.Markup.Tree

namespace MavenPom.Editor

open Markup Markup.Tree

variable {e : Editor} {parent x : NodeId} {name : String}

/-- `e'` is `e` with more below the root element. -/
structure Grown (e e' : Editor) : Prop where
  root_eq : e'.root = e.root
  tree : Tree.Grown e.root e.tree e'.tree

theorem Grown.refl (h : e.tree.Rooted e.root) : Grown e e := ⟨rfl, .refl h⟩

theorem Grown.trans {e' e'' : Editor} (h : Grown e e') (h' : Grown e' e'') : Grown e e'' :=
  ⟨h'.root_eq.trans h.root_eq, h.tree.trans (h.root_eq ▸ h'.tree)⟩

theorem Grown.rooted {e' : Editor} (h : Grown e e') : e'.tree.Rooted e'.root :=
  h.root_eq ▸ h.tree.rooted

/-- A name that an element opens with, whatever its prefix is. -/
def IsOpening (name : String) : Prop := ∃ c cs, name.toList = c :: cs ∧ c ≠ '/'

/-- A child that is ensured is below the root element. -/
theorem grown_ensureChild (h : e.tree.Rooted e.root) (hparent : e.tree.Holds e.root parent)
    (name : String) (hname : parent = e.root → IsOpening name) (order : List String) :
    Grown e (e.ensureChild parent name order).1 ∧
      (e.ensureChild parent name order).1.tree.Inner (e.ensureChild parent name order).1.root
        (e.ensureChild parent name order).2 := by
  rcases e.ensureChild_cases h.wellFormed (lt_of_isElement (hparent.isElement h)) name order with
    ⟨c, rest, hnamed, heq⟩ | ⟨-, tree, front, back, hinserted, heq, -⟩
  · rw [heq]
    exact ⟨.refl h, hparent.named h (hnamed ▸ List.mem_cons_self ..)⟩
  · rw [heq]
    obtain ⟨hgrown, hinner⟩ := hinserted.grown h hparent hname
    exact ⟨⟨rfl, hgrown⟩, hinner⟩

theorem grown_setText (h : e.tree.Rooted e.root) (hx : e.tree.Inner e.root x) (text : String) :
    Grown e (e.setText x text) := by
  unfold setText
  split
  · exact .refl h
  · exact ⟨rfl, Tree.grown_setText h hx text⟩

theorem grown_ensureBelow (h : e.tree.Rooted e.root) (hparent : e.tree.Holds e.root parent)
    {path : List String} (hpath : ∀ step ∈ path, IsOpening step) (order : List String) :
    Grown e (e.ensureBelow parent order path).1 ∧
      (e.ensureBelow parent order path).1.tree.Holds (e.ensureBelow parent order path).1.root
        (e.ensureBelow parent order path).2 := by
  induction path generalizing e parent order with
  | nil => exact ⟨.refl h, hparent⟩
  | cons step path ih =>
    obtain ⟨hstep, hpath⟩ := List.forall_mem_cons.mp hpath
    obtain ⟨hgrown, hinner⟩ := grown_ensureChild h hparent step (fun _ => hstep) order
    obtain ⟨hbelow, hholds⟩ := ih hgrown.rooted (.inr hinner) hpath []
    exact ⟨hgrown.trans hbelow, hholds⟩

theorem grown_appendElement {t : Tree} {r : NodeId} (h : t.Rooted r) (hparent : t.Holds r parent)
    (hname : IsOpening name) (style : Indent) :
    Tree.Grown r t (t.appendElement parent name style).1 ∧
      (t.appendElement parent name style).1.Inner r (t.appendElement parent name style).2 := by
  obtain ⟨hid, hinserted⟩ :=
    inserted_appendElement name h.wellFormed (lt_of_isElement (hparent.isElement h)) style
  rw [hid]
  exact hinserted.grown h hparent fun _ => hname

theorem grown_appendTextElement {t : Tree} {r : NodeId} (h : t.Rooted r)
    (hparent : t.Holds r parent) (hname : IsOpening name) (text : String) (style : Indent) :
    Tree.Grown r t (t.appendTextElement parent name text style).1 := by
  obtain ⟨hgrown, hinner⟩ := grown_appendElement h hparent hname style
  exact hgrown.trans (Tree.grown_setText hgrown.rooted hinner text)

theorem isOpening_of_mem_entryFields {d : Dependency} {version : Option String}
    {field : String × String} (hfield : field ∈ entryFields d version) : IsOpening field.1 := by
  have hgroup : IsOpening "groupId" := ⟨'g', _, rfl, by decide⟩
  have hartifact : IsOpening "artifactId" := ⟨'a', _, rfl, by decide⟩
  have hversion : IsOpening "version" := ⟨'v', _, rfl, by decide⟩
  have htype : IsOpening "type" := ⟨'t', _, rfl, by decide⟩
  have hclassifier : IsOpening "classifier" := ⟨'c', _, rfl, by decide⟩
  have hscope : IsOpening "scope" := ⟨'s', _, rfl, by decide⟩
  simp only [entryFields, List.mem_append, List.mem_cons, List.not_mem_nil, or_false,
    Option.mem_toList, Option.map_eq_some_iff] at hfield
  rcases hfield with ((((rfl | rfl) | ⟨_, _, rfl⟩) | hjar) | ⟨_, _, rfl⟩) | hcompile
  · exact hgroup
  · exact hartifact
  · exact hversion
  · split at hjar
    · cases hjar
    · obtain rfl := List.mem_singleton.mp hjar
      exact htype
  · exact hclassifier
  · split at hcompile
    · cases hcompile
    · obtain rfl := List.mem_singleton.mp hcompile
      exact hscope

theorem grown_appendDependency (h : e.tree.Rooted e.root) {container : NodeId}
    (hcontainer : e.tree.Holds e.root container) (d : Dependency) (version : Option String) :
    Grown e (e.appendDependency container d version) := by
  have hlt := lt_of_isElement (hcontainer.isElement h)
  obtain ⟨-, hinserted⟩ := inserted_appendElement "dependency" h.wellFormed hlt e.indent
  obtain ⟨hgrown, hinner⟩ := hinserted.grown h hcontainer fun _ => ⟨'d', _, rfl, by decide⟩
  have hfields : ∀ (fields : List (String × String)) (t : Tree), (∀ f ∈ fields, IsOpening f.1) →
      t.Rooted e.root → t.Inner e.root e.tree.size →
      Tree.Grown e.root t (fields.foldl (addField e.tree.size e.indent) t) := by
    intro fields
    induction fields with
    | nil => exact fun t _ ht _ => .refl ht
    | cons field fields ih =>
      intro t hopening ht hinner
      obtain ⟨hfield, hopening⟩ := List.forall_mem_cons.mp hopening
      have hfirst : Tree.Grown e.root t (addField e.tree.size e.indent t field) :=
        grown_appendTextElement ht (.inr hinner) hfield field.2 e.indent
      rw [List.foldl_cons]
      exact hfirst.trans (ih _ hopening hfirst.rooted (hinner.grown hfirst))
  have hfilled := hfields (entryFields d version) _ (fun f hf => isOpening_of_mem_entryFields hf)
    hgrown.rooted hinner
  refine ⟨rfl, ?_⟩
  rw [tree_appendDependency h.wellFormed hlt]
  exact hgrown.trans hfilled

theorem grown_addEntry (h : e.tree.Rooted e.root) {container : List String}
    (hcontainer : ∀ step ∈ container, IsOpening step) (d : Dependency) (version : Option String) :
    Grown e (Insertion.addEntry container d version e) := by
  obtain ⟨hgrown, hholds⟩ := grown_ensureBelow h (.inl rfl) hcontainer ElementOrder.project
  exact hgrown.trans (grown_appendDependency hgrown.rooted hholds d version)

theorem grown_addVersion (h : e.tree.Rooted e.root) {entry : NodeId}
    (hentry : e.tree.Inner e.root entry) (version : String) :
    Grown e (e.addVersion entry version) := by
  obtain ⟨hgrown, hinner⟩ := grown_ensureChild h (.inr hentry) "version"
    (fun heq => absurd heq (hentry.ne h)) ElementOrder.dependency
  exact hgrown.trans (grown_setText hgrown.rooted hinner version)

theorem holds_owner? (h : e.tree.Rooted e.root) {scope : PropertyScope} {owner : NodeId}
    (howner : e.owner? scope = some owner) : e.tree.Holds e.root owner := by
  cases scope with
  | project =>
    cases howner
    exact .inl rfl
  | profile id =>
    obtain ⟨profiles, hprofiles, hfind⟩ := Option.bind_eq_some_iff.mp howner
    have hblock : e.tree.Inner e.root profiles :=
      Holds.named (.inl rfl) h (List.mem_of_mem_head? hprofiles)
    exact .inr (Holds.named (.inr hblock) h (List.mem_of_find?_eq_some hfind))

/-- The name of a property does not matter, as it is no child of the root element. -/
theorem grown_setProperty (h : e.tree.Rooted e.root) (scope : PropertyScope)
    (name value : String) : Grown e (e.setProperty scope name value) := by
  unfold setProperty
  cases howner : e.owner? scope with
  | none => exact .refl h
  | some owner =>
    obtain ⟨hblock, hblockInner⟩ := grown_ensureChild h (holds_owner? h howner)
      "properties" (fun _ => ⟨'p', _, rfl, by decide⟩) (blockOrder scope)
    have hrooted := hblock.rooted
    obtain ⟨hproperty, hpropertyInner⟩ := grown_ensureChild hrooted (.inr hblockInner)
      name (fun heq => absurd heq (hblockInner.ne hrooted)) []
    exact (hblock.trans hproperty).trans (grown_setText hproperty.rooted hpropertyInner value)

/-- A path that is not empty leads below the root element. -/
theorem inner_select (h : e.tree.Rooted e.root) {path : List String} {step : String} {x : NodeId}
    (hx : x ∈ e.select (path ++ [step])) : e.tree.Inner e.root x := by
  have hstep : ∀ (path : List String) (y : NodeId), e.tree.Holds e.root y →
      x ∈ e.tree.select e.ns (path ++ [step]) y → e.tree.Inner e.root x := by
    intro path
    induction path with
    | nil =>
      intro y hy hx
      obtain ⟨z, hz, hx⟩ := mem_select_cons.mp hx
      obtain rfl : x = z := by simpa [Tree.select] using hx
      exact hy.named h hz
    | cons name path ih =>
      intro y hy hx
      obtain ⟨z, hz, hx⟩ := mem_select_cons.mp hx
      exact ih z (.inr (hy.named h hz)) hx
  exact hstep path e.root (.inl rfl) hx

theorem inner_findDependency? (h : e.tree.Rooted e.root) {container : List String}
    {key : ArtifactKey} {entry : NodeId} (hentry : e.findDependency? container key = some entry) :
    e.tree.Inner e.root entry := by
  have hmem : entry ∈ e.select (container ++ ["dependency"]) :=
    List.mem_of_mem_filter (List.mem_of_mem_head? hentry)
  exact inner_select h hmem

theorem inner_versionSlot? (h : e.tree.Rooted e.root) {entry slot : NodeId}
    (hentry : e.tree.Inner e.root entry) (hslot : e.versionSlot? entry = some slot) :
    e.tree.Inner e.root slot := by
  unfold versionSlot? at hslot
  split at hslot
  · next slot' hnamed =>
    cases hslot
    exact Holds.named (.inr hentry) h (hnamed ▸ List.mem_singleton_self _)
  · cases hslot

end MavenPom.Editor
