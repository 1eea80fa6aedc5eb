import MavenPom.Proofs.Markup.Name
import MavenPom.Proofs.Pom.Shown
import Mathlib.Data.List.Nodup

/-!
# Elements at the end of a path

A path of local names is followed to the first child of each name, and what is missing is added. An
edit at the end of the path shows as the same edit at the end of the path among the nodes that are
shown, and leaves the children of other names as they are.
-/

namespace MavenPom.Markup.Strict.Node

/-- An element without content. -/
def blank (name : String) : Node := .element name [.text ""]

/-- `n'` is `n` with `new` in the place of its first child of a name, `old`, or with `new` among
    its children where it has none of that name: behind `front`, and before `back`. -/
def PutsBetween (front back : List Node) (name : String) (n n' : Node) (old : Option Node)
    (new : Node) : Prop :=
  ∃ own text text',
    n = .element own (.text text :: (front ++ old.toList ++ back)) ∧
      n' = .element own (.text text' :: (front ++ new :: back)) ∧
        new.isNamed name = true ∧ (∀ m ∈ old, m.isNamed name = true) ∧
          (∀ x ∈ front, x.isNamed name = false) ∧
            (old = none → ∀ x ∈ back, x.isNamed name = false)

/-- `n'` is `n` with `new` in the place of its first child of a name, or among its children. -/
def Puts (name : String) (n n' : Node) (old : Option Node) (new : Node) : Prop :=
  ∃ front back, PutsBetween front back name n n' old new

/-- `n'` is `n` with what a path leads to changed as `R` says. What is missing on the way is added
    without content. -/
def ChangedAt (R : Node → Node → Prop) : List String → Node → Node → Prop
  | [], n, n' => R n n'
  | name :: path, n, n' =>
    ∃ old new, Puts name n n' old new ∧ ChangedAt R path (old.getD (blank name)) new

@[simp] theorem isNamed_text (name content : String) : isNamed name (.text content) = false := rfl

theorem isNamed_eq_false {name other : String} (h : other ≠ name) {n : Node}
    (hn : n.isNamed name = true) : n.isNamed other = false := by
  cases n with
  | element own children =>
    obtain rfl : own = name := by simpa [isNamed] using hn
    simpa [isNamed] using Ne.symm h
  | text content => rfl
  | aside => rfl

namespace Puts

variable {name : String} {n n' new : Node} {old : Option Node}

theorem childrenNamed_of_ne (h : Puts name n n' old new) {other : String} (hne : other ≠ name) :
    n'.childrenNamed other = n.childrenNamed other := by
  obtain ⟨front, back, own, text, text', rfl, rfl, hnew, hold, -, -⟩ := h
  have hnew' := isNamed_eq_false hne hnew
  cases old with
  | none => simp [childrenNamed, children, hnew']
  | some m =>
    have hold' := isNamed_eq_false hne (hold m rfl)
    simp [childrenNamed, children, hnew', hold']

/-- The first child of the name is the new one, and the others stay. -/
theorem childrenNamed (h : Puts name n n' old new) :
    ∃ rest, n.childrenNamed name = old.toList ++ rest ∧ n'.childrenNamed name = new :: rest ∧
      (old = none → rest = []) := by
  obtain ⟨front, back, own, text, text', rfl, rfl, hnew, hold, hfront, hback⟩ := h
  have hfront' : front.filter (isNamed name) = [] :=
    List.filter_eq_nil_iff.mpr fun x hx => by simp [hfront x hx]
  refine ⟨back.filter (isNamed name), ?_, ?_, fun hnone => ?_⟩
  · cases old with
    | none => simp [Node.childrenNamed, children, hfront']
    | some m => simp [Node.childrenNamed, children, hfront', hold m rfl]
  · simp [Node.childrenNamed, children, hfront', hnew]
  · exact List.filter_eq_nil_iff.mpr fun x hx => by simp [hback hnone x hx]

theorem child? (h : Puts name n n' old new) :
    n.child? name = old ∧ n'.child? name = some new := by
  obtain ⟨rest, hn, hn', hrest⟩ := h.childrenNamed
  rw [child?_eq, child?_eq, hn, hn']
  cases old with
  | none => simp [hrest rfl]
  | some m => simp

theorem child?_of_ne (h : Puts name n n' old new) {other : String} (hne : other ≠ name) :
    n'.child? other = n.child? other := by
  rw [child?_eq, child?_eq, h.childrenNamed_of_ne hne]

theorem childText?_of_ne (h : Puts name n n' old new) {other : String} (hne : other ≠ name) :
    n'.childText? other = n.childText? other := by
  rw [childText?, childText?, h.child?_of_ne hne]

end Puts

end MavenPom.Markup.Strict.Node

namespace MavenPom.Markup.Tree

open Strict.Node (Puts PutsBetween)

variable {t t' t'' : Tree} {ns : Option String} {parent c : NodeId} {name : String}
  {front back : List NodeId}

theorem WellFormed.not_above_sibling (ht : t.WellFormed) {a b n : NodeId} (ha : a ∈ t.children n)
    (hb : b ∈ t.children n) (hne : a ≠ b) : a ∉ b :: t.ancestors b := fun hmem =>
  hne (ht.child_on_way_unique ha hb hmem (List.mem_cons_self ..))

/-- A sibling of an edited element stays as it is. -/
theorem Within.sameBelow_sibling (h : Within t t' c) {x n : NodeId} (hc : c ∈ t.children n)
    (hx : x ∈ t.children n) (hne : x ≠ c) : SameBelow t t' x :=
  h.sameBelow (h.before.child_lt hx) (h.before.not_above_sibling hx hc hne) fun hmem =>
    h.before.not_above_sibling hc hx (Ne.symm hne) (.tail _ hmem)

theorem Within.parent_facts (h : Within t t' c) (hc : c ∈ t.children parent) :
    parent < t.size ∧ parent ≠ c ∧ c ∉ t.ancestors parent := by
  have hlt := h.before.lt_child hc
  exact ⟨Nat.lt_trans hlt h.lt, Nat.ne_of_lt hlt, fun hmem =>
    Nat.lt_asymm hlt (h.before.lt_of_mem_ancestors hmem)⟩

theorem Within.members_eq (h : Within t t' c) (hc : c ∈ t.children parent) :
    t'.members ns parent = t.members ns parent := by
  obtain ⟨hparent, hne, hnot⟩ := h.parent_facts hc
  rw [members, members, h.childElements_eq hparent hne hnot]
  refine List.filter_congr fun x hx => ?_
  have hchild := List.mem_of_mem_filter hx
  have hbelow : c ∉ t.ancestors x := by
    rw [h.before.ancestors_child hchild]
    simp [hnot, Ne.symm hne]
  rw [h.namespace?_eq (h.before.child_lt hchild) hbelow]

theorem Within.localName_eq (h : Within t t' c) {x : NodeId} (hx : x < t.size) :
    t'.localName x = t.localName x := by
  rw [localName, localName, h.element?_eq hx]

theorem map_shownNode_congr {ids : List NodeId} (h : ∀ x ∈ ids, SameBelow t t' x) (depth : Nat) :
    ids.map (t'.shownNode ns depth) = ids.map (t.shownNode ns depth) :=
  List.map_congr_left fun x hx => (h x hx).shownNode_eq depth

/-- An edit within one child of a name leaves the others as they are. -/
theorem Within.childrenNamed_split (h : Within t t' c)
    (hsplit : t.childrenNamed parent ns name = front ++ c :: back) :
    t'.childrenNamed parent ns name = front ++ c :: back ∧
      ∀ x ∈ front ++ back, SameBelow t t' x := by
  have hmem : ∀ x ∈ front ++ c :: back, x ∈ t.children parent := fun x hx =>
    mem_children_of_named (hsplit ▸ hx)
  have hc := hmem c (by simp)
  obtain ⟨hparent, hne, hnot⟩ := h.parent_facts hc
  refine ⟨(h.childrenNamed_eq hparent hne hnot name).trans hsplit, fun x hx => ?_⟩
  have hnodup : (front ++ c :: back).Nodup := by
    rw [← hsplit]
    exact ((h.before.nodup parent).filter _).filter _
  refine h.sameBelow_sibling hc (hmem x ?_) ?_
  · simp only [List.mem_append, List.mem_cons] at hx ⊢
    exact hx.imp_right .inr
  · rintro rfl
    exact (List.nodup_middle.mp hnodup).notMem hx

/-- An edit within the first child of a name puts what the child shows then in the place of what
    it showed. -/
theorem Within.puts {rest : List NodeId} (h : Within t t' c)
    (hc : t.childrenNamed parent ns name = c :: rest) (depth : Nat) :
    Puts name (t.shownNode ns (depth + 2) parent) (t'.shownNode ns (depth + 2) parent)
      (some (t.shownNode ns (depth + 1) c)) (t'.shownNode ns (depth + 1) c) := by
  have hmem : c ∈ t.childrenNamed parent ns name := hc ▸ List.mem_cons_self ..
  have hchild := mem_children_of_named hmem
  rw [childrenNamed_eq_filter] at hc
  obtain ⟨front, back, hsplit, hfront, hname, -⟩ := List.filter_eq_cons_iff.mp hc
  have hnodup : (front ++ c :: back).Nodup :=
    hsplit ▸ ((h.before.nodup parent).filter _).filter _
  have hsame : ∀ x ∈ front ++ back, SameBelow t t' x := by
    intro x hx
    have hx' : x ∈ t.members ns parent := by
      rw [hsplit]
      simp only [List.mem_append, List.mem_cons] at hx ⊢
      exact hx.imp_right .inr
    refine h.sameBelow_sibling hchild (List.mem_of_mem_filter (List.mem_of_mem_filter hx')) ?_
    rintro rfl
    exact (List.nodup_middle.mp hnodup).notMem hx
  refine ⟨front.map (t.shownNode ns (depth + 1)), back.map (t.shownNode ns (depth + 1)),
    t.localName parent, Text.trim (t.text parent), Text.trim (t'.text parent), ?_, ?_, ?_, ?_, ?_,
    by simp⟩
  · rw [shownNode, hsplit]
    simp
  · rw [shownNode, h.members_eq hchild, hsplit, h.localName_eq (h.parent_facts hchild).1,
      List.map_append, List.map_cons,
      map_shownNode_congr fun x hx => hsame x (List.mem_append_left _ hx),
      map_shownNode_congr fun x hx => hsame x (List.mem_append_right _ hx)]
  · rw [isNamed_shownNode, h.localName_eq h.lt]
    exact hname
  · simpa using hname
  · intro x hx
    obtain ⟨y, hy, rfl⟩ := List.mem_map.mp hx
    simpa using hfront y hy

namespace Inserted

variable (h : Inserted t t' parent name front back) (hw : Within t' t'' t.size)

include h

theorem mem_children_new : t.size ∈ t'.children parent := by
  have hmem : t.size ∈ t'.childElements parent := by rw [h.after]; simp
  exact List.mem_of_mem_filter hmem

include hw

/-- The other child elements stay as they are when a new one is edited. -/
theorem sameBelow_of_within (ht : t.WellFormed) {x : NodeId} (hx : x ∈ t.childElements parent) :
    SameBelow t t'' x := by
  have hchild := List.mem_of_mem_filter hx
  have hlt := ht.child_lt hchild
  have hx' : x ∈ t'.childElements parent := by
    rw [h.before] at hx
    rw [h.after]
    simp only [List.mem_append, List.mem_cons] at hx ⊢
    exact hx.imp_right .inr
  refine (h.sameBelow ht hlt fun hmem => ?_).trans
    (hw.sameBelow_sibling h.mem_children_new (List.mem_of_mem_filter hx') (Nat.ne_of_lt hlt))
  rcases List.mem_cons.mp hmem with rfl | hmem
  · exact Nat.lt_irrefl _ (ht.lt_child hchild)
  · exact Nat.lt_asymm (ht.lt_child hchild) (ht.lt_of_mem_ancestors hmem)

theorem childElements_of_within : t''.childElements parent = front ++ t.size :: back := by
  obtain ⟨hlt, hne, hnot⟩ := hw.parent_facts h.mem_children_new
  rw [hw.childElements_eq hlt hne hnot, h.after]

theorem localName_of_within (hname : ':' ∉ name.toList) : t''.localName t.size = name := by
  rw [hw.localName_eq h.size_lt, localName, h.element?_new]
  exact (elementUnder_spec hname).1

theorem namespace?_of_within (ht : t.WellFormed) (helement : t.isElement parent = true)
    (hname : ':' ∉ name.toList) : t''.namespace? t.size = t.namespace? parent := by
  rw [hw.namespace?_eq h.size_lt fun hmem =>
    Nat.lt_irrefl _ (h.wellFormed.lt_of_mem_ancestors hmem), h.namespace?_new ht helement hname]

theorem within_parent (ht : t.WellFormed) (hparent : parent < t.size) : Within t t'' parent := by
  refine (h.within ht hparent).trans (hw.above ?_)
  rw [h.wellFormed.ancestors_child h.mem_children_new]
  exact List.mem_cons_self ..

/-- A new element changes nothing under the children of other names. -/
theorem changedUnder (ht : t.WellFormed) (hparent : parent < t.size)
    (hname : ':' ∉ name.toList) : ChangedUnder t t'' ns parent name where
  within := h.within_parent hw ht hparent
  childrenNamed_eq other hother := by
    have hsame : ∀ ids : List NodeId, (∀ x ∈ ids, x ∈ t.childElements parent) →
        (ids.filter fun x => ((t''.element? x).map (·.localName) == some other) &&
            (t''.namespace? x == ns)) =
          ids.filter fun x => ((t.element? x).map (·.localName) == some other) &&
            (t.namespace? x == ns) :=
      fun ids hids => List.filter_congr fun x hx => by
        have hx' := h.sameBelow_of_within hw ht (hids x hx)
        rw [hx'.element?_eq, hx'.namespace?_eq]
    have hnew : ((t''.element? t.size).map (·.localName) == some other) = false := by
      rw [hw.element?_eq h.size_lt, h.element?_new, Option.map_some, (elementUnder_spec hname).1]
      simpa using Ne.symm hother
    rw [childrenNamed, childrenNamed, h.childElements_of_within hw, h.before, List.filter_append,
      List.filter_append, List.filter_cons_of_neg (by simp [hnew]), hsame, hsame]
    · exact fun x hx => h.before ▸ List.mem_append_right _ hx
    · exact fun x hx => h.before ▸ List.mem_append_left _ hx
  sameBelow other _ c hc := h.sameBelow_of_within hw ht (mem_childrenNamed.mp hc).1

/-- What the parent of a new element shows: the new element beside what it showed before. -/
theorem shownNode_parent (ht : t.WellFormed) (helement : t.isElement parent = true)
    (hns : t.namespace? parent = ns) (hname : ':' ∉ name.toList) (depth : Nat) :
    t.shownNode ns (depth + 1) parent =
        .element (t.localName parent) (.text (Text.trim (t.text parent)) ::
          ((front.filter fun x => t.namespace? x == ns).map (t.shownNode ns depth) ++
            (back.filter fun x => t.namespace? x == ns).map (t.shownNode ns depth))) ∧
      t''.shownNode ns (depth + 1) parent =
        .element (t.localName parent) (.text (Text.trim (t''.text parent)) ::
          ((front.filter fun x => t.namespace? x == ns).map (t.shownNode ns depth) ++
            t''.shownNode ns depth t.size ::
            (back.filter fun x => t.namespace? x == ns).map (t.shownNode ns depth))) := by
  obtain ⟨e, he⟩ := Option.isSome_iff_exists.mp helement
  have hparent := lt_size_of_element? he
  have hspace := (h.namespace?_of_within hw ht helement hname).trans hns
  have hfront : ∀ x ∈ front, SameBelow t t'' x := fun x hx =>
    h.sameBelow_of_within hw ht (h.before ▸ List.mem_append_left _ hx)
  have hback : ∀ x ∈ back, SameBelow t t'' x := fun x hx =>
    h.sameBelow_of_within hw ht (h.before ▸ List.mem_append_right _ hx)
  have hcongr : ∀ ids : List NodeId, (∀ x ∈ ids, SameBelow t t'' x) →
      (ids.filter fun x => t''.namespace? x == ns).map (t''.shownNode ns depth) =
        (ids.filter fun x => t.namespace? x == ns).map (t.shownNode ns depth) := by
    intro ids hids
    rw [List.filter_congr fun x hx => by rw [(hids x hx).namespace?_eq]]
    exact map_shownNode_congr (fun x hx => hids x (List.mem_of_mem_filter hx)) _
  have hown : t''.localName parent = t.localName parent := by
    rw [hw.localName_eq (Nat.lt_trans hparent h.size_lt), localName, localName, element?, element?,
      h.content parent hparent]
  constructor
  · rw [shownNode, members, h.before, List.filter_append, List.map_append]
  · rw [shownNode, hown, members, h.childElements_of_within hw, List.filter_append,
      List.filter_cons_of_pos (by simp [hspace]), List.map_append, List.map_cons,
      hcongr _ hfront, hcongr _ hback]

/-- An edit within a new element puts what the element shows then among what its parent shows. -/
theorem putsBetween (ht : t.WellFormed) (helement : t.isElement parent = true)
    (hns : t.namespace? parent = ns) (hname : ':' ∉ name.toList)
    (hnone : t.childrenNamed parent ns name = []) (depth : Nat) :
    PutsBetween ((front.filter fun x => t.namespace? x == ns).map (t.shownNode ns (depth + 1)))
      ((back.filter fun x => t.namespace? x == ns).map (t.shownNode ns (depth + 1))) name
      (t.shownNode ns (depth + 2) parent) (t''.shownNode ns (depth + 2) parent) none
      (t''.shownNode ns (depth + 1) t.size) := by
  have hmembers : t.members ns parent = front.filter (fun x => t.namespace? x == ns) ++
      back.filter fun x => t.namespace? x == ns := by
    rw [members, h.before, List.filter_append]
  have hunnamed : ∀ x ∈ t.members ns parent, t.localName x ≠ name := by
    intro x hx heq
    rw [childrenNamed_eq_filter, List.filter_eq_nil_iff] at hnone
    exact hnone x hx (by simpa using heq)
  obtain ⟨hbefore, hafter⟩ := h.shownNode_parent hw ht helement hns hname (depth + 1)
  refine ⟨_, _, _, by simpa using hbefore, hafter, ?_, by simp, ?_, ?_⟩
  · rw [isNamed_shownNode, h.localName_of_within hw hname]
    simp
  · intro x hx
    obtain ⟨y, hy, rfl⟩ := List.mem_map.mp hx
    simpa using hunnamed y (hmembers ▸ List.mem_append_left _ hy)
  · intro _ x hx
    obtain ⟨y, hy, rfl⟩ := List.mem_map.mp hx
    simpa using hunnamed y (hmembers ▸ List.mem_append_right _ hy)

end Inserted

/-- A new element shows no content. -/
theorem Inserted.shownNode_new (h : Inserted t t' parent name front back)
    (hname : ':' ∉ name.toList) (depth : Nat) :
    t'.shownNode ns (depth + 1) t.size = Strict.Node.blank name := by
  rw [shownNode, Strict.Node.blank, members, childElements, text, h.children_new, localName,
    h.element?_new]
  simp [(elementUnder_spec hname).1]
  rfl

end MavenPom.Markup.Tree

namespace MavenPom.Editor

open Markup Markup.Tree
open Strict.Node (blank Puts ChangedAt)

variable {e : Editor} {parent : NodeId} {name : String} {order path : List String}

/-- A child is there already, or is inserted. -/
theorem ensureChild_cases (e : Editor) (hwf : e.tree.WellFormed) (hparent : parent < e.tree.size)
    (name : String) (order : List String) :
    (∃ c rest, e.tree.childrenNamed parent e.ns name = c :: rest ∧
        e.ensureChild parent name order = (e, c)) ∨
      (e.tree.childrenNamed parent e.ns name = [] ∧
        ∃ tree front back, Inserted e.tree tree parent name front back ∧
          e.ensureChild parent name order = ({ e with tree, dirty := true }, e.tree.size) ∧
            (order = [] → back = [])) := by
  unfold ensureChild child? childNamed?
  cases hnamed : e.tree.childrenNamed parent e.ns name with
  | cons c rest => exact .inl ⟨c, rest, rfl, rfl⟩
  | nil =>
    refine .inr ⟨rfl, ?_⟩
    cases hsuccessor : e.successor? parent name order with
    | none =>
      obtain ⟨hid, hinserted⟩ := inserted_appendElement name hwf hparent e.indent
      exact ⟨_, _, _, hinserted, by simp [hid], fun _ => rfl⟩
    | some before =>
      obtain ⟨hid, front, back, hinserted⟩ :=
        inserted_insertElementBefore name hwf hparent before e.indent
      refine ⟨_, front, back, hinserted, by simp [hid], ?_⟩
      rintro rfl
      simpa [ElementOrder.isAfter] using List.find?_some hsuccessor

/-- A path leads to a node of the tree. -/
theorem ensureBelow_lt (hwf : e.tree.WellFormed) (hparent : parent < e.tree.size)
    (order path : List String) : (e.ensureBelow parent order path).1.tree.WellFormed ∧
      (e.ensureBelow parent order path).2 < (e.ensureBelow parent order path).1.tree.size := by
  induction path generalizing e parent order with
  | nil => exact ⟨hwf, hparent⟩
  | cons name path ih =>
    rw [ensureBelow]
    rcases e.ensureChild_cases hwf hparent name order with
      ⟨c, rest, hnamed, heq⟩ | ⟨-, tree, front, back, hinserted, heq, -⟩
    · rw [heq]
      exact ih hwf (hwf.child_lt (mem_children_of_named (hnamed ▸ List.mem_cons_self ..))) []
    · rw [heq]
      exact ih hinserted.wellFormed hinserted.size_lt []

/-- An edit within what a path leads to is one within the path's start. -/
theorem within_ensureBelow (hwf : e.tree.WellFormed) (hparent : parent < e.tree.size) {tree : Tree}
    (hwithin : Within (e.ensureBelow parent order path).1.tree tree
      (e.ensureBelow parent order path).2) : Within e.tree tree parent := by
  induction path generalizing e parent order with
  | nil => exact hwithin
  | cons name path ih =>
    rw [ensureBelow] at hwithin
    rcases e.ensureChild_cases hwf hparent name order with
      ⟨c, rest, hnamed, heq⟩ | ⟨-, tree', front, back, hinserted, heq, -⟩
    · rw [heq] at hwithin
      have hchild := mem_children_of_named (hnamed ▸ List.mem_cons_self ..)
      refine (ih hwf (hwf.child_lt hchild) hwithin).above ?_
      rw [hwf.ancestors_child hchild]
      exact List.mem_cons_self ..
    · rw [heq] at hwithin
      exact hinserted.within_parent (ih hinserted.wellFormed hinserted.size_lt hwithin) hwf hparent

theorem ensureChild_eq (e : Editor) (parent : NodeId) (name : String) (order : List String) :
    ∃ tree dirty, (e.ensureChild parent name order).1 = { e with tree, dirty } := by
  unfold ensureChild
  split
  · exact ⟨e.tree, e.dirty, rfl⟩
  · exact ⟨_, _, rfl⟩

theorem ensureBelow_eq (e : Editor) (parent : NodeId) (order path : List String) :
    ∃ tree dirty, (e.ensureBelow parent order path).1 = { e with tree, dirty } := by
  induction path generalizing e parent order with
  | nil => exact ⟨e.tree, e.dirty, rfl⟩
  | cons name path ih =>
    obtain ⟨tree, dirty, hchild⟩ := e.ensureChild_eq parent name order
    obtain ⟨tree', dirty', hbelow⟩ := ih (e.ensureChild parent name order).1
      (e.ensureChild parent name order).2 []
    exact ⟨tree', dirty', by rw [ensureBelow, hbelow, hchild]⟩

/-- `id` is an element of the editor's tree, in the namespace of the root. -/
structure HasElement (e : Editor) (id : NodeId) : Prop where
  wellFormed : e.tree.WellFormed
  isElement : e.tree.isElement id = true
  ns_eq : e.tree.namespace? id = e.ns

theorem HasElement.lt (h : e.HasElement parent) : parent < e.tree.size := by
  obtain ⟨x, hx⟩ := Option.isSome_iff_exists.mp h.isElement
  exact lt_size_of_element? hx

theorem Sound.hasElement_root (h : e.Sound) : e.HasElement e.root :=
  ⟨h.wellFormed, h.isElement_root, h.ns_root⟩

theorem HasElement.named (h : e.HasElement parent) {c : NodeId}
    (hc : c ∈ e.tree.childrenNamed parent e.ns name) : e.HasElement c :=
  ⟨h.wellFormed, (List.mem_filter.mp (mem_childrenNamed.mp hc).1).2, (mem_childrenNamed.mp hc).2.2⟩

theorem HasElement.select (h : e.HasElement parent) {c : NodeId}
    (hc : c ∈ e.tree.select e.ns path parent) : e.HasElement c := by
  induction path generalizing parent with
  | nil =>
    obtain rfl : c = parent := by simpa [Tree.select] using hc
    exact h
  | cons step path ih =>
    obtain ⟨x, hx, hc⟩ := mem_select_cons.mp hc
    exact ih (h.named hx) hc

theorem HasElement.inserted (h : e.HasElement parent) (hname : ':' ∉ name.toList) {tree : Tree}
    {front back : List NodeId} (hinserted : Inserted e.tree tree parent name front back)
    (dirty : Bool) : HasElement { e with tree, dirty } e.tree.size where
  wellFormed := hinserted.wellFormed
  isElement := by
    change (tree.element? e.tree.size).isSome = true
    rw [hinserted.element?_new]
    rfl
  ns_eq :=
    (hinserted.namespace?_new h.wellFormed h.isElement hname).trans h.ns_eq

/-- A path leads to an element. -/
theorem hasElement_ensureBelow (h : e.HasElement parent) (hpath : ∀ name ∈ path, ':' ∉ name.toList)
    (order : List String) :
    (e.ensureBelow parent order path).1.HasElement (e.ensureBelow parent order path).2 := by
  induction path generalizing e parent order with
  | nil => exact h
  | cons name path ih =>
    obtain ⟨hname, hpath⟩ := List.forall_mem_cons.mp hpath
    rw [ensureBelow]
    rcases e.ensureChild_cases h.wellFormed h.lt name order with
      ⟨c, rest, hnamed, heq⟩ | ⟨-, tree, front, back, hinserted, heq, -⟩
    · rw [heq]
      exact ih (h.named (hnamed ▸ List.mem_cons_self ..)) hpath []
    · rw [heq]
      exact ih (h.inserted hname hinserted true) hpath []

/-- An edit at the end of a path shows as an edit at the end of the path. -/
theorem changedAt_ensureBelow (h : e.HasElement parent) (hpath : ∀ name ∈ path, ':' ∉ name.toList)
    {tree : Tree} {depth : Nat} {R : Strict.Node → Strict.Node → Prop}
    (hwithin : Within (e.ensureBelow parent order path).1.tree tree
      (e.ensureBelow parent order path).2)
    (hR : R ((e.ensureBelow parent order path).1.tree.shownNode e.ns (depth + 1)
        (e.ensureBelow parent order path).2)
      (tree.shownNode e.ns (depth + 1) (e.ensureBelow parent order path).2)) :
    Within e.tree tree parent ∧
      ChangedAt R path (e.tree.shownNode e.ns (depth + path.length + 1) parent)
        (tree.shownNode e.ns (depth + path.length + 1) parent) := by
  induction path generalizing e parent order with
  | nil => exact ⟨hwithin, hR⟩
  | cons name path ih =>
    obtain ⟨hname, hpath⟩ := List.forall_mem_cons.mp hpath
    rw [ensureBelow] at hwithin hR
    rcases e.ensureChild_cases h.wellFormed h.lt name order with
      ⟨c, rest, hnamed, heq⟩ | ⟨hnone, tree', front, back, hinserted, heq, -⟩
    · rw [heq] at hwithin hR
      have hmem : c ∈ e.tree.childrenNamed parent e.ns name := hnamed ▸ List.mem_cons_self ..
      obtain ⟨hc, hchanged⟩ := ih (h.named hmem) hpath hwithin hR
      refine ⟨hc.above ?_, some _, _, hc.puts hnamed (depth + path.length), hchanged⟩
      rw [h.wellFormed.ancestors_child (mem_children_of_named hmem)]
      exact List.mem_cons_self ..
    · rw [heq] at hwithin hR
      obtain ⟨hc, hchanged⟩ := ih (h.inserted hname hinserted true) hpath hwithin hR
      refine ⟨hinserted.within_parent hc h.wellFormed h.lt, none, _,
        ⟨_, _, hinserted.putsBetween hc h.wellFormed h.isElement h.ns_eq hname hnone
          (depth + path.length)⟩, ?_⟩
      rw [Option.getD_none,
        ← @Inserted.shownNode_new _ _ e.ns _ _ _ _ hinserted hname (depth + path.length)]
      exact hchanged

/-- An edit at the end of a path is one under the children of the path's first name. -/
theorem changedUnder_ensureBelow (h : e.HasElement parent)
    (hpath : ∀ step ∈ name :: path, ':' ∉ step.toList) {tree : Tree}
    (hwithin : Within (e.ensureBelow parent order (name :: path)).1.tree tree
      (e.ensureBelow parent order (name :: path)).2) :
    ChangedUnder e.tree tree e.ns parent name := by
  obtain ⟨hname, hrest⟩ := List.forall_mem_cons.mp hpath
  rw [ensureBelow] at hwithin
  rcases e.ensureChild_cases h.wellFormed h.lt name order with
    ⟨c, rest, hnamed, heq⟩ | ⟨hnone, tree', front, back, hinserted, heq, -⟩
  · rw [heq] at hwithin
    have hmem : c ∈ e.tree.childrenNamed parent e.ns name := hnamed ▸ List.mem_cons_self ..
    have hc := (@changedAt_ensureBelow _ _ _ _ (h.named hmem) hrest _ 0 (fun _ _ => True)
      hwithin trivial).1
    exact @Within.changedUnder _ _ _ _ _ _ [] hc h.lt
      (mem_select_cons.mpr ⟨c, hmem, by simp [Tree.select]⟩)
  · rw [heq] at hwithin
    have hc := (@changedAt_ensureBelow _ _ _ _ (h.inserted hname hinserted true) hrest _ 0
      (fun _ _ => True) hwithin trivial).1
    exact hinserted.changedUnder hc h.wellFormed h.lt hname

end MavenPom.Editor
