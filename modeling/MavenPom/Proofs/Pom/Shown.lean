import MavenPom.Edit.Editor
import MavenPom.Markup.Tree.Basic
import MavenPom.Proofs.Markup.Frame
import MavenPom.Proofs.Text.Trim
import Mathlib.Data.List.Forall2

/-!
# What a tree shows

The elements of a tree in one namespace, as the nodes that a POM is read from: each with its whole
trimmed text before its child elements. Trees of the same content show the same.
-/

namespace MavenPom.Markup

namespace Strict.Node

theorem child?_eq (n : Node) (name : String) : n.child? name = (n.childrenNamed name).head? := by
  rw [child?, childrenNamed, List.head?_filter]

end Strict.Node

namespace Tree

/-- The local name of an element. -/
def localName (t : Tree) (id : NodeId) : String := ((t.element? id).map (·.localName)).getD ""

/-- The child elements in a namespace. -/
def members (t : Tree) (ns : Option String) (id : NodeId) : List NodeId :=
  (t.childElements id).filter fun child => t.namespace? child == ns

/-- An element with its members, down to a depth. -/
def shownNode (t : Tree) (ns : Option String) : Nat → NodeId → Strict.Node
  | 0, _ => .aside
  | depth + 1, id =>
    .element (t.localName id)
      (.text (Text.trim (t.text id)) :: (t.members ns id).map (t.shownNode ns depth))

variable {t t' : Tree} {ns : Option String}

theorem childrenNamed_eq_filter (id : NodeId) (name : String) :
    t.childrenNamed id ns name = (t.members ns id).filter (t.localName · == name) := by
  rw [childrenNamed, members, List.filter_filter]
  refine List.filter_congr fun c hc => ?_
  obtain ⟨e, he⟩ := Option.isSome_iff_exists.mp (List.mem_filter.mp hc).2
  simp [localName, he]

@[simp] theorem isNamed_shownNode (depth : Nat) (id : NodeId) (name : String) :
    (t.shownNode ns (depth + 1) id).isNamed name = (t.localName id == name) := rfl

theorem localName_of_mem {n c : NodeId} {name : String} (h : c ∈ t.childrenNamed n ns name) :
    t.localName c = name := by
  simp [localName, (mem_childrenNamed.mp h).2.1]

/-- The children of a name that an element shows are those that it has in the namespace. -/
theorem childrenNamed_shownNode (depth : Nat) (id : NodeId) (name : String) :
    (t.shownNode ns (depth + 2) id).childrenNamed name =
      (t.childrenNamed id ns name).map (t.shownNode ns (depth + 1)) := by
  rw [childrenNamed_eq_filter, Strict.Node.childrenNamed, shownNode, Strict.Node.children,
    List.filter_cons_of_neg (by simp [Strict.Node.isNamed]), List.filter_map]
  rfl

theorem child?_shownNode (depth : Nat) (id : NodeId) (name : String) :
    (t.shownNode ns (depth + 2) id).child? name =
      (t.childNamed? id ns name).map (t.shownNode ns (depth + 1)) := by
  rw [Strict.Node.child?_eq, childrenNamed_shownNode, List.head?_map, childNamed?]

theorem leadingText?_shownNode (depth : Nat) (id : NodeId) :
    (t.shownNode ns (depth + 1) id).leadingText? = some (Text.trim (t.text id)) := rfl

theorem childText?_shownNode (depth : Nat) (id : NodeId) (name : String) :
    (t.shownNode ns (depth + 2) id).childText? name = t.childText? id ns name := by
  rw [Strict.Node.childText?, child?_shownNode, childText?]
  cases t.childNamed? id ns name with
  | none => simp
  | some c => simp [leadingText?_shownNode]

theorem SameBelow.localName_eq {n : NodeId} (h : SameBelow t t' n) :
    t'.localName n = t.localName n := by
  rw [localName, localName, h.element?_eq]

theorem SameBelow.members_eq {n : NodeId} (h : SameBelow t t' n) :
    t'.members ns n = t.members ns n := by
  rw [members, members, h.childElements_eq]
  refine List.filter_congr fun c hc => ?_
  rw [(h.child (List.mem_of_mem_filter hc)).namespace?_eq]

theorem SameBelow.shownNode_eq {n : NodeId} (h : SameBelow t t' n) (depth : Nat) :
    t'.shownNode ns depth n = t.shownNode ns depth n := by
  induction depth generalizing n with
  | zero => rfl
  | succ depth ih =>
    rw [shownNode, shownNode, h.localName_eq, h.text_eq, h.members_eq]
    congr 2
    refine List.map_congr_left fun c hc => ih (h.child ?_)
    exact List.mem_of_mem_filter (List.mem_of_mem_filter hc)

/-! ## Trees of the same content -/

/-- What two elements that carry the same content have in common. -/
theorem sameElement_spec {left right : Tree} {height : Nat} {l r : NodeId}
    (h : sameElement left right (height + 1) l r = true) :
    left.localName l = right.localName r ∧ left.namespace? l = right.namespace? r ∧
      Text.trim (left.text l) = Text.trim (right.text r) ∧
        List.Forall₂ (fun lc rc => sameElement left right height lc rc = true)
          (left.childElements l) (right.childElements r) := by
  unfold sameElement at h
  split at h
  · next le re hl hr =>
    simp only [Bool.and_eq_true, beq_iff_eq, List.all_eq_true] at h
    obtain ⟨⟨⟨⟨⟨hname, hspace⟩, -⟩, htext⟩, hlength⟩, hall⟩ := h
    refine ⟨by simp [localName, hl, hr, hname], hspace, htext, ?_⟩
    exact List.forall₂_iff_zip.mpr ⟨hlength, fun hmem => hall _ hmem⟩
  · cases h

theorem namespace?_of_sameElement {left right : Tree} {height : Nat} {l r : NodeId}
    (h : sameElement left right height l r = true) : left.namespace? l = right.namespace? r := by
  cases height with
  | zero => cases h
  | succ height => exact (sameElement_spec h).2.1

/-- Elements that carry the same content show the same. -/
theorem shownNode_of_sameElement {left right : Tree} {height : Nat} {l r : NodeId}
    (h : sameElement left right height l r = true) (depth : Nat) :
    left.shownNode ns depth l = right.shownNode ns depth r := by
  induction depth generalizing height l r with
  | zero => rfl
  | succ depth ih =>
    cases height with
    | zero => cases h
    | succ height =>
      obtain ⟨hname, -, htext, hchildren⟩ := sameElement_spec h
      rw [shownNode, shownNode, hname, htext, members, members]
      congr 2
      generalize left.childElements l = ls, right.childElements r = rs at hchildren ⊢
      induction hchildren with
      | nil => rfl
      | @cons lc rc _ _ hhead _ ihtail =>
        rw [List.filter_cons, List.filter_cons, namespace?_of_sameElement hhead]
        split
        · rw [List.map_cons, List.map_cons, ih hhead, ihtail]
        · exact ihtail

end Tree

end MavenPom.Markup

namespace MavenPom.Editor

open Markup

/-- How deep the elements are nested that a POM is read from. -/
def shownDepth : Nat := 9

/-- What an editor's tree shows of its root. -/
def shown (e : Editor) : Strict.Node := e.tree.shownNode e.ns shownDepth e.root

/-- The POM that an editor's tree shows. -/
def pom (e : Editor) : Pom := Pom.ofNode e.shown

/-- The editor's tree is one, with its root element and that one's namespace. -/
structure Sound (e : Editor) : Prop where
  wellFormed : e.tree.WellFormed
  rootElement? : e.tree.rootElement? = some e.root
  ns_root : e.tree.namespace? e.root = e.ns

namespace Sound

variable {e : Editor}

theorem isElement_root (h : e.Sound) : e.tree.isElement e.root = true :=
  List.find?_some h.rootElement?

theorem root_lt (h : e.Sound) : e.root < e.tree.size := by
  obtain ⟨x, hx⟩ := Option.isSome_iff_exists.mp h.isElement_root
  exact Tree.lt_size_of_element? hx

/-- An edit within the root element leaves the editor sound. -/
theorem of_within (h : e.Sound) {tree : Tree} (hwithin : Tree.Within e.tree tree e.root)
    (dirty : Bool) : Sound { e with tree, dirty } where
  wellFormed := hwithin.after
  rootElement? := by
    have hroot : e.root ∈ e.tree.children Tree.root := List.mem_of_find?_eq_some h.rootElement?
    have hlt : Tree.root < e.tree.size := Tree.lt_size_of_mem_children hroot
    have hne : Tree.root ≠ e.root := Nat.ne_of_lt (h.wellFormed.lt_child hroot)
    have hnot : e.root ∉ e.tree.ancestors Tree.root := fun hmem =>
      Nat.not_lt_zero _ (h.wellFormed.lt_of_mem_ancestors hmem)
    have hsound := h.rootElement?
    rw [Tree.rootElement?, ← List.head?_filter] at hsound ⊢
    exact (congrArg List.head? (hwithin.childElements_eq hlt hne hnot)).trans hsound
  ns_root := by
    have hnot : e.root ∉ e.tree.ancestors e.root := fun hmem =>
      Nat.lt_irrefl _ (h.wellFormed.lt_of_mem_ancestors hmem)
    exact (hwithin.namespace?_eq h.root_lt hnot).trans h.ns_root

end Sound

end MavenPom.Editor
