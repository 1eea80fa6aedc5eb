import MavenPom.Markup.Tree.Edit
import Mathlib.Data.List.InsertIdx
import Mathlib.Data.List.Perm.Basic
import Mathlib.Tactic.ByContra

/-!
# Arenas as trees

What the operations on an arena do to the content, the parent and the children of each node, and
the invariant that makes an arena a tree: a child comes after its parent, which is the only one
that lists it, and lists it once.
-/

namespace MavenPom.Markup.Tree

/-! ## Effects of the primitive operations -/

section Effects

variable (t : Tree) (id other : NodeId)

@[simp] theorem size_alloc (c : Content) : (t.alloc c).size = t.size + 1 := by
  simp [alloc, size]

theorem content_alloc (c : Content) :
    (t.alloc c).content id = if id = t.size then c else t.content id := by
  by_cases h : id = t.nodes.size <;> simp [alloc, content, size, Array.getElem?_push, h]

theorem parent?_alloc (c : Content) : (t.alloc c).parent? id = t.parent? id := by
  simp only [alloc, parent?, Array.getElem?_push]
  split
  · next h => simp [h]
  · rfl

theorem children_alloc (c : Content) : (t.alloc c).children id = t.children id := by
  simp only [alloc, children, Array.getElem?_push]
  split
  · next h => simp [h]
  · rfl

@[simp] theorem size_orphan : (t.orphan id).size = t.size := by
  simp [orphan, size]

theorem content_orphan : (t.orphan id).content other = t.content other := by
  simp only [orphan, content, Array.getElem?_modify]
  split
  · cases t.nodes[other]? <;> rfl
  · rfl

theorem parent?_orphan :
    (t.orphan id).parent? other = if id = other then none else t.parent? other := by
  simp only [orphan, parent?, Array.getElem?_modify]
  split
  · cases t.nodes[other]? <;> rfl
  · rfl

theorem children_orphan : (t.orphan id).children other = t.children other := by
  simp only [orphan, children, Array.getElem?_modify]
  split
  · cases t.nodes[other]? <;> rfl
  · rfl

variable (parent : NodeId) (index : Nat) (child : NodeId)

@[simp] theorem size_attachAt : (t.attachAt parent index child).size = t.size := by
  simp [attachAt, size]

theorem content_attachAt : (t.attachAt parent index child).content id = t.content id := by
  simp only [attachAt, content, Array.getElem?_modify]
  split <;> split <;> cases t.nodes[id]? <;> rfl

theorem parent?_attachAt (h : child < t.size) :
    (t.attachAt parent index child).parent? id =
      if child = id then some parent else t.parent? id := by
  simp only [attachAt, parent?, Array.getElem?_modify]
  by_cases hc : child = id
  · subst hc
    have hsome : t.nodes[child]? = some t.nodes[child] := Array.getElem?_eq_getElem h
    by_cases hp : parent = child <;> simp [hp, hsome]
  · cases t.nodes[id]? <;> by_cases hp : parent = id <;> simp [hc, hp]

theorem children_attachAt (h : parent < t.size) :
    (t.attachAt parent index child).children id =
      if parent = id then (t.children id).insertIdx index child else t.children id := by
  simp only [attachAt, children, Array.getElem?_modify]
  by_cases hp : parent = id
  · subst hp
    have hsome : t.nodes[parent]? = some t.nodes[parent] := Array.getElem?_eq_getElem h
    by_cases hc : child = parent <;> simp [hc, hsome]
  · cases t.nodes[id]? <;> by_cases hc : child = id <;> simp [hc, hp]

end Effects

theorem lt_size_of_mem_children {t : Tree} {id c : NodeId} (h : c ∈ t.children id) :
    id < t.size := by
  by_contra hge
  rw [children, Array.getElem?_eq_none (Nat.le_of_not_lt hge)] at h
  simp at h

theorem element?_eq_some_iff {t : Tree} {id : NodeId} {e : Element} :
    t.element? id = some e ↔ t.content id = .element e := by
  unfold element?
  split
  · next heq => simp [heq]
  · next hne => simpa using fun heq => hne e heq

theorem lt_size_of_element? {t : Tree} {id : NodeId} {e : Element} (h : t.element? id = some e) :
    id < t.size := by
  by_contra hge
  have hnone : t.nodes[id]? = none := Array.getElem?_eq_none (Nat.le_of_not_lt hge)
  simp [element?, content, hnone] at h

/-! ## The invariant -/

/-- A child comes after its parent, which is the only node that lists it, and lists it once. -/
structure WellFormed (t : Tree) : Prop where
  parent_lt : ∀ {id p : NodeId}, t.parent? id = some p → p < id
  child_lt : ∀ {id c : NodeId}, c ∈ t.children id → c < t.size
  parent_eq : ∀ {id c : NodeId}, c ∈ t.children id → t.parent? c = some id
  nodup : ∀ id : NodeId, (t.children id).Nodup

namespace WellFormed

variable {t : Tree}

theorem lt_child (h : t.WellFormed) {id c : NodeId} (hc : c ∈ t.children id) : id < c :=
  h.parent_lt (h.parent_eq hc)

theorem empty : Tree.empty.WellFormed where
  parent_lt {id p} h := by
    cases id <;> simp [Tree.empty, parent?] at h
  child_lt {id c} h := by
    cases id <;> simp [Tree.empty, children] at h
  parent_eq {id c} h := by
    cases id <;> simp [Tree.empty, children] at h
  nodup id := by
    cases id <;> simp [Tree.empty, children]

/-- The ancestors of a node are its parent and the parent's ancestors. -/
theorem ancestors_eq (h : t.WellFormed) (id : NodeId) :
    t.ancestors id = ((t.parent? id).map fun p => p :: t.ancestors p).getD [] := by
  rw [ancestors]
  cases hp : t.parent? id with
  | none => rfl
  | some p => simp [h.parent_lt hp]

theorem ancestors_child (h : t.WellFormed) {id c : NodeId} (hc : c ∈ t.children id) :
    t.ancestors c = id :: t.ancestors id := by
  rw [h.ancestors_eq c, h.parent_eq hc]
  rfl

theorem lt_of_mem_ancestors (h : t.WellFormed) {a id : NodeId} (ha : a ∈ t.ancestors id) :
    a < id := by
  induction id using Nat.strongRecOn with
  | ind id ih =>
    rw [h.ancestors_eq] at ha
    cases hp : t.parent? id with
    | none => simp [hp] at ha
    | some p =>
      have hlt := h.parent_lt hp
      simp only [hp, Option.map_some, Option.getD_some, List.mem_cons] at ha
      rcases ha with rfl | ha
      · exact hlt
      · exact Nat.lt_trans (ih p hlt ha) hlt

/-- A node above an ancestor is an ancestor. -/
theorem mem_ancestors_of_child (h : t.WellFormed) {x c id : NodeId} (hc : c ∈ t.children x)
    (hid : c ∈ t.ancestors id) : x ∈ t.ancestors id := by
  induction id using Nat.strongRecOn with
  | ind id ih =>
    rw [h.ancestors_eq] at hid ⊢
    cases hp : t.parent? id with
    | none => simp [hp] at hid
    | some p =>
      simp only [hp, Option.map_some, Option.getD_some, List.mem_cons] at hid ⊢
      rcases hid with rfl | hid
      · rw [h.ancestors_child hc]
        exact .inr (List.mem_cons_self ..)
      · exact .inr (ih p (h.parent_lt hp) hid)

/-- Adding a node that nothing lists yet keeps the invariant. -/
theorem alloc (h : t.WellFormed) (c : Content) : (t.alloc c).WellFormed where
  parent_lt hp := h.parent_lt (by rwa [parent?_alloc] at hp)
  child_lt hc := by
    rw [children_alloc] at hc
    simpa using Nat.lt_succ_of_lt (h.child_lt hc)
  parent_eq hc := by
    rw [children_alloc] at hc
    rw [parent?_alloc, h.parent_eq hc]
  nodup id := by
    rw [children_alloc]
    exact h.nodup id

/-- Attaching a node that nothing lists yet, under one before it, keeps the invariant. -/
theorem attachAt (h : t.WellFormed) {parent child : NodeId} (index : Nat)
    (hlt : parent < child) (hsize : child < t.size) (hfree : ∀ id, child ∉ t.children id) :
    (t.attachAt parent index child).WellFormed where
  parent_lt {id p} hp := by
    rw [parent?_attachAt t id parent index child hsize] at hp
    split at hp
    · next heq =>
      obtain rfl := Option.some.inj hp
      exact heq ▸ hlt
    · exact h.parent_lt hp
  child_lt {id c} hc := by
    rw [children_attachAt t id parent index child (Nat.lt_trans hlt hsize)] at hc
    rw [size_attachAt]
    split at hc
    · rcases List.eq_or_mem_of_mem_insertIdx hc with rfl | hc
      · exact hsize
      · exact h.child_lt hc
    · exact h.child_lt hc
  parent_eq {id c} hc := by
    rw [children_attachAt t id parent index child (Nat.lt_trans hlt hsize)] at hc
    rw [parent?_attachAt t c parent index child hsize]
    split at hc
    · next heq =>
      subst heq
      rcases List.eq_or_mem_of_mem_insertIdx hc with rfl | hc
      · rw [if_pos rfl]
      · have hne : child ≠ c := fun heq => hfree parent (heq ▸ hc)
        rw [if_neg hne, h.parent_eq hc]
    · have hne : child ≠ c := fun heq => hfree id (heq ▸ hc)
      rw [if_neg hne, h.parent_eq hc]
  nodup id := by
    rw [children_attachAt t id parent index child (Nat.lt_trans hlt hsize)]
    split
    · by_cases hindex : index ≤ (t.children id).length
      · exact (List.perm_insertIdx child _ hindex).nodup_iff.mpr
          (List.nodup_cons.mpr ⟨hfree id, h.nodup id⟩)
      · rw [List.insertIdx_of_length_lt (Nat.lt_of_not_le hindex)]
        exact h.nodup id
    · exact h.nodup id

theorem fresh_not_mem (h : t.WellFormed) {x : NodeId} (hx : t.size ≤ x) (id : NodeId) :
    x ∉ t.children id :=
  fun hmem => absurd (h.child_lt hmem) (Nat.not_lt.mpr hx)

end WellFormed

end MavenPom.Markup.Tree
