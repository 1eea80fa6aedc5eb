import MavenPom.Edit.Editor
import MavenPom.Proofs.Markup.Forest
import MavenPom.Proofs.Pom.Shown

/-!
# The order of elements

The children of a POM's root element, of its profiles and of its entries have an order each. Edits
of a tree keep to it: an element is added where it has its place among the others, and nothing that
stands in an element is moved. Only the names count for the order, whatever their namespaces.
-/

namespace MavenPom

/-! ## Orders of names -/

namespace ElementOrder

/-- The order of the children of an element with a name, other than the root element. -/
def named? : String → Option (List String)
  | "dependency" => some dependency
  | "profile" => some profile
  | _ => none

/-- The names that have a place in an order come in that order. -/
def InOrder (order names : List String) : Prop := (names.filterMap order.idxOf?).Pairwise (· ≤ ·)

instance (order names : List String) : Decidable (InOrder order names) :=
  inferInstanceAs (Decidable (List.Pairwise _ _))

variable {order names front back : List String} {name : String}

theorem isAfter_eq_true {later earlier : String} : isAfter order later earlier = true ↔
    ∃ i j, order.idxOf? earlier = some i ∧ order.idxOf? later = some j ∧ i < j := by
  unfold isAfter
  split
  · next i j hi hj => simp [hi, hj]
  · next hne =>
    simp only [Bool.false_eq_true, false_iff]
    rintro ⟨i, j, hi, hj, -⟩
    exact hne i j hi hj

theorem InOrder.sublist (h : InOrder order names) {names' : List String}
    (hsub : names'.Sublist names) : InOrder order names' :=
  List.Pairwise.sublist (hsub.filterMap _) h

/-- A name may be put before the first one that comes after it. -/
theorem InOrder.insert (h : InOrder order (front ++ back))
    (hfront : ∀ other ∈ front, isAfter order other name = false)
    (hback : ∀ other ∈ back.head?, isAfter order other name = true) :
    InOrder order (front ++ name :: back) := by
  cases hname : order.idxOf? name with
  | none =>
    unfold InOrder at h ⊢
    simp only [List.filterMap_append, List.filterMap_cons, hname] at h ⊢
    exact h
  | some i =>
    have hbefore : ∀ a ∈ front.filterMap order.idxOf?, a ≤ i := by
      intro a ha
      obtain ⟨other, hother, ha⟩ := List.mem_filterMap.mp ha
      by_contra hlt
      have hafter := isAfter_eq_true.mpr ⟨i, a, hname, ha, Nat.lt_of_not_le hlt⟩
      rw [hfront other hother] at hafter
      cases hafter
    unfold InOrder at h ⊢
    rw [List.filterMap_append] at h
    obtain ⟨hsorted, hsorted', hbetween⟩ := List.pairwise_append.mp h
    have hbehind : ∀ b ∈ back.filterMap order.idxOf?, i ≤ b := by
      cases back with
      | nil => simp
      | cons next back =>
        obtain ⟨i', j, hi, hj, hlt⟩ := isAfter_eq_true.mp (hback next rfl)
        obtain rfl := Option.some.inj (hname.symm.trans hi)
        simp only [List.filterMap_cons, hj] at hsorted' ⊢
        intro b hb
        rcases List.mem_cons.mp hb with rfl | hb
        · exact Nat.le_of_lt hlt
        · exact Nat.le_trans (Nat.le_of_lt hlt) ((List.pairwise_cons.mp hsorted').1 b hb)
    simp only [List.filterMap_append, List.filterMap_cons, hname]
    refine List.pairwise_append.mpr ⟨hsorted, List.pairwise_cons.mpr ⟨hbehind, hsorted'⟩, ?_⟩
    intro a ha b hb
    rcases List.mem_cons.mp hb with rfl | hb
    · exact hbefore a ha
    · exact hbetween a ha b hb

/-- What comes before a name in order has no place behind it. -/
theorem InOrder.isAfter_eq_false (h : InOrder order (front ++ name :: back)) :
    ∀ other ∈ front, isAfter order other name = false := by
  intro other hother
  rw [Bool.eq_false_iff]
  intro hafter
  obtain ⟨i, j, hi, hj, hlt⟩ := isAfter_eq_true.mp hafter
  unfold InOrder at h
  simp only [List.filterMap_append, List.filterMap_cons, hi] at h
  have hle := (List.pairwise_append.mp h).2.2 j (List.mem_filterMap.mpr ⟨other, hother, hj⟩) i
    (List.mem_cons_self ..)
  exact Nat.lt_irrefl _ (Nat.lt_of_lt_of_le hlt hle)

theorem not_mem_of_named? {own : String} (h : named? own = some order) (hname : name ∈ order) :
    ':' ∉ name.toList := by
  have hdependency : ∀ name ∈ dependency, ':' ∉ name.toList := by decide
  have hprofile : ∀ name ∈ profile, ':' ∉ name.toList := by decide
  unfold named? at h
  split at h
  · cases h
    exact hdependency name hname
  · cases h
    exact hprofile name hname
  · cases h

end ElementOrder

/-! ## Orders of elements -/

namespace Markup.Tree

open ElementOrder

variable {t t' t'' : Tree} {id parent : NodeId}

/-- The names of the child elements. -/
def childNames (t : Tree) (id : NodeId) : List String := (t.childElements id).map t.localName

/-- The order that the children of an element have. -/
def order? (t : Tree) (id : NodeId) : Option (List String) :=
  if t.rootElement? = some id then some ElementOrder.project else named? (t.localName id)

/-- A version element or a property, which is what edits give a text. -/
def IsValue (t : Tree) (id : NodeId) : Prop :=
  t.localName id = "version" ∨ ∃ p ∈ t.parent? id, t.localName p = "properties"

/-- A version or a property that has been given a text in the place of all that was in it. -/
structure Rewritten (t t' : Tree) (id : NodeId) : Prop where
  isValue : t.IsValue id
  fresh : ∀ c ∈ t'.children id, t.size ≤ c
  text : ∃ c ∈ t'.children id, ∃ raw, t'.content c = .text raw

/-- `t'` is `t` with elements added in order, and with texts for some versions and properties. -/
structure KeepsOrder (t t' : Tree) : Prop where
  wellFormed : t'.WellFormed
  size_le : t.size ≤ t'.size
  content : ∀ x < t.size, t'.content x = t.content x
  parent? : ∀ x < t.size, ∀ p ∈ t'.parent? x, p ∈ t.parent? x
  rootElement? : t'.rootElement? = t.rootElement?
  /-- What is in an element stays there, one after the other, unless the element is rewritten. -/
  kept : ∀ x < t.size, (t'.children x).filter (· < t.size) = t.children x ∨ t.Rewritten t' x
  /-- What is added to an element with an order has a place in the order. -/
  placed : ∀ x, ∀ order ∈ t'.order? x, ∀ c ∈ t'.childElements x, t.size ≤ c →
    t'.localName c ∈ order
  /-- The children of an element are in order if they were, or if the element is new. -/
  inOrder : ∀ x, ∀ order ∈ t'.order? x, (x < t.size → InOrder order (t.childNames x)) →
    InOrder order (t'.childNames x)

theorem localName_congr (h : t'.content id = t.content id) : t'.localName id = t.localName id := by
  simp only [localName, element?, h]

theorem isElement_of_named? (h : named? (t.localName id) ≠ none) : t.isElement id = true := by
  unfold localName at h
  cases he : t.element? id with
  | none =>
    rw [he] at h
    exact absurd rfl h
  | some e => rw [isElement, he]; rfl

theorem isElement_of_order? {order : List String} (h : order ∈ t.order? id) :
    t.isElement id = true := by
  unfold order? at h
  split at h
  · next hroot => exact List.find?_some hroot
  · exact isElement_of_named? fun hnone => by simp [hnone] at h

/-- The names in an order have no prefix. -/
theorem not_mem_of_order? {order : List String} (h : order ∈ t.order? id) {name : String}
    (hname : name ∈ order) : ':' ∉ name.toList := by
  have hproject : ∀ name ∈ ElementOrder.project, ':' ∉ name.toList := by decide
  unfold order? at h
  split at h
  · obtain rfl := Option.some.inj h
    exact hproject name hname
  · exact not_mem_of_named? h hname

theorem childNames_congr (ht : t.WellFormed) (hcontent : ∀ x < t.size, t'.content x = t.content x)
    (hchildren : t'.children id = t.children id) :
    t'.childElements id = t.childElements id ∧ t'.childNames id = t.childNames id := by
  have helements : t'.childElements id = t.childElements id := by
    rw [childElements, hchildren]
    exact List.filter_congr fun c hc => isElement_congr (hcontent c (ht.child_lt hc))
  refine ⟨helements, ?_⟩
  rw [childNames, helements]
  exact List.map_congr_left fun c hc =>
    localName_congr (hcontent c (ht.child_lt (List.mem_of_mem_filter hc)))

theorem rootElement?_congr (ht : t.WellFormed)
    (hcontent : ∀ x < t.size, t'.content x = t.content x)
    (hchildren : t'.children root = t.children root) : t'.rootElement? = t.rootElement? := by
  have helements := (childNames_congr ht hcontent hchildren).1
  rw [rootElement?, rootElement?, ← List.head?_filter, ← List.head?_filter]
  exact congrArg List.head? helements

namespace KeepsOrder

theorem localName_eq (h : KeepsOrder t t') (hid : id < t.size) :
    t'.localName id = t.localName id :=
  localName_congr (h.content id hid)

theorem order?_eq (h : KeepsOrder t t') (hid : id < t.size) : t'.order? id = t.order? id := by
  rw [order?, order?, h.rootElement?, h.localName_eq hid]

theorem refl (ht : t.WellFormed) : KeepsOrder t t where
  wellFormed := ht
  size_le := Nat.le_refl _
  content _ _ := rfl
  parent? _ _ _ hp := hp
  rootElement? := rfl
  kept _ _ := .inl (List.filter_eq_self.mpr fun _ hc => decide_eq_true (ht.child_lt hc))
  placed _ _ _ _ hc hle :=
    absurd (ht.child_lt (List.mem_of_mem_filter hc)) (Nat.not_lt.mpr hle)
  inOrder _ _ horder h := h (lt_size_of_isElement (isElement_of_order? horder))

/-- What is a version or a property after the edits has been one before. -/
theorem isValue (h : KeepsOrder t t') (hid : id < t.size) (hvalue : t'.IsValue id) :
    t.IsValue id := by
  rcases hvalue with hversion | ⟨p, hp, hproperties⟩
  · exact .inl ((h.localName_eq hid).symm.trans hversion)
  · have hlt : p < t.size := Nat.lt_trans (h.wellFormed.parent_lt hp) hid
    exact .inr ⟨p, h.parent? id hid p hp, (h.localName_eq hlt).symm.trans hproperties⟩

theorem trans (h : KeepsOrder t t') (h' : KeepsOrder t' t'') : KeepsOrder t t'' where
  wellFormed := h'.wellFormed
  size_le := Nat.le_trans h.size_le h'.size_le
  content x hx := by rw [h'.content x (Nat.lt_of_lt_of_le hx h.size_le), h.content x hx]
  parent? x hx p hp := h.parent? x hx p (h'.parent? x (Nat.lt_of_lt_of_le hx h.size_le) p hp)
  rootElement? := h'.rootElement?.trans h.rootElement?
  kept x hx := by
    have hx' := Nat.lt_of_lt_of_le hx h.size_le
    rcases h'.kept x hx' with hkept' | ⟨hvalue, hfresh, htext⟩
    · have hmem : ∀ c ∈ t'.children x, c ∈ t''.children x := fun c hc =>
        List.mem_of_mem_filter (hkept'.symm ▸ hc)
      rcases h.kept x hx with hkept | ⟨hvalue, hfresh, c, hc, raw, hraw⟩
      · refine .inl ?_
        rw [← hkept, ← hkept', List.filter_filter]
        refine List.filter_congr fun c _ => ?_
        rw [Bool.eq_iff_iff, Bool.and_eq_true, decide_eq_true_eq, decide_eq_true_eq]
        exact ⟨fun hc => ⟨hc, Nat.lt_of_lt_of_le hc h.size_le⟩, And.left⟩
      · refine .inr ⟨hvalue, fun c hc => ?_, c, hmem c hc, raw, ?_⟩
        · by_contra hlt
          have hc' : c < t'.size := Nat.lt_of_lt_of_le (Nat.lt_of_not_le hlt) h.size_le
          refine hlt (hfresh c ?_)
          rw [← hkept']
          exact List.mem_filter.mpr ⟨hc, decide_eq_true hc'⟩
        · rw [h'.content c (h.wellFormed.child_lt hc), hraw]
    · exact .inr ⟨h.isValue hx hvalue, fun c hc => Nat.le_trans h.size_le (hfresh c hc), htext⟩
  placed x order horder c hc hle := by
    by_cases hc' : c < t'.size
    · have hx : x < t'.size :=
        Nat.lt_trans (h'.wellFormed.lt_child (List.mem_of_mem_filter hc)) hc'
      have hchild : c ∈ t'.childElements x := by
        obtain ⟨hchild, helement⟩ := List.mem_filter.mp hc
        refine List.mem_filter.mpr ⟨?_, isElement_congr (h'.content c hc') ▸ helement⟩
        rcases h'.kept x hx with hkept | ⟨-, hfresh, -⟩
        · rw [← hkept]
          exact List.mem_filter.mpr ⟨hchild, decide_eq_true hc'⟩
        · exact absurd hc' (Nat.not_lt.mpr (hfresh c hchild))
      rw [h'.localName_eq hc']
      exact h.placed x order (h'.order?_eq hx ▸ horder) c hchild hle
    · exact h'.placed x order horder c hc (Nat.le_of_not_lt hc')
  inOrder x order horder hbefore :=
    h'.inOrder x order horder fun hx => h.inOrder x order (h'.order?_eq hx ▸ horder) hbefore

/-- A version, a property or a new element may be given a text. -/
theorem setText (h : KeepsOrder t t') (hid : id < t'.size) (hroot : id ≠ root)
    (hvalue : id < t.size → t'.IsValue id) (text : String) :
    KeepsOrder t (t'.setText id text) := by
  have hchildren : ∀ x, x ≠ id → (t'.setText id text).children x = t'.children x := fun x hx => by
    rw [children_setText text hid, if_neg (Ne.symm hx)]
  have hcontent : ∀ x < t'.size, (t'.setText id text).content x = t'.content x := fun x hx => by
    rw [content_setText, if_neg (Nat.ne_of_lt hx)]
  have hempty : (t'.setText id text).childElements id = [] := childElements_setText hid text
  have hsame := rootElement?_congr h.wellFormed hcontent (hchildren root (Ne.symm hroot))
  have horders : ∀ x, ∀ order ∈ (t'.setText id text).order? x, order ∈ t'.order? x := by
    intro x order horder
    have hx := lt_size_of_isElement (isElement_of_setText (isElement_of_order? horder))
    rwa [order?, hsame, localName_congr (hcontent x hx)] at horder
  refine ⟨h.wellFormed.setText text hid, ?_, fun x hx => ?_, fun x hx p hp => ?_,
    hsame.trans h.rootElement?, fun x hx => ?_, fun x order horder c hc hle => ?_,
    fun x order horder hbefore => ?_⟩
  · rw [size_setText]
    exact Nat.le_succ_of_le h.size_le
  · rw [hcontent x (Nat.lt_of_lt_of_le hx h.size_le), h.content x hx]
  · have hne : t'.size ≠ x := Nat.ne_of_gt (Nat.lt_of_lt_of_le hx h.size_le)
    rw [parent?_setText, if_neg hne] at hp
    split at hp
    · cases hp
    · exact h.parent? x hx p hp
  · by_cases hxid : x = id
    · subst hxid
      have hnew : (t'.setText x text).children x = [t'.size] := by
        rw [children_setText text hid, if_pos rfl]
      refine .inr ⟨h.isValue hx (hvalue hx), fun c hc => ?_, t'.size, ?_, escape text, ?_⟩
      · rw [hnew] at hc
        exact List.mem_singleton.mp hc ▸ h.size_le
      · rw [hnew]
        exact List.mem_singleton_self _
      · rw [content_setText, if_pos rfl]
    · rw [hchildren x hxid]
      refine (h.kept x hx).imp_right fun ⟨hvalue, hfresh, c, hc, raw, hraw⟩ => ?_
      refine ⟨hvalue, by rwa [hchildren x hxid], c, by rwa [hchildren x hxid], raw, ?_⟩
      rw [hcontent c (h.wellFormed.child_lt hc), hraw]
  · by_cases hxid : x = id
    · rw [hxid, hempty] at hc
      cases hc
    · rw [(childNames_congr h.wellFormed hcontent (hchildren x hxid)).1] at hc
      rw [localName_congr (hcontent c (h.wellFormed.child_lt (List.mem_of_mem_filter hc)))]
      exact h.placed x order (horders x order horder) c hc hle
  · by_cases hxid : x = id
    · rw [hxid, childNames, hempty]
      exact List.Pairwise.nil
    · rw [(childNames_congr h.wellFormed hcontent (hchildren x hxid)).2]
      exact h.inOrder x order (horders x order horder) hbefore

end KeepsOrder

/-! ## Adding an element -/

section Insert

variable {name : String} {front back : List NodeId}

/-- Where the new element stands directly before a sibling, it divides the child elements there. -/
theorem Inserted.division_eq (h : Inserted t t' parent name front back) (ht : t.WellFormed)
    {before blank : NodeId} {l r : List NodeId} (hchildren : t.children parent = l ++ before :: r)
    (hchildren' : t'.children parent = l ++ t.size :: blank :: before :: r)
    (hsibling : t.isElement before = true) (hblank : t'.isElement blank = false) :
    front = l.filter t.isElement ∧ back = before :: r.filter t.isElement := by
  have hlt : ∀ x ∈ l ++ before :: r, x < t.size := fun x hx => ht.child_lt (hchildren ▸ hx)
  have hsame : ∀ x ∈ l ++ before :: r, t'.isElement x = t.isElement x := fun x hx =>
    isElement_congr (h.content x (hlt x hx))
  have hnew : t'.isElement t.size = true := by
    rw [Tree.isElement, h.element?_new]
    rfl
  have hafter : t'.childElements parent =
      l.filter t.isElement ++ t.size :: before :: r.filter t.isElement := by
    rw [childElements, hchildren', List.filter_append, List.filter_cons_of_pos hnew,
      List.filter_cons_of_neg (by simp [hblank]),
      List.filter_congr fun x hx => hsame x (by simp [hx]),
      List.filter_congr fun x hx => hsame x (List.mem_append_right _ hx),
      List.filter_cons_of_pos hsibling]
  have hfresh : ∀ ids : List NodeId, (∀ x ∈ ids, x ∈ l ++ before :: r) → t.size ∉ ids :=
    fun ids hids hmem => Nat.lt_irrefl _ (hlt _ (hids _ hmem))
  have hdivided := hafter.symm.trans h.after
  rw [List.append_cons_inj_of_notMem] at hdivided
  · exact ⟨hdivided.1.symm, hdivided.2.2.symm⟩
  · exact hfresh _ fun x hx => List.mem_append_left _ (List.mem_of_mem_filter hx)
  · refine hfresh _ fun x hx => List.mem_append_right _ ?_
    exact List.mem_cons.mpr ((List.mem_cons.mp hx).imp_right List.mem_of_mem_filter)

/-- An insertion before a sibling divides the child elements there. -/
theorem inserted_before (ht : t.WellFormed) (hparent : parent < t.size) {before : NodeId}
    (hsplit : t.childElements parent = front ++ before :: back) (name : String) (style : Indent) :
    (t.insertElementBefore parent before name style).2 = t.size ∧
      Inserted t (t.insertElementBefore parent before name style).1 parent name front
        (before :: back) := by
  obtain ⟨hid, front', back', hinserted⟩ :=
    inserted_insertElementBefore name ht hparent before style
  have hmem : before ∈ t.childElements parent := by simp [hsplit]
  obtain ⟨hbefore, hsibling⟩ := List.mem_filter.mp hmem
  refine ⟨hid, ?_⟩
  rcases insertElementBefore_cases name style hparent before with
    ⟨hnot, -⟩ | ⟨l, r, hchildren, -, -, hchildren', hblank⟩
  · exact absurd hbefore hnot
  obtain ⟨rfl, rfl⟩ := hinserted.division_eq ht hchildren hchildren' hsibling
    (by simp [Tree.isElement, element?, hblank])
  have hnodup : (l ++ before :: r).Nodup := hchildren ▸ ht.nodup parent
  obtain ⟨hl, hr⟩ : before ∉ l ∧ before ∉ r := by
    have hnot := (List.nodup_middle.mp hnodup).notMem
    rwa [List.mem_append, not_or] at hnot
  have hold : l.filter t.isElement ++ before :: r.filter t.isElement = front ++ before :: back := by
    rw [← hsplit, childElements, hchildren, List.filter_append, List.filter_cons_of_pos hsibling]
  rw [List.append_cons_inj_of_notMem] at hold
  · obtain ⟨rfl, -, rfl⟩ := hold
    exact hinserted
  · exact fun hmem => hl (List.mem_of_mem_filter hmem)
  · exact fun hmem => hr (List.mem_of_mem_filter hmem)

theorem Inserted.childNames_eq (h : Inserted t t' parent name front back) (ht : t.WellFormed)
    (hname : ':' ∉ name.toList) :
    t.childNames parent = front.map t.localName ++ back.map t.localName ∧
      t'.childNames parent = front.map t.localName ++ name :: back.map t.localName := by
  have hnew : t'.localName t.size = name := by
    rw [localName, h.element?_new]
    exact (elementUnder_spec hname).1
  have hold : ∀ ids : List NodeId, (∀ x ∈ ids, x ∈ t.childElements parent) →
      ids.map t'.localName = ids.map t.localName := fun ids hids =>
    List.map_congr_left fun x hx =>
      localName_congr (h.content x (ht.child_lt (List.mem_of_mem_filter (hids x hx))))
  constructor
  · rw [childNames, h.before, List.map_append]
  · rw [childNames, h.after, List.map_append, List.map_cons, hnew, hold, hold]
    · exact fun x hx => h.before ▸ List.mem_append_right _ hx
    · exact fun x hx => h.before ▸ List.mem_append_left _ hx

/-- An element may be added before the first one that comes after it in the order, if it has a place
    there. Without an order, it may be added anywhere. -/
theorem Inserted.keepsOrder (h : Inserted t t' parent name front back) (ht : t.WellFormed)
    (hroot : root < parent) (hparent : parent < t.size)
    (htext : ∀ x, t.size < x → x < t'.size → ∃ raw, t'.content x = .text raw)
    (hplace : ∀ order ∈ t.order? parent, name ∈ order ∧
      (∀ x ∈ front, isAfter order (t.localName x) name = false) ∧
      ∀ x ∈ back.head?, isAfter order (t.localName x) name = true) : KeepsOrder t t' := by
  have hsame := rootElement?_congr ht h.content
    (h.children root (Nat.lt_trans hroot hparent) (Nat.ne_of_lt hroot))
  have horders : ∀ x < t.size, t'.order? x = t.order? x := fun x hx => by
    rw [order?, order?, hsame, localName_congr (h.content x hx)]
  refine ⟨h.wellFormed, Nat.le_of_lt h.size_lt, h.content, fun x hx p hp => h.parent? x hx ▸ hp,
    hsame, fun x hx => .inl ?_, fun x order horder c hc hle => ?_, fun x order horder hbefore => ?_⟩
  · by_cases heq : x = parent
    · exact heq ▸ h.kept
    · rw [h.children x hx heq]
      exact List.filter_eq_self.mpr fun c hc => decide_eq_true (ht.child_lt hc)
  · -- The only new element is the one that has been added.
    obtain ⟨hchild, helement⟩ := List.mem_filter.mp hc
    obtain rfl := eq_size_of_isElement htext hle helement
    obtain rfl : parent = x :=
      Option.some.inj (h.parent?_new.symm.trans (h.wellFormed.parent_eq hchild))
    have horder' := horders parent hparent ▸ horder
    have hmem := (hplace order horder').1
    rwa [localName, h.element?_new, Option.map_some, Option.getD_some,
      (elementUnder_spec (not_mem_of_order? horder' hmem)).1]
  · by_cases hx : x < t.size
    · by_cases heq : x = parent
      · subst heq
        have horder' := horders x hx ▸ horder
        obtain ⟨hmem, hfront, hback⟩ := hplace order horder'
        obtain ⟨hold, hnew⟩ := h.childNames_eq ht (not_mem_of_order? horder' hmem)
        have hsorted := hbefore hx
        rw [hold] at hsorted
        rw [hnew]
        refine hsorted.insert (by simpa using hfront) fun other hother => ?_
        rw [List.head?_map] at hother
        obtain ⟨y, hy, rfl⟩ := Option.map_eq_some_iff.mp hother
        exact hback y hy
      · rw [(childNames_congr ht h.content (h.children x hx heq)).2]
        exact hbefore hx
    · have helement := isElement_of_order? horder
      obtain rfl := eq_size_of_isElement htext (Nat.le_of_not_lt hx) helement
      rw [childNames, childElements, h.children_new]
      exact List.Pairwise.nil

end Insert

end Markup.Tree

end MavenPom
