import MavenPom.Proofs.Markup.Restoration
import MavenPom.Proofs.Markup.Uniform

/-!
# Arenas under edits

Reading a document gives a tree, and edits of its elements keep it one, also of those that are no
longer in the document. Whatever has been taken out of the document stays a tree of its own. A new
element is a child of the one that it is added to, in its namespace.
-/

namespace MavenPom.Markup

namespace Tree

/-! ## Parents and children -/

/-- A well-formed arena in which every node with a parent is one of its children. -/
structure Linked (t : Tree) : Prop extends WellFormed t where
  listed : ∀ {id p : NodeId}, t.parent? id = some p → id ∈ t.children p

theorem lt_size_of_parent? {t : Tree} {id p : NodeId} (h : t.parent? id = some p) :
    id < t.size := by
  by_contra hge
  rw [parent?, Array.getElem?_eq_none (Nat.le_of_not_lt hge)] at h
  cases h

namespace Linked

variable {t t' : Tree} {parent id : NodeId}

theorem empty : Tree.empty.Linked where
  toWellFormed := .empty
  listed {id p} h := by
    cases id <;> simp [Tree.empty, parent?] at h

theorem pushChild (h : t.Linked) (hparent : parent < t.size) (c : Content) :
    (t.pushChild parent c).Linked where
  toWellFormed := h.toWellFormed.pushChild c hparent
  listed {x p} hp := by
    rw [parent?_pushChild] at hp
    rw [children_pushChild c p hparent]
    split at hp
    · next heq =>
      obtain rfl := Option.some.inj hp
      rw [if_pos rfl, heq]
      exact List.mem_append_right _ (List.mem_singleton_self _)
    · split
      · exact List.mem_append_left _ (h.listed hp)
      · exact h.listed hp

/-- What has been replaced by a text has no parent any more. -/
theorem setText (h : t.Linked) (hid : id < t.size) (text : String) :
    (t.setText id text).Linked where
  toWellFormed := h.toWellFormed.setText text hid
  listed {x p} hp := by
    rw [parent?_setText] at hp
    rw [children_setText text hid]
    split at hp
    · next heq =>
      obtain rfl := Option.some.inj hp
      rw [if_pos rfl, heq]
      exact List.mem_singleton_self _
    · split at hp
      · cases hp
      · next hnot =>
        have hmem := h.listed hp
        rw [if_neg fun heq : id = p => hnot (heq ▸ hmem)]
        exact hmem

/-- Adding an element keeps an arena linked, if all new nodes are children of the same node. -/
theorem inserted {name : String} {front back : List NodeId} (h : t.Linked)
    (hinserted : Inserted t t' parent name front back)
    (hnew : ∀ x, t.size ≤ x → x < t'.size → x ∈ t'.children parent) : t'.Linked where
  toWellFormed := hinserted.wellFormed
  listed {x p} hp := by
    by_cases hx : x < t.size
    · rw [hinserted.parent? x hx] at hp
      have hmem := h.listed hp
      by_cases heq : p = parent
      · rw [heq, ← hinserted.kept] at hmem
        exact heq ▸ List.mem_of_mem_filter hmem
      · rw [hinserted.children p (Nat.lt_trans (h.parent_lt hp) hx) heq]
        exact hmem
    · have hmem := hnew x (Nat.le_of_not_lt hx) (lt_size_of_parent? hp)
      rw [hinserted.wellFormed.parent_eq hmem] at hp
      exact Option.some.inj hp ▸ hmem

end Linked

section Insert

variable {t : Tree} {parent : NodeId} (name : String) (style : Indent)

/-- All new nodes stand under the node that an element is appended to. -/
theorem mem_children_appendElement (hparent : parent < t.size) {x : NodeId} (hx : t.size ≤ x)
    (hlt : x < (t.appendElement parent name style).1.size) :
    x ∈ (t.appendElement parent name style).1.children parent := by
  cases hlast : (t.children parent).getLast?.any t.isBlankText with
  | true =>
    obtain ⟨last, hlast', hblank⟩ : ∃ last, (t.children parent).getLast? = some last ∧
        t.isBlankText last = true := by
      cases h : (t.children parent).getLast? <;> simp_all
    obtain ⟨ini, hsplit⟩ := List.getLast?_eq_some_iff.mp hlast'
    rw [(appendElement_before style name hparent hsplit hblank).1, if_pos rfl]
    have hsize : (t.appendElement parent name style).1.size = t.size + 2 := by
      simp [appendElement, hlast, insertBlank]
    rw [hsize] at hlt
    have hcases : x = t.size ∨ x = t.size + 1 := by
      simp only [NodeId] at *
      omega
    rcases hcases with rfl | rfl <;> simp
  | false =>
    rw [(appendElement_last style name hparent hlast).1, if_pos rfl]
    have hsize : (t.appendElement parent name style).1.size = t.size + 3 := by
      simp [appendElement, hlast, insertBlank, attach]
    rw [hsize] at hlt
    have hcases : x = t.size ∨ x = t.size + 1 ∨ x = t.size + 2 := by
      simp only [NodeId] at *
      omega
    rcases hcases with rfl | rfl | rfl <;> simp

/-- What inserting an element does. Where the sibling is no child of the node, the element is
    appended. -/
theorem insertElementBefore_cases (hparent : parent < t.size) (before : NodeId) :
    (before ∉ t.children parent ∧
      t.insertElementBefore parent before name style = t.appendElement parent name style) ∨
    ∃ front back, t.children parent = front ++ before :: back ∧
      (t.insertElementBefore parent before name style).2 = t.size ∧
      (t.insertElementBefore parent before name style).1.size = t.size + 2 ∧
      (t.insertElementBefore parent before name style).1.children parent =
        front ++ t.size :: (t.size + 1) :: before :: back ∧
      (t.insertElementBefore parent before name style).1.content (t.size + 1) =
        .text (style.newline (t.depth parent + 1)) := by
  cases hindex : (t.children parent).idxOf? before with
  | none =>
    refine .inl ⟨List.idxOf?_eq_none_iff.mp hindex, ?_⟩
    unfold insertElementBefore
    rw [hindex]
  | some index =>
    obtain ⟨hlt, heq, -⟩ := List.idxOf?_eq_some_iff.mp hindex
    obtain ⟨front, back, hsplit, rfl⟩ : ∃ front back,
        t.children parent = front ++ before :: back ∧ front.length = index := by
      refine ⟨(t.children parent).take index, (t.children parent).drop (index + 1), ?_,
        by simp [Nat.le_of_lt hlt]⟩
      rw [← heq, List.getElem_cons_drop, List.take_append_drop]
    obtain ⟨hchildren, hcontent⟩ := insertElementBefore_at style name hparent hsplit hindex
    refine .inr ⟨front, back, hsplit, ?_, ?_, by rw [hchildren, if_pos rfl],
      by rw [hcontent, if_pos rfl]⟩
    · simp [insertElementBefore, hindex]
    · simp [insertElementBefore, hindex]

/-- All new nodes stand under the node that an element is inserted in. -/
theorem mem_children_insertElementBefore (hparent : parent < t.size) (before : NodeId) {x : NodeId}
    (hx : t.size ≤ x) (hlt : x < (t.insertElementBefore parent before name style).1.size) :
    x ∈ (t.insertElementBefore parent before name style).1.children parent := by
  rcases insertElementBefore_cases name style hparent before with
    ⟨-, heq⟩ | ⟨front, back, -, -, hsize, hchildren, -⟩
  · rw [heq] at hlt ⊢
    exact mem_children_appendElement name style hparent hx hlt
  · rw [hsize] at hlt
    rw [hchildren]
    have hcases : x = t.size ∨ x = t.size + 1 := by
      simp only [NodeId] at *
      omega
    rcases hcases with rfl | rfl <;> simp

end Insert

/-! ## Trees -/

/-- The node that a way leads to, given by a place among the children at each step. -/
def follow (t : Tree) : NodeId → List ℕ → Option NodeId
  | id, [] => some id
  | id, place :: way => (t.children id)[place]?.bind fun c => t.follow c way

/-- What is needed of an arena so that it is a tree, with others beside it for what has been taken
    out of the document. A node is a child of its parent, once, and of no other node. From each node
    the way up along the parents comes to an end, which is what the ancestors are. From the document
    at most one way leads to a node. -/
structure IsForest (t : Tree) : Prop where
  count_children : ∀ p c, (t.children p).count c = if t.parent? c = some p then 1 else 0
  ends : ∀ id, ∃ n, (fun node : Option NodeId => node.bind t.parent?)^[n] (some id) = none
  ancestors_eq : ∀ id, t.ancestors id = match t.parent? id with
    | none => []
    | some p => p :: t.ancestors p
  way_unique : ∀ way way' id, t.follow root way = some id → t.follow root way' = some id →
    way = way'

section Trees

variable {t : Tree} {a id : NodeId}

theorem WellFormed.iterate_parent? (h : t.WellFormed) (id : NodeId) :
    ∃ n, (fun node : Option NodeId => node.bind t.parent?)^[n] (some id) = none := by
  induction id using Nat.strongRecOn with
  | ind id ih =>
    cases hp : t.parent? id with
    | none => exact ⟨1, hp⟩
    | some p =>
      obtain ⟨n, hn⟩ := ih p (h.parent_lt hp)
      exact ⟨n + 1, by rw [Function.iterate_succ_apply, Option.bind_some, hp, hn]⟩

/-- A way leads to the node that it starts at or to one below it. -/
theorem WellFormed.mem_ancestors_of_follow (h : t.WellFormed) {way : List ℕ}
    (hway : t.follow a way = some id) : a ∈ id :: t.ancestors id := by
  induction way generalizing a with
  | nil =>
    obtain rfl : a = id := Option.some.inj hway
    exact List.mem_cons_self ..
  | cons place way ih =>
    obtain ⟨c, hc, hway⟩ := Option.bind_eq_some_iff.mp hway
    have hchild := List.mem_of_getElem? hc
    refine List.mem_cons_of_mem _ ?_
    rcases List.mem_cons.mp (ih hway) with rfl | hmem
    · rw [h.ancestors_child hchild]
      exact List.mem_cons_self ..
    · exact h.mem_ancestors_of_child hchild hmem

/-- No way leads back to where it started. -/
theorem WellFormed.follow_ne_self (h : t.WellFormed) (place : ℕ) (way : List ℕ) :
    t.follow a (place :: way) ≠ some a := by
  intro hway
  obtain ⟨c, hc, hway⟩ := Option.bind_eq_some_iff.mp hway
  have hlt := h.lt_child (List.mem_of_getElem? hc)
  rcases List.mem_cons.mp (h.mem_ancestors_of_follow hway) with rfl | hmem
  · exact Nat.lt_irrefl _ hlt
  · exact Nat.lt_irrefl _ (Nat.lt_trans hlt (h.lt_of_mem_ancestors hmem))

theorem WellFormed.way_unique (h : t.WellFormed) {way way' : List ℕ}
    (hway : t.follow a way = some id) (hway' : t.follow a way' = some id) : way = way' := by
  induction way generalizing a way' with
  | nil =>
    obtain rfl : a = id := Option.some.inj hway
    cases way' with
    | nil => rfl
    | cons place' way' => exact absurd hway' (h.follow_ne_self place' way')
  | cons place way ih =>
    cases way' with
    | nil =>
      obtain rfl : a = id := Option.some.inj hway'
      exact absurd hway (h.follow_ne_self place way)
    | cons place' way' =>
      obtain ⟨c, hc, hway⟩ := Option.bind_eq_some_iff.mp hway
      obtain ⟨c', hc', hway'⟩ := Option.bind_eq_some_iff.mp hway'
      -- Both lead through the only child on the way, which is listed at one place only.
      obtain rfl := h.child_on_way_unique (List.mem_of_getElem? hc) (List.mem_of_getElem? hc')
        (h.mem_ancestors_of_follow hway) (h.mem_ancestors_of_follow hway')
      have hplace : place = place' := by
        obtain ⟨hlt, -⟩ := List.getElem?_eq_some_iff.mp hc
        exact (List.getElem?_inj hlt (h.nodup a)).mp (hc.trans hc'.symm)
      rw [hplace, ih hway hway']

theorem Linked.isForest (h : t.Linked) : t.IsForest where
  count_children p c := by
    split
    · next hp => exact List.count_eq_one_of_mem (h.nodup p) (h.listed hp)
    · next hp => exact List.count_eq_zero.mpr fun hmem => hp (h.parent_eq hmem)
  ends := h.iterate_parent?
  ancestors_eq id := by
    rw [h.toWellFormed.ancestors_eq]
    cases t.parent? id <;> rfl
  way_unique _ _ _ := h.toWellFormed.way_unique

end Trees

/-! ## Reading -/

theorem Linked.foldlM {d d' : Draft} (hd : d.Sound) (h : d.tree.Linked) {lexemes : List Lexeme}
    (hfold : lexemes.foldlM Draft.take d = .ok d') : d'.tree.Linked := by
  induction lexemes generalizing d with
  | nil =>
    cases hfold
    exact h
  | cons lexeme rest ih =>
    obtain ⟨next, htake, hrest⟩ := Draft.exists_of_foldlM_cons hfold
    refine ih (hd.take htake) ?_ hrest
    rcases Draft.take_cases htake with ⟨c, -, rfl | rfl⟩ | ⟨-, rfl⟩
    · exact h.pushChild hd.current_lt c
    · exact h.pushChild hd.current_lt c
    · exact h

theorem parse_of_isOk {cs : List Char} (h : (ofScan (Token.scanChars cs)).isOk = true) :
    parse (String.ofList cs) =
      .ok ((ofScan (Token.scanChars cs)).toOption.getD Tree.empty) := by
  rw [parse_ofList]
  cases hscan : ofScan (Token.scanChars cs) with
  | error fault =>
    rw [hscan] at h
    cases h
  | ok t => rfl

theorem linked_of_parse {text : String} {t : Tree} (h : parse text = .ok t) : t.Linked := by
  obtain ⟨d, hdraft, rfl, -⟩ := exists_draft_of_parse h
  exact Linked.empty.foldlM .start hdraft

/-! ## New elements -/

/-- `t'` is `t` with a new child element of `parent` in the same namespace, given that its local
    name is none with a prefix of its own. -/
structure Adopted (t t' : Tree) (parent new : NodeId) (name : String) : Prop where
  parent? : t'.parent? new = some parent
  isElement : t'.isElement new = true
  nsPrefix : ':' ∉ name.toList →
    (t'.element? new).bind (·.nsPrefix) = (t.element? parent).bind (·.nsPrefix)
  inNamespace : ':' ∉ name.toList → t'.namespace? new = t'.namespace? parent
  sameNamespace : t'.namespace? parent = t.namespace? parent

section Adopted

variable {t t' : Tree} {parent new : NodeId} {name : String} {front back : List NodeId}

theorem WellFormed.not_mem_ancestors_self (h : t.WellFormed) (id : NodeId) :
    id ∉ t.ancestors id :=
  fun hmem => Nat.lt_irrefl _ (h.lt_of_mem_ancestors hmem)

theorem Inserted.adopted (h : Inserted t t' parent name front back) (ht : t.WellFormed)
    (helement : t.isElement parent = true) : Adopted t t' parent t.size name := by
  obtain ⟨e, he⟩ := Option.isSome_iff_exists.mp helement
  have hparent := lt_size_of_element? he
  have hnamespace := (h.within ht hparent).namespace?_eq hparent (ht.not_mem_ancestors_self parent)
  refine ⟨h.parent?_new, ?_, fun hname => ?_, fun hname => ?_, hnamespace⟩
  · rw [Tree.isElement, h.element?_new]
    rfl
  · rw [h.element?_new]
    exact (elementUnder_spec hname).2.1
  · rw [h.namespace?_new ht helement hname, hnamespace]

/-- A new element stays where it is when it is given a text. -/
theorem Adopted.setText (h : Adopted t t' parent new name) (ht' : t'.WellFormed) (text : String) :
    Adopted t (t'.setText new text) parent new name ∧
      (t'.setText new text).childElements parent = t'.childElements parent := by
  have hnew : new < t'.size := lt_size_of_parent? h.parent?
  have hlt : parent < new := ht'.parent_lt h.parent?
  have hparent : parent < t'.size := Nat.lt_trans hlt hnew
  have hwithin := within_setText ht' hnew text
  have hnot : new ∉ t'.ancestors parent := fun hmem =>
    Nat.lt_asymm hlt (ht'.lt_of_mem_ancestors hmem)
  have hself := ht'.not_mem_ancestors_self new
  have hsame := hwithin.namespace?_eq hparent hnot
  refine ⟨⟨?_, ?_, fun hname => ?_, fun hname => ?_, hsame.trans h.sameNamespace⟩,
    hwithin.childElements_eq hparent (Nat.ne_of_lt hlt) hnot⟩
  · rw [hwithin.parent? new hnew hself, h.parent?]
  · rw [isElement_congr (hwithin.content new hnew), h.isElement]
  · rw [hwithin.element?_eq hnew, h.nsPrefix hname]
  · rw [hwithin.namespace?_eq hnew hself, hsame, h.inNamespace hname]

end Adopted

end Tree

/-! ## Edits -/

namespace Amendment

/-- The edit is one of elements of the arena. -/
def OfElements (t : Tree) : Amendment → Prop
  | .setText id _ => t.isElement id = true
  | .appendElement parent _ _ => t.isElement parent = true
  | .appendTextElement parent _ _ _ => t.isElement parent = true
  | .insertElementBefore parent before _ _ => t.isElement parent = true ∧ t.isElement before = true

instance (t : Tree) : (edit : Amendment) → Decidable (edit.OfElements t)
  | .setText id _ => inferInstanceAs (Decidable (t.isElement id = true))
  | .appendElement parent _ _ => inferInstanceAs (Decidable (t.isElement parent = true))
  | .appendTextElement parent _ _ _ => inferInstanceAs (Decidable (t.isElement parent = true))
  | .insertElementBefore parent before _ _ =>
    inferInstanceAs (Decidable (t.isElement parent = true ∧ t.isElement before = true))

/-- Each edit is one of elements of the arena that the edits before it leave. -/
def AllOfElements (t : Tree) : List Amendment → Prop
  | [] => True
  | edit :: edits => edit.OfElements t ∧ AllOfElements (edit.apply t) edits

instance decidableAllOfElements (t : Tree) :
    (edits : List Amendment) → Decidable (AllOfElements t edits)
  | [] => .isTrue trivial
  | edit :: edits =>
    have := decidableAllOfElements (edit.apply t) edits
    inferInstanceAs (Decidable (edit.OfElements t ∧ AllOfElements (edit.apply t) edits))

/-- The element that an edit adds. -/
def added? (t : Tree) : Amendment → Option NodeId
  | .setText _ _ => none
  | .appendElement parent name style => some (t.appendElement parent name style).2
  | .appendTextElement parent name text style =>
    some (t.appendTextElement parent name text style).2
  | .insertElementBefore parent before name style =>
    some (t.insertElementBefore parent before name style).2

/-- The new element is a child of the node that it has been added to. It comes after all other child
    elements, or directly before its sibling, which is moved to a new line. -/
def Places (t t' : Tree) (new : NodeId) : Amendment → Prop
  | .setText _ _ => False
  | .appendElement parent name _ | .appendTextElement parent name _ _ =>
    Tree.Adopted t t' parent new name ∧
      t'.childElements parent = t.childElements parent ++ [new]
  | .insertElementBefore parent before name style =>
    Tree.Adopted t t' parent new name ∧
      (before ∉ t.children parent →
        t'.childElements parent = t.childElements parent ++ [new]) ∧
      (before ∈ t.children parent → ∃ front back blank,
        t.children parent = front ++ before :: back ∧
        t'.children parent = front ++ new :: blank :: before :: back ∧
        t'.content blank = .text (style.newline (t.depth parent + 1)))

/-- What an edit does to an arena: nodes stay what they are, and only the element that the edit adds
    is a new one, in its place. -/
structure Effect (t : Tree) (edit : Amendment) : Prop where
  content : ∀ x < t.size, (edit.apply t).content x = t.content x
  added_of_new : ∀ x, t.size ≤ x → (edit.apply t).isElement x = true → edit.added? t = some x
  places : ∀ new, edit.added? t = some new → t.size ≤ new ∧ edit.Places t (edit.apply t) new

end Amendment

namespace Tree

variable {t : Tree} {edit : Amendment}

theorem lt_size_of_isElement {id : NodeId} (h : t.isElement id = true) : id < t.size := by
  obtain ⟨e, he⟩ := Option.isSome_iff_exists.mp h
  exact lt_size_of_element? he

theorem appendTextElement_eq (ht : t.WellFormed) {parent : NodeId} (hparent : parent < t.size)
    (name text : String) (style : Indent) : t.appendTextElement parent name text style =
      ((t.appendElement parent name style).1.setText t.size text, t.size) := by
  obtain ⟨hid, -⟩ := inserted_appendElement name ht hparent style
  rw [appendTextElement]
  simp only [hid]

theorem Linked.appendElement (h : t.Linked) {parent : NodeId} (hparent : parent < t.size)
    (name : String) (style : Indent) : (t.appendElement parent name style).1.Linked := by
  obtain ⟨-, hinserted⟩ := inserted_appendElement name h.toWellFormed hparent style
  exact h.inserted hinserted fun x => mem_children_appendElement name style hparent

theorem Linked.apply (h : t.Linked) (hedit : edit.OfElements t) : (edit.apply t).Linked := by
  cases edit with
  | setText id text => exact h.setText (lt_size_of_isElement hedit) text
  | appendElement parent name style =>
    exact h.appendElement (lt_size_of_isElement hedit) name style
  | appendTextElement parent name text style =>
    have hparent := lt_size_of_isElement hedit
    obtain ⟨-, hinserted⟩ := inserted_appendElement name h.toWellFormed hparent style
    rw [Amendment.apply, appendTextElement_eq h.toWellFormed hparent]
    exact (h.appendElement hparent name style).setText hinserted.size_lt text
  | insertElementBefore parent before name style =>
    have hparent := lt_size_of_isElement hedit.1
    obtain ⟨-, front, back, hinserted⟩ :=
      inserted_insertElementBefore name h.toWellFormed hparent before style
    exact h.inserted hinserted fun x =>
      mem_children_insertElementBefore name style hparent before

/-- Where all other new nodes are texts, there is one new element. -/
theorem eq_size_of_isElement {t' : Tree}
    (h : ∀ x, t.size < x → x < t'.size → ∃ raw, t'.content x = .text raw) {x : NodeId}
    (hx : t.size ≤ x) (helement : t'.isElement x = true) : x = t.size := by
  rcases Nat.eq_or_lt_of_le hx with heq | hlt
  · exact heq.symm
  · obtain ⟨raw, hraw⟩ := h x hlt (lt_size_of_isElement helement)
    simp [isElement, element?, hraw] at helement

theorem within_apply (h : t.WellFormed) (hedit : edit.OfElements t) :
    ∃ id, Within t (edit.apply t) id := by
  cases edit with
  | setText id text => exact ⟨id, within_setText h (lt_size_of_isElement hedit) text⟩
  | appendElement parent name style =>
    have hparent := lt_size_of_isElement hedit
    obtain ⟨-, hinserted⟩ := inserted_appendElement name h hparent style
    exact ⟨parent, hinserted.within h hparent⟩
  | appendTextElement parent name text style =>
    have hparent := lt_size_of_isElement hedit
    obtain ⟨-, hinserted⟩ := inserted_appendElement name h hparent style
    have hset := within_setText hinserted.wellFormed hinserted.size_lt text
    rw [Amendment.apply, appendTextElement_eq h hparent]
    refine ⟨parent, (hinserted.within h hparent).trans (hset.above ?_)⟩
    rw [hinserted.ancestors_new h hparent]
    exact List.mem_cons_self ..
  | insertElementBefore parent before name style =>
    have hparent := lt_size_of_isElement hedit.1
    obtain ⟨-, front, back, hinserted⟩ := inserted_insertElementBefore name h hparent before style
    exact ⟨parent, hinserted.within h hparent⟩

/-- Replacing a text adds no element. -/
theorem isElement_of_setText {id x : NodeId} {text : String}
    (h : (t.setText id text).isElement x = true) : t.isElement x = true := by
  by_cases hx : x = t.size
  · simp [isElement, element?, content_setText, hx] at h
  · have hcontent : (t.setText id text).content x = t.content x := by
      rw [content_setText, if_neg hx]
    exact (isElement_congr hcontent).symm.trans h

theorem added_of_isElement (h : t.WellFormed) (hedit : edit.OfElements t) {x : NodeId}
    (hx : t.size ≤ x) (helement : (edit.apply t).isElement x = true) :
    edit.added? t = some x := by
  have happended : ∀ {parent : NodeId} {name : String} {style : Indent},
      (t.appendElement parent name style).1.isElement x = true → t.size = x := fun helement =>
    (eq_size_of_isElement (fun y hy hlt => (content_appendElement _ y hy hlt).imp' _ fun _ => id)
      hx helement).symm
  cases edit with
  | setText id text =>
    have hlt := lt_size_of_isElement (isElement_of_setText helement)
    exact absurd hlt (Nat.not_lt.mpr hx)
  | appendElement parent name style =>
    obtain ⟨hid, -⟩ := inserted_appendElement name h (lt_size_of_isElement hedit) style
    rw [Amendment.added?, hid, happended helement]
  | appendTextElement parent name text style =>
    have hparent := lt_size_of_isElement hedit
    rw [Amendment.apply, appendTextElement_eq h hparent] at helement
    rw [Amendment.added?, appendTextElement_eq h hparent,
      happended (isElement_of_setText helement)]
  | insertElementBefore parent before name style =>
    obtain ⟨hid, -⟩ :=
      inserted_insertElementBefore name h (lt_size_of_isElement hedit.1) before style
    rw [Amendment.added?, hid, eq_size_of_isElement (fun y hy hlt =>
      (content_insertElementBefore before style y hy hlt).imp' _ fun _ => id) hx helement]

theorem effect_of_elements (h : t.WellFormed) (hedit : edit.OfElements t) : edit.Effect t := by
  obtain ⟨id, hwithin⟩ := within_apply h hedit
  refine ⟨hwithin.content, fun x => added_of_isElement h hedit, fun new hnew => ?_⟩
  cases edit with
  | setText id text => cases hnew
  | appendElement parent name style =>
    obtain ⟨hid, hinserted⟩ := inserted_appendElement name h (lt_size_of_isElement hedit) style
    obtain rfl : t.size = new := hid.symm.trans (Option.some.inj hnew)
    exact ⟨Nat.le_refl _, hinserted.adopted h hedit, hinserted.after⟩
  | appendTextElement parent name text style =>
    have hparent := lt_size_of_isElement hedit
    obtain ⟨-, hinserted⟩ := inserted_appendElement name h hparent style
    rw [Amendment.added?, appendTextElement_eq h hparent] at hnew
    obtain rfl : t.size = new := Option.some.inj hnew
    obtain ⟨hadopted, hlast⟩ := (hinserted.adopted h hedit).setText hinserted.wellFormed text
    rw [Amendment.apply, appendTextElement_eq h hparent]
    exact ⟨Nat.le_refl _, hadopted, hlast.trans hinserted.after⟩
  | insertElementBefore parent before name style =>
    have hparent := lt_size_of_isElement hedit.1
    obtain ⟨hid, front, back, hinserted⟩ :=
      inserted_insertElementBefore name h hparent before style
    obtain rfl : t.size = new := hid.symm.trans (Option.some.inj hnew)
    refine ⟨Nat.le_refl _, hinserted.adopted h hedit.1, ?_⟩
    rcases insertElementBefore_cases name style hparent before with
      ⟨hnot, heq⟩ | ⟨front, back, hsplit, -, -, hchildren, hblank⟩
    · rw [Amendment.apply, heq]
      obtain ⟨-, happended⟩ := inserted_appendElement name h hparent style
      exact ⟨fun _ => happended.after, fun hmem => absurd hmem hnot⟩
    · refine ⟨fun hnot => absurd (hsplit ▸ by simp) hnot, fun _ => ?_⟩
      exact ⟨front, back, t.size + 1, hsplit, hchildren, hblank⟩

/-- After any edits of a linked arena's elements, it is linked, and nodes stay what they are. -/
theorem Linked.applyAll (h : t.Linked) {edits : List Amendment}
    (hedits : Amendment.AllOfElements t edits) : (Amendment.applyAll t edits).Linked ∧
      ∀ x < t.size, (Amendment.applyAll t edits).content x = t.content x := by
  induction edits generalizing t with
  | nil => exact ⟨h, fun _ _ => rfl⟩
  | cons edit edits ih =>
    obtain ⟨hlinked, hcontent⟩ := ih (h.apply hedits.1) hedits.2
    obtain ⟨id, hwithin⟩ := within_apply h.toWellFormed hedits.1
    refine ⟨hlinked, fun x hx => ?_⟩
    exact (hcontent x (Nat.lt_of_lt_of_le hx hwithin.size_le)).trans (hwithin.content x hx)

end Tree

namespace Amendment

theorem AllOfElements.append {t : Tree} {front back : List Amendment}
    (h : AllOfElements t (front ++ back)) :
    AllOfElements t front ∧ AllOfElements (applyAll t front) back := by
  induction front generalizing t with
  | nil => exact ⟨trivial, h⟩
  | cons edit front ih =>
    obtain ⟨hfront, hback⟩ := ih h.2
    exact ⟨⟨h.1, hfront⟩, hback⟩

/-- Edits of its elements, one after another, keep the arena of a document a tree, and each of them
    has its effect there. -/
theorem isForest_applyAll {text : String} {t : Tree} (h : Tree.parse text = .ok t)
    {edits : List Amendment} (hedits : AllOfElements t edits) :
    (applyAll t edits).IsForest ∧
      (∀ x < t.size, (applyAll t edits).content x = t.content x) ∧
      ∀ front edit back, edits = front ++ edit :: back → edit.Effect (applyAll t front) := by
  obtain ⟨hlinked, hcontent⟩ := (Tree.linked_of_parse h).applyAll hedits
  refine ⟨hlinked.isForest, hcontent, fun front edit back heq => ?_⟩
  subst heq
  obtain ⟨hfront, hedit, -⟩ := hedits.append
  obtain ⟨hbefore, -⟩ := (Tree.linked_of_parse h).applyAll hfront
  exact Tree.effect_of_elements hbefore.toWellFormed hedit

/-- A document with an element in another one that has a prefix. -/
def nested : List Char := "<a xmlns:p='u'><p:b><c/></p:b> </a>".toList

def nestedTree : Tree := (Tree.ofScan (Token.scanChars nested)).toOption.getD Tree.empty

/-- Edits that take the innermost element out of the document, and go on with it there. -/
def reworkings : List Amendment :=
  [.setText 2 "x", .appendElement 3 "d" .standard, .insertElementBefore 1 2 "e" .standard,
    .appendTextElement 2 "f" "y" .standard, .insertElementBefore 3 2 "g" .standard]

theorem isForest_applyAll_nested :
    Tree.parse (String.ofList nested) = .ok nestedTree ∧ AllOfElements nestedTree reworkings ∧
      (applyAll nestedTree reworkings).IsForest ∧
      (∀ x < nestedTree.size,
        (applyAll nestedTree reworkings).content x = nestedTree.content x) ∧
      ∀ front edit back, reworkings = front ++ edit :: back →
        edit.Effect (applyAll nestedTree front) := by
  have hparse : Tree.parse (String.ofList nested) = .ok nestedTree :=
    Tree.parse_of_isOk (by decide +kernel)
  have hedits : AllOfElements nestedTree reworkings := by decide +kernel
  exact ⟨hparse, hedits, isForest_applyAll hparse hedits⟩

end Amendment

end MavenPom.Markup
