import MavenPom.Proofs.Markup.Arena

/-!
# Edits of an arena

What replacing an element's content and adding an element change, and that every other node keeps
its content, its parent and its children.
-/

namespace MavenPom.Markup.Tree

theorem insertIdx_length_append {α : Type} (front back : List α) (x : α) :
    (front ++ back).insertIdx front.length x = front ++ x :: back := by
  induction front with
  | nil => rfl
  | cons y front ih => simp [ih]

/-! ## Adding a node -/

section PushChild

variable {t : Tree} {parent : NodeId} (c : Content) (id : NodeId)

theorem content_pushChild :
    (t.pushChild parent c).content id = if id = t.size then c else t.content id := by
  rw [pushChild, attach, content_attachAt, content_alloc]

theorem parent?_pushChild :
    (t.pushChild parent c).parent? id = if t.size = id then some parent else t.parent? id := by
  rw [pushChild, attach, parent?_attachAt _ _ _ _ _ (by simp), parent?_alloc]

theorem children_pushChild (h : parent < t.size) :
    (t.pushChild parent c).children id =
      if parent = id then t.children id ++ [t.size] else t.children id := by
  rw [pushChild, attach, children_attachAt _ _ _ _ _ (by simpa using Nat.lt_succ_of_lt h),
    children_alloc, children_alloc]
  split
  · next heq => rw [heq, List.insertIdx_length_self]
  · rfl

@[simp] theorem size_pushChild : (t.pushChild parent c).size = t.size + 1 := by
  simp [pushChild, attach]

theorem WellFormed.pushChild (h : t.WellFormed) (hparent : parent < t.size) :
    (t.pushChild parent c).WellFormed := by
  refine (h.alloc c).attachAt _ hparent (by simp) fun id => ?_
  rw [children_alloc]
  exact h.fresh_not_mem (Nat.le_refl _) id

end PushChild

/-! ## Replacing the content of an element -/

section SetText

variable (t : Tree)

theorem foldl_orphan (ids : List NodeId) :
    (ids.foldl orphan t).size = t.size ∧
      (∀ x, (ids.foldl orphan t).content x = t.content x) ∧
      (∀ x, (ids.foldl orphan t).children x = t.children x) ∧
      ∀ x, (ids.foldl orphan t).parent? x = if x ∈ ids then none else t.parent? x := by
  induction ids generalizing t with
  | nil => simp
  | cons i ids ih =>
    obtain ⟨hsize, hcontent, hchildren, hparent⟩ := ih (t.orphan i)
    simp only [size_orphan, content_orphan] at hsize hcontent
    simp only [children_orphan, parent?_orphan] at hchildren hparent
    refine ⟨hsize, hcontent, hchildren, fun x => ?_⟩
    rw [List.foldl_cons, hparent]
    by_cases hx : x ∈ ids <;> by_cases hi : i = x <;> simp [hx, hi, eq_comm]

variable {t} {id : NodeId} (text : String)

/-- The arena of `setText` before the new text is added. -/
private theorem cleared_facts (t' : Tree) (id : NodeId) :
    let cleared : Tree := ⟨t'.nodes.modify id fun n => { n with children := [] }⟩
    cleared.size = t'.size ∧ (∀ x, cleared.content x = t'.content x) ∧
      (∀ x, cleared.parent? x = t'.parent? x) ∧
      ∀ x, cleared.children x = if id = x then [] else t'.children x := by
  refine ⟨by simp [size], fun x => ?_, fun x => ?_, fun x => ?_⟩
  · simp only [content, Array.getElem?_modify]
    split <;> cases t'.nodes[x]? <;> rfl
  · simp only [parent?, Array.getElem?_modify]
    split <;> cases t'.nodes[x]? <;> rfl
  · simp only [children, Array.getElem?_modify]
    split <;> cases t'.nodes[x]? <;> rfl

theorem size_setText : (t.setText id text).size = t.size + 1 := by
  rw [setText, size_pushChild, (cleared_facts _ id).1, (foldl_orphan t _).1]

theorem content_setText (x : NodeId) :
    (t.setText id text).content x =
      if x = t.size then .text (escape text) else t.content x := by
  rw [setText, content_pushChild, (cleared_facts _ id).1, (foldl_orphan t _).1,
    (cleared_facts _ id).2.1, (foldl_orphan t _).2.1]

theorem parent?_setText (x : NodeId) :
    (t.setText id text).parent? x =
      if t.size = x then some id else if x ∈ t.children id then none else t.parent? x := by
  rw [setText, parent?_pushChild, (cleared_facts _ id).1, (foldl_orphan t _).1,
    (cleared_facts _ id).2.2.1, (foldl_orphan t _).2.2.2]

theorem children_setText (h : id < t.size) (x : NodeId) :
    (t.setText id text).children x = if id = x then [t.size] else t.children x := by
  have hsize : ((t.children id).foldl orphan t).size = t.size := (foldl_orphan t _).1
  rw [setText, children_pushChild _ _ (by rw [(cleared_facts _ id).1, hsize]; exact h),
    (cleared_facts _ id).1, hsize, (cleared_facts _ id).2.2.2, (foldl_orphan t _).2.2.1]
  split <;> simp

theorem WellFormed.setText (h : t.WellFormed) (hid : id < t.size) :
    (t.setText id text).WellFormed where
  parent_lt {x p} hp := by
    rw [parent?_setText] at hp
    split at hp
    · next heq =>
      obtain rfl := Option.some.inj hp
      exact heq ▸ hid
    · split at hp
      · exact absurd hp (by simp)
      · exact h.parent_lt hp
  child_lt {x c} hc := by
    rw [children_setText text hid] at hc
    rw [size_setText]
    split at hc
    · exact Nat.lt_succ_of_le (Nat.le_of_eq (List.mem_singleton.mp hc))
    · exact Nat.lt_succ_of_lt (h.child_lt hc)
  parent_eq {x c} hc := by
    rw [children_setText text hid] at hc
    rw [parent?_setText]
    split at hc
    · next heq =>
      rw [List.mem_singleton] at hc
      rw [if_pos hc.symm, heq]
    · next hne =>
      have hlt := h.child_lt hc
      rw [if_neg (Nat.ne_of_gt hlt), if_neg, h.parent_eq hc]
      intro hmem
      exact hne (Option.some.inj ((h.parent_eq hmem).symm.trans (h.parent_eq hc)))
  nodup x := by
    rw [children_setText text hid]
    split
    · simp
    · exact h.nodup x

end SetText

/-! ## Adding an element -/

/-- The content is written, and not like the beginning of an end tag. -/
def Opens : Content → Prop
  | .document => False
  | .element e => ∃ c cs, e.name.toList = c :: cs ∧ c ≠ '/'
  | .text raw => ∃ c cs, raw.toList = c :: cs ∧ c ≠ '<'
  | _ => True

theorem opens_newline (style : Indent) (depth : Nat) : Opens (.text (style.newline depth)) := by
  unfold Indent.newline
  cases style.lineBreak with
  | lf => exact ⟨'\n', _, String.toList_append, by decide⟩
  | crlf => exact ⟨'\r', _, String.toList_append, by decide⟩

/-- `t'` is `t` with a new element under `parent`, whose child elements `front` come before it and
    `back` after it. Besides, blank texts may have been added under `parent`. -/
structure Inserted (t t' : Tree) (parent : NodeId) (name : String) (front back : List NodeId) :
    Prop where
  wellFormed : t'.WellFormed
  size_lt : t.size < t'.size
  content : ∀ x < t.size, t'.content x = t.content x
  parent? : ∀ x < t.size, t'.parent? x = t.parent? x
  children : ∀ x < t.size, x ≠ parent → t'.children x = t.children x
  content_new : t'.content t.size = .element (t.elementUnder parent name)
  parent?_new : t'.parent? t.size = some parent
  children_new : t'.children t.size = []
  before : t.childElements parent = front ++ back
  after : t'.childElements parent = front ++ t.size :: back
  added : ∀ x ∈ t'.children parent, x ∈ t.children parent ∨ x = t.size ∨ Opens (t'.content x)
  kept : (t'.children parent).filter (· < t.size) = t.children parent

/-- `s` is `t` in the course of adding an element `e`, which is the first node after those of `t`.
    All other new nodes are texts, and `kids` are the children of `parent` so far. -/
private structure Growing (t s : Tree) (parent : NodeId) (e : Element) (kids : List NodeId) :
    Prop where
  wellFormed : s.WellFormed
  size_lt : t.size < s.size
  content : ∀ x < t.size, s.content x = t.content x
  content_new : s.content t.size = .element e
  text_new : ∀ x, t.size < x → s.isElement x = false
  opens_new : ∀ x, t.size < x → x < s.size → Opens (s.content x)
  parent? : ∀ x < t.size, s.parent? x = t.parent? x
  children : ∀ x, s.children x = if parent = x then kids else t.children x

theorem children_eq_nil {t : Tree} {id : NodeId} (h : t.size ≤ id) : t.children id = [] := by
  rw [children, Array.getElem?_eq_none h]
  rfl

theorem isElement_eq_false {t : Tree} {id : NodeId} (h : t.size ≤ id) :
    t.isElement id = false := by
  simp [isElement, element?, content, Array.getElem?_eq_none h]

theorem isElement_congr {t t' : Tree} {x : NodeId} (h : t'.content x = t.content x) :
    t'.isElement x = t.isElement x := by
  simp only [isElement, element?, h]

namespace Growing

variable {t s : Tree} {parent : NodeId} {e : Element} {kids : List NodeId}

private theorem start (ht : t.WellFormed) (parent : NodeId) (e : Element) :
    Growing t (t.alloc (.element e)) parent e (t.children parent) where
  wellFormed := ht.alloc _
  size_lt := by simp
  content x hx := by rw [content_alloc, if_neg (Nat.ne_of_lt hx)]
  content_new := by rw [content_alloc, if_pos rfl]
  text_new x hx := isElement_eq_false (by simpa using Nat.succ_le_of_lt hx)
  opens_new x hx hsize := by
    rw [size_alloc] at hsize
    omega
  parent? x _ := parent?_alloc t x _
  children x := by
    rw [children_alloc]
    split
    · next heq => rw [heq]
    · rfl

private theorem alloc (h : Growing t s parent e kids) {blank : String}
    (hblank : Opens (.text blank)) : Growing t (s.alloc (.text blank)) parent e kids where
  wellFormed := h.wellFormed.alloc _
  size_lt := by simpa using Nat.lt_succ_of_lt h.size_lt
  content x hx := by
    rw [content_alloc, if_neg (Nat.ne_of_lt (Nat.lt_trans hx h.size_lt)), h.content x hx]
  content_new := by
    rw [content_alloc, if_neg (Nat.ne_of_lt h.size_lt), h.content_new]
  text_new x hx := by
    by_cases hnew : x = s.size
    · simp [isElement, element?, content_alloc, hnew]
    · have hcontent : (s.alloc (.text blank)).content x = s.content x := by
        rw [content_alloc, if_neg hnew]
      rw [isElement_congr hcontent, h.text_new x hx]
  opens_new x hx hsize := by
    rw [size_alloc] at hsize
    rw [content_alloc]
    split
    · exact hblank
    · next hne =>
      have hlt : x < s.size := Nat.lt_of_le_of_ne (Nat.le_of_lt_succ hsize) hne
      exact h.opens_new x hx hlt
  parent? x hx := by rw [parent?_alloc, h.parent? x hx]
  children x := by rw [children_alloc, h.children]

private theorem attachAt (h : Growing t s parent e kids) (hparent : parent < t.size) (index : Nat)
    {child : NodeId} (hnew : t.size ≤ child) (hsize : child < s.size) (hfree : child ∉ kids)
    (ht : t.WellFormed) :
    Growing t (s.attachAt parent index child) parent e (kids.insertIdx index child) where
  wellFormed := by
    refine h.wellFormed.attachAt index (Nat.lt_of_lt_of_le hparent hnew) hsize fun id => ?_
    rw [h.children]
    split
    · exact hfree
    · exact ht.fresh_not_mem hnew id
  size_lt := by simpa using h.size_lt
  content x hx := by rw [content_attachAt, h.content x hx]
  content_new := by rw [content_attachAt, h.content_new]
  text_new x hx := by rw [isElement_congr (content_attachAt ..), h.text_new x hx]
  opens_new x hx hsize := by
    rw [content_attachAt]
    exact h.opens_new x hx (by simpa using hsize)
  parent? x hx := by
    rw [parent?_attachAt _ _ _ _ _ hsize, if_neg (Nat.ne_of_gt (Nat.lt_of_lt_of_le hx hnew)),
      h.parent? x hx]
  children x := by
    rw [children_attachAt _ _ _ _ _ (Nat.lt_trans hparent h.size_lt), h.children]
    split <;> rfl

private theorem insertBlank (h : Growing t s parent e kids) (hparent : parent < t.size)
    (index : Nat) {blank : String} (hblank : Opens (.text blank)) (ht : t.WellFormed)
    (hkids : ∀ x ∈ kids, x < s.size) :
    Growing t (s.insertBlank parent index blank) parent e (kids.insertIdx index s.size) :=
  (h.alloc hblank).attachAt hparent index (Nat.le_of_lt h.size_lt) (by simp)
    (fun hmem => absurd (hkids _ hmem) (Nat.lt_irrefl _)) ht

/-- Once the new element stands among the old children, with nothing but texts added besides, it
    is inserted. -/
private theorem inserted {name : String}
    (h : Growing t s parent (t.elementUnder parent name) kids) (ht : t.WellFormed)
    (hparent : parent < t.size) {l r blanks₁ blanks₂ : List NodeId}
    (hl : t.children parent = l ++ r) (hkids : kids = l ++ blanks₁ ++ t.size :: (blanks₂ ++ r))
    (h₁ : ∀ b ∈ blanks₁, t.size < b) (h₂ : ∀ b ∈ blanks₂, t.size < b) :
    Inserted t s parent name (l.filter t.isElement) (r.filter t.isElement) where
  wellFormed := h.wellFormed
  size_lt := h.size_lt
  content := h.content
  parent? := h.parent?
  children x _ hne := by rw [h.children, if_neg (Ne.symm hne)]
  content_new := h.content_new
  parent?_new := h.wellFormed.parent_eq (by rw [h.children, if_pos rfl, hkids]; simp)
  children_new := by
    rw [h.children, if_neg (Nat.ne_of_lt hparent), children_eq_nil (Nat.le_refl _)]
  before := by rw [childElements, hl, List.filter_append]
  after := by
    have hold : ∀ x ∈ t.children parent, s.isElement x = t.isElement x := fun x hx =>
      isElement_congr (h.content x (ht.child_lt hx))
    have hnone : ∀ {bs : List NodeId}, (∀ b ∈ bs, t.size < b) → bs.filter s.isElement = [] :=
      fun hbs => List.filter_eq_nil_iff.mpr fun b hb => by simp [h.text_new b (hbs b hb)]
    have helement : s.isElement t.size = true := by simp [isElement, element?, h.content_new]
    rw [childElements, h.children, if_pos rfl, hkids]
    simp only [List.filter_append, List.filter_cons, helement, if_true, hnone h₁, hnone h₂,
      List.append_nil, List.nil_append]
    rw [List.filter_congr fun x hx => hold x (by rw [hl]; exact List.mem_append_left _ hx),
      List.filter_congr fun x hx => hold x (by rw [hl]; exact List.mem_append_right _ hx)]
  added x hx := by
    have hsize := h.wellFormed.child_lt hx
    rw [h.children, if_pos rfl, hkids] at hx
    rw [hl]
    simp only [List.mem_append, List.mem_cons] at hx ⊢
    rcases hx with (hx | hx) | hx | hx | hx
    · exact .inl (.inl hx)
    · exact .inr (.inr (h.opens_new x (h₁ x hx) hsize))
    · exact .inr (.inl hx)
    · exact .inr (.inr (h.opens_new x (h₂ x hx) hsize))
    · exact .inl (.inr hx)
  kept := by
    have hold : ∀ {ids : List NodeId}, (∀ x ∈ ids, x ∈ t.children parent) →
        ids.filter (· < t.size) = ids := fun hids =>
      List.filter_eq_self.mpr fun x hx => decide_eq_true (ht.child_lt (hids x hx))
    have hnone : ∀ {ids : List NodeId}, (∀ x ∈ ids, t.size < x) →
        ids.filter (· < t.size) = [] := fun hids =>
      List.filter_eq_nil_iff.mpr fun x hx => by simpa using Nat.le_of_lt (hids x hx)
    rw [h.children, if_pos rfl, hkids]
    simp only [List.filter_append, List.filter_cons, Nat.lt_irrefl, decide_false,
      Bool.false_eq_true, if_false, hnone h₁, hnone h₂, List.append_nil, List.nil_append]
    rw [hold fun x hx => hl ▸ List.mem_append_left _ hx,
      hold fun x hx => hl ▸ List.mem_append_right _ hx, hl]

end Growing

section Insert

variable {t : Tree} {parent : NodeId} (name : String)

theorem isElement_of_isBlankText {id : NodeId} (h : t.isBlankText id = true) :
    t.isElement id = false := by
  unfold isBlankText at h
  split at h
  · next heq => simp [isElement, element?, heq]
  · exact absurd h (by simp)

/-- Appending adds an element as the last child element. -/
theorem inserted_appendElement (ht : t.WellFormed) (hlt : parent < t.size) (style : Indent) :
    (t.appendElement parent name style).2 = t.size ∧
      Inserted t (t.appendElement parent name style).1 parent name (t.childElements parent) [] := by
  have hstart := Growing.start ht parent (t.elementUnder parent name)
  have hold : ∀ x ∈ t.children parent, x < t.size := fun x hx => ht.child_lt hx
  have hkids :
      ∀ x ∈ t.children parent, x < (t.alloc (.element (t.elementUnder parent name))).size :=
    fun x hx => by simpa using Nat.lt_succ_of_lt (hold x hx)
  unfold appendElement
  simp only
  split
  · next hlast =>
    refine ⟨rfl, ?_⟩
    obtain ⟨last, hlast, hblank⟩ : ∃ last, (t.children parent).getLast? = some last ∧
        t.isBlankText last = true := by
      cases h : (t.children parent).getLast? <;> simp_all
    obtain ⟨ini, hini⟩ := List.getLast?_eq_some_iff.mp hlast
    have hspaced :=
      hstart.insertBlank hlt ini.length (opens_newline style (t.depth parent + 1)) ht hkids
    rw [hini, insertIdx_length_append, size_alloc] at hspaced
    have hfresh : t.size ∉ ini ++ (t.size + 1) :: [last] := by
      intro hmem
      have hnot : t.size ∉ ini ++ [last] := fun hmem =>
        absurd (hold _ (hini ▸ hmem)) (Nat.lt_irrefl _)
      simp_all
    have hplaced := hspaced.attachAt hlt (ini.length + 1) (Nat.le_refl _) hspaced.size_lt hfresh ht
    have hsplit : (ini ++ (t.size + 1) :: [last]).insertIdx (ini.length + 1) t.size =
        ini ++ [t.size + 1] ++ t.size :: ([] ++ [last]) := by
      simpa using insertIdx_length_append (ini ++ [t.size + 1]) [last] t.size
    have hinserted := hplaced.inserted ht hlt hini hsplit (by simp) (by simp)
    have helement := isElement_of_isBlankText hblank
    have hfront : ini.filter t.isElement = t.childElements parent := by
      simp [childElements, hini, helement]
    rw [hfront, List.filter_eq_nil_iff.mpr (by simp [helement])] at hinserted
    simpa [hini] using hinserted
  · refine ⟨rfl, ?_⟩
    have hspaced := hstart.insertBlank hlt (t.children parent).length
      (opens_newline style (t.depth parent + 1)) ht hkids
    rw [List.insertIdx_length_self, size_alloc] at hspaced
    have hfresh : t.size ∉ t.children parent ++ [t.size + 1] := by
      simpa using fun hmem => absurd (hold _ hmem) (Nat.lt_irrefl _)
    have hplaced := hspaced.attachAt hlt (t.children parent ++ [t.size + 1]).length
      (Nat.le_refl _) hspaced.size_lt hfresh ht
    rw [List.insertIdx_length_self] at hplaced
    have hclosed := hplaced.insertBlank hlt ((t.children parent).length + 2)
      (opens_newline style (t.depth parent + 1 - 1)) ht (by
        intro x hx
        have := @WellFormed.child_lt _ hplaced.wellFormed parent x
          (by rw [hplaced.children, if_pos rfl]; exact hx)
        exact this)
    have hsplit : ∀ y, (t.children parent ++ [t.size + 1] ++ [t.size]).insertIdx
        ((t.children parent).length + 2) y =
        t.children parent ++ [t.size + 1] ++ t.size :: ([y] ++ []) := by
      intro y
      simpa using insertIdx_length_append (t.children parent ++ [t.size + 1, t.size]) [] y
    have hinserted := hclosed.inserted ht hlt (List.append_nil _).symm (hsplit _)
      (by simp) (by simpa using hspaced.size_lt)
    have hchildren : (((t.alloc (.element (t.elementUnder parent name))).insertBlank parent
        (t.children parent).length (style.newline (t.depth parent + 1))).children parent).length =
        (t.children parent ++ [t.size + 1]).length := by
      rw [hspaced.children, if_pos rfl]
    simpa only [attach, hchildren, childElements, List.filter_nil] using hinserted

/-- Inserting before a sibling adds an element directly before it. Where there is no such sibling,
    an element is appended. -/
theorem inserted_insertElementBefore (ht : t.WellFormed) (hlt : parent < t.size)
    (sibling : NodeId) (style : Indent) :
    (t.insertElementBefore parent sibling name style).2 = t.size ∧
      ∃ front back,
        Inserted t (t.insertElementBefore parent sibling name style).1 parent name front back := by
  unfold insertElementBefore
  split
  · obtain ⟨hid, hinserted⟩ := inserted_appendElement name ht hlt style
    exact ⟨hid, _, _, hinserted⟩
  · next index hindex =>
    refine ⟨rfl, ?_⟩
    obtain ⟨front, back, hsplit, hfront⟩ : ∃ front back, t.children parent = front ++ back ∧
        front.length = index := by
      refine ⟨(t.children parent).take index, (t.children parent).drop index,
        (List.take_append_drop ..).symm, ?_⟩
      obtain ⟨hlength, -⟩ := List.idxOf?_eq_some_iff.mp hindex
      simp [Nat.le_of_lt hlength]
    have hspaced := (Growing.start ht parent (t.elementUnder parent name)).alloc
      (opens_newline style (t.depth parent + 1))
    have hold : ∀ x, t.size ≤ x → x ∉ t.children parent := fun x hx => ht.fresh_not_mem hx parent
    have hplaced := hspaced.attachAt hlt index (Nat.le_refl _) hspaced.size_lt
      (hold _ (Nat.le_refl _)) ht
    rw [hsplit, ← hfront, insertIdx_length_append] at hplaced
    have hfresh : t.size + 1 ∉ front ++ t.size :: back := by
      have := hold (t.size + 1) (Nat.le_succ _)
      rw [hsplit] at this
      simp_all
    have hdone := hplaced.attachAt hlt (front.length + 1) (Nat.le_succ _) (by simp) hfresh ht
    have hkids : (front ++ t.size :: back).insertIdx (front.length + 1) (t.size + 1) =
        front ++ [] ++ t.size :: ([t.size + 1] ++ back) := by
      simpa using insertIdx_length_append (front ++ [t.size]) back (t.size + 1)
    have hinserted := hdone.inserted ht hlt hsplit hkids (by simp) (by simp)
    simp only [size_alloc]
    rw [← hfront]
    exact ⟨_, _, hinserted⟩

end Insert

end MavenPom.Markup.Tree

/-!
## Texts that are written

Escaped text reads back as the text, so that an element has the text it is given.
-/

namespace MavenPom.Markup

private theorem expand_plain (rule : List Char → Option Char) {c : Char} (hc : c ≠ '&')
    (cs : List Char) : expand rule (c :: cs) = (expand rule cs).map ((c, false) :: ·) := by
  rw [expand, if_neg hc]

private theorem expand_reference {name : List Char} (hname : name.all isReferenceChar = true)
    {c : Char} (hc : referent? name = some c) (cs : List Char) :
    expand referent? ('&' :: (name ++ ';' :: cs)) =
      (expand referent? cs).map ((c, true) :: ·) := by
  have hall : ∀ x ∈ name, isReferenceChar x = true := List.all_eq_true.mp hname
  have htake : (name ++ ';' :: cs).takeWhile isReferenceChar = name := by
    rw [List.takeWhile_append_of_pos hall]
    simp [isReferenceChar]
  have hdrop : (name ++ ';' :: cs).dropWhile isReferenceChar = ';' :: cs := by
    rw [List.dropWhile_append_of_pos hall]
    simp [isReferenceChar]
  rw [expand, if_pos rfl, htake, hdrop, hc]
  rfl

private theorem expand_escapeChar (c : Char) (cs : List Char) :
    ∃ marked, expand referent? (escapeChar c ++ cs) =
      (expand referent? cs).map ((c, marked) :: ·) := by
  unfold escapeChar
  split
  · exact ⟨true, @expand_reference "lt".toList (by decide) _ (by decide) cs⟩
  · exact ⟨true, @expand_reference "gt".toList (by decide) _ (by decide) cs⟩
  · exact ⟨true, @expand_reference "amp".toList (by decide) _ (by decide) cs⟩
  · next hamp => exact ⟨false, expand_plain referent? hamp cs⟩

/-- Escaped text reads back. -/
theorem unescape_escape (text : String) : unescape (escape text) = some text := by
  have hexpand : ∀ cs : List Char, ∃ marked,
      expand referent? (cs.flatMap escapeChar) = some marked ∧ marked.map (·.1) = cs := by
    intro cs
    induction cs with
    | nil => exact ⟨[], by simp [expand], rfl⟩
    | cons c cs ih =>
      obtain ⟨marked, hmarked, hmap⟩ := ih
      obtain ⟨mark, hc⟩ := expand_escapeChar c (cs.flatMap escapeChar)
      refine ⟨(c, mark) :: marked, ?_, by simp [hmap]⟩
      rw [List.flatMap_cons, hc, hmarked]
      rfl
  obtain ⟨marked, hmarked, hmap⟩ := hexpand text.toList
  rw [unescape, escape, String.toList_ofList, hmarked]
  simp [hmap]

namespace Tree

variable {t : Tree} {id : NodeId}

/-- An element has the text it is given. -/
theorem text_setText (hid : id < t.size) (text : String) : (t.setText id text).text id = text := by
  rw [Tree.text, children_setText text hid, if_pos rfl]
  simp [content_setText, ownText, unescape_escape, String.join]

/-- An element with a text has no elements in it. -/
theorem childElements_setText (hid : id < t.size) (text : String) :
    (t.setText id text).childElements id = [] := by
  rw [childElements, children_setText text hid, if_pos rfl]
  simp [isElement, element?, content_setText]

end Tree

end MavenPom.Markup
