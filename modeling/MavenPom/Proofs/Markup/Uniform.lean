import MavenPom.Proofs.Markup.Name
import Mathlib.Data.List.Chain

/-!
# Uniform layout

Trees whose lines are all broken and indented alike: before child elements, before comments on lines
of their own and before end tags. Adding elements and replacing texts keeps a tree uniform.
-/

namespace MavenPom.Markup

/-! ## Line breaks -/

namespace LineBreak

/-- Of the line breaks that have been counted, those that are not this one. -/
def others : LineBreak → Nat × Nat → Nat
  | .lf, counts => counts.1
  | .crlf, counts => counts.2

/-- All line breaks of a text are this one. -/
def Only (e : LineBreak) (s : String) : Prop := e.others (count false s.toList) = 0

instance (e : LineBreak) (s : String) : Decidable (e.Only s) :=
  inferInstanceAs (Decidable (_ = 0))

variable {e : LineBreak} {cs : List Char}

theorem count_cons_of_ne {c : Char} (hc : c ≠ '\n') (afterReturn : Bool) (cs : List Char) :
    count afterReturn (c :: cs) = count (c == '\r') cs := by
  simp [count, hc]

theorem others_count_append (e : LineBreak) (afterReturn : Bool) (front back : List Char) :
    e.others (count afterReturn (front ++ back)) = e.others (count afterReturn front) +
      e.others (count (front.foldl (fun _ c => c == '\r') afterReturn) back) := by
  induction front generalizing afterReturn with
  | nil => cases e <;> simp [count, others]
  | cons c front ih =>
    have hrest := ih (c == '\r')
    rw [List.cons_append, List.foldl_cons]
    by_cases hc : c = '\n'
    · cases e <;> cases afterReturn <;> simp only [count, if_pos hc, others] at hrest ⊢ <;>
        simp only [hrest, Bool.false_eq_true, if_false, if_true] <;> omega
    · rw [count_cons_of_ne hc, count_cons_of_ne hc, hrest]

theorem others_count_eq_zero (h : '\n' ∉ cs) (afterReturn : Bool) :
    e.others (count afterReturn cs) = 0 := by
  induction cs generalizing afterReturn with
  | nil => cases e <;> rfl
  | cons c cs ih =>
    obtain ⟨hc, hcs⟩ := not_or.mp fun h' => h (List.mem_cons.mpr h')
    rw [count_cons_of_ne (Ne.symm hc)]
    exact ih hcs _

theorem only_of_not_mem {s : String} (h : '\n' ∉ s.toList) : e.Only s :=
  others_count_eq_zero h false

theorem count_escapeChar (c : Char) {rest rest' : List Char}
    (h : ∀ afterReturn, count afterReturn rest = count afterReturn rest') (afterReturn : Bool) :
    count afterReturn (escapeChar c ++ rest) = count afterReturn (c :: rest') := by
  unfold escapeChar
  split <;> simp [count, h]

theorem only_escape {s : String} (h : e.Only s) : e.Only (escape s) := by
  have hcount : ∀ (cs : List Char) (afterReturn : Bool),
      count afterReturn (cs.flatMap escapeChar) = count afterReturn cs := by
    intro cs
    induction cs with
    | nil => exact fun _ => rfl
    | cons c cs ih => exact count_escapeChar c ih
  rwa [Only, escape, String.toList_ofList, hcount]

end LineBreak

namespace Indent

/-- A unit is some spaces or some tabs. -/
def IsMeasured (style : Indent) (m : Measure) : Prop :=
  style.unit = m.text ∧ (m.char = ' ' ∨ m.char = '\t') ∧ 0 < m.width

variable {style : Indent} {m : Measure}

theorem IsMeasured.toList_units (h : style.IsMeasured m) (depth : ℕ) :
    (String.join (List.replicate depth style.unit)).toList =
      List.replicate (depth * m.width) m.char := by
  induction depth with
  | zero => simp
  | succ depth ih =>
    rw [List.replicate_succ, String.join_cons, String.toList_append, ih, h.1, Measure.text,
      String.toList_ofList, List.replicate_append_replicate, Nat.succ_mul, Nat.add_comm]

theorem IsMeasured.toList_newline (h : style.IsMeasured m) (depth : ℕ) :
    (style.newline depth).toList =
      style.lineBreak.text.toList ++ List.replicate (depth * m.width) m.char := by
  rw [newline, String.toList_append, h.toList_units]

theorem IsMeasured.isAllBlank_newline (h : style.IsMeasured m) (depth : ℕ) :
    Text.isAllBlank (style.newline depth) = true := by
  have hbreak : style.lineBreak.text.toList.all Text.isBlank = true := by
    cases style.lineBreak <;> decide
  have hunit : Text.isBlank m.char = true := by
    rcases h.2.1 with hc | hc <;> rw [hc] <;> decide
  rw [Text.isAllBlank, h.toList_newline, List.all_append, hbreak, Bool.true_and,
    List.all_eq_true]
  intro c hc
  rw [List.eq_of_mem_replicate hc, hunit]

theorem IsMeasured.only_newline (h : style.IsMeasured m) (depth : ℕ) :
    style.lineBreak.Only (style.newline depth) := by
  have hunits : '\n' ∉ List.replicate (depth * m.width) m.char := by
    intro hmem
    have heq := List.eq_of_mem_replicate hmem
    rcases h.2.1 with hc | hc <;> rw [hc] at heq <;> exact absurd heq (by decide)
  rw [LineBreak.Only, h.toList_newline, LineBreak.others_count_append,
    LineBreak.others_count_eq_zero hunits, Nat.add_zero]
  cases style.lineBreak <;> decide

end Indent

/-! ## Layout of siblings -/

namespace Content

/-- What has been written of a node. -/
def texts : Content → List String
  | .document => []
  | .element e => [e.name, e.attributeText]
  | .text raw => [raw]
  | .cdata content => [content]
  | .comment content => [content]
  | .declaration content => [content]
  | .instruction content => [content]
  | .doctype content => [content]

/-- All line breaks in what has been written of a node are `e`. -/
def BreaksOnly (e : LineBreak) (c : Content) : Prop := ∀ s ∈ c.texts, e.Only s

instance (e : LineBreak) (c : Content) : Decidable (c.BreaksOnly e) :=
  inferInstanceAs (Decidable (∀ s ∈ c.texts, e.Only s))

def isElement : Content → Bool
  | .element _ => true
  | _ => false

def isComment : Content → Bool
  | .comment _ => true
  | _ => false

/-- Whether a node is a text of nothing but blanks. -/
def isBlank : Content → Bool
  | .text raw => Text.isAllBlank raw
  | _ => false

/-- Blanks that end in a line break and `depth` indent units. -/
def IndentsTo (style : Indent) (depth : ℕ) (c : Content) : Prop :=
  ∃ raw, c = .text raw ∧ Text.isAllBlank raw = true ∧ (style.newline depth).toList <:+ raw.toList

instance (style : Indent) (depth : ℕ) (c : Content) : Decidable (c.IndentsTo style depth) :=
  match c with
  | .text raw => decidable_of_iff (Text.isAllBlank raw = true ∧
      (style.newline depth).toList <:+ raw.toList)
      ⟨fun h => ⟨raw, rfl, h⟩, fun ⟨_, heq, h⟩ => Content.text.inj heq ▸ h⟩
  | .document => .isFalse (fun ⟨_, heq, _⟩ => Content.noConfusion heq)
  | .element _ => .isFalse (fun ⟨_, heq, _⟩ => Content.noConfusion heq)
  | .cdata _ => .isFalse (fun ⟨_, heq, _⟩ => Content.noConfusion heq)
  | .comment _ => .isFalse (fun ⟨_, heq, _⟩ => Content.noConfusion heq)
  | .declaration _ => .isFalse (fun ⟨_, heq, _⟩ => Content.noConfusion heq)
  | .instruction _ => .isFalse (fun ⟨_, heq, _⟩ => Content.noConfusion heq)
  | .doctype _ => .isFalse (fun ⟨_, heq, _⟩ => Content.noConfusion heq)

/-- Where `b` comes directly after `a`: inside an element, a child element has its indentation
    before it, and a comment has its own where there are only blanks before it. -/
def Precedes (style : Indent) (inside : Bool) (depth : ℕ) (a b : Content) : Prop :=
  (inside = true → b.isElement = true → a.IndentsTo style depth) ∧
    (b.isComment = true → a.isBlank = true → a.IndentsTo style depth)

instance (style : Indent) (inside : Bool) (depth : ℕ) (a b : Content) :
    Decidable (Precedes style inside depth a b) := inferInstanceAs (Decidable (_ ∧ _))

end Content

open Content

/-- Children at this depth are laid out in a style, those of an element where `inside` holds. -/
structure LaidOut (style : Indent) (inside : Bool) (depth : ℕ) (cs : List Content) : Prop where
  chain : cs.IsChain (Precedes style inside depth)
  first : inside = true → ∀ c ∈ cs.head?, c.isElement = false
  last : inside = true → ∀ c ∈ cs.getLast?, c.isBlank = true → c.IndentsTo style (depth - 1)

instance (style : Indent) (inside : Bool) (depth : ℕ) (cs : List Content) :
    Decidable (LaidOut style inside depth cs) :=
  decidable_of_iff (cs.IsChain (Precedes style inside depth) ∧
      (inside = true → ∀ c ∈ cs.head?, c.isElement = false) ∧
      (inside = true → ∀ c ∈ cs.getLast?, c.isBlank = true → c.IndentsTo style (depth - 1)))
    ⟨fun ⟨h₁, h₂, h₃⟩ => ⟨h₁, h₂, h₃⟩, fun ⟨h₁, h₂, h₃⟩ => ⟨h₁, h₂, h₃⟩⟩

section LaidOut

variable {style : Indent} {inside : Bool} {depth : ℕ} {front back : List Content}
  {a b element blank close : Content}

theorem isElement_of_isBlank (h : a.isBlank = true) :
    a.isElement = false ∧ a.isComment = false := by
  cases a with
  | text raw => exact ⟨rfl, rfl⟩
  | _ => cases h

theorem isComment_of_isElement (h : a.isElement = true) :
    a.isComment = false ∧ a.isBlank = false := by
  cases a with
  | element e => exact ⟨rfl, rfl⟩
  | _ => cases h

/-- Blanks may stand anywhere. -/
theorem precedes_blank (hb : b.isBlank = true) : Precedes style inside depth a b := by
  obtain ⟨helement, hcomment⟩ := isElement_of_isBlank hb
  refine ⟨fun _ h => ?_, fun h => ?_⟩
  · exact Bool.noConfusion (helement.symm.trans h)
  · exact Bool.noConfusion (hcomment.symm.trans h)

theorem precedes_element (hb : b.isElement = true)
    (ha : inside = true → a.IndentsTo style depth) : Precedes style inside depth a b := by
  refine ⟨fun h _ => ha h, fun h => ?_⟩
  exact Bool.noConfusion ((isComment_of_isElement hb).1.symm.trans h)

theorem LaidOut.nil : LaidOut style inside depth [] := ⟨.nil, by simp, by simp⟩

/-- A text that is not blank may stand alone. -/
theorem LaidOut.singleton {raw : String} (h : Text.isAllBlank raw = false) :
    LaidOut style inside depth [.text raw] := by
  refine ⟨.singleton _, fun _ c hc => ?_, fun _ c hc hblank => ?_⟩
  · obtain rfl := Option.some.inj hc
    rfl
  · obtain rfl := Option.some.inj hc
    exact Bool.noConfusion (h.symm.trans hblank)

/-- An element may be added at the end, on a line of its own and with the end tag on the next. -/
theorem LaidOut.append (hfront : front.IsChain (Precedes style inside depth))
    (hfirst : inside = true → ∀ c ∈ front.head?, c.isElement = false)
    (hblank : blank.isBlank = true) (hindent : inside = true → blank.IndentsTo style depth)
    (helement : element.isElement = true) (hclose : close.isBlank = true)
    (hlast : inside = true → close.IndentsTo style (depth - 1)) :
    LaidOut style inside depth (front ++ [blank, element, close]) where
  chain := by
    have hnew : [blank, element, close].IsChain (Precedes style inside depth) :=
      .cons_cons (precedes_element helement hindent) <|
        .cons_cons (precedes_blank hclose) (.singleton _)
    refine List.isChain_append.mpr ⟨hfront, hnew, fun x _ y hy => ?_⟩
    obtain rfl := Option.some.inj hy
    exact precedes_blank hblank
  first hinside c hc := by
    cases front with
    | nil =>
      obtain rfl := Option.some.inj hc
      exact (isElement_of_isBlank hblank).1
    | cons x front => exact hfirst hinside c hc
  last hinside c hc _ := by
    rw [List.getLast?_append] at hc
    obtain rfl := Option.some.inj hc
    exact hlast hinside

/-- An element may be added before one that stands on its line already, which gets a new one. -/
theorem LaidOut.insert (h : LaidOut style inside depth (front ++ b :: back))
    (hb : b.isElement = true) (hblank : blank.isBlank = true)
    (hindent : inside = true → blank.IndentsTo style depth) (helement : element.isElement = true) :
    LaidOut style inside depth (front ++ element :: blank :: b :: back) where
  chain := by
    obtain ⟨hfront, hback, hbetween⟩ := List.isChain_append.mp h.chain
    refine List.isChain_append.mpr ⟨hfront, ?_, fun x hx y hy => ?_⟩
    · exact .cons_cons (precedes_blank hblank) <| .cons_cons (precedes_element hb hindent) hback
    · obtain rfl := Option.some.inj hy
      exact precedes_element helement fun hinside => (hbetween x hx b rfl).1 hinside hb
  first hinside c hc := by
    cases front with
    | nil => exact Bool.noConfusion ((h.first hinside b rfl).symm.trans hb)
    | cons x front => exact h.first hinside c hc
  last hinside c hc := by
    refine h.last hinside c ?_
    rw [List.getLast?_append] at hc ⊢
    simpa using hc

end LaidOut

/-! ## Uniform trees -/

namespace Tree

variable {t t' t'' : Tree} {style : Indent} {parent id : NodeId}

/-- The nodes that belong to a tree, which are those below its root. -/
inductive Reached (t : Tree) : NodeId → Prop
  | root : t.Reached root
  | child {id c : NodeId} : t.Reached id → c ∈ t.children id → t.Reached c

/-- What the children of a node are. -/
def contents (t : Tree) (id : NodeId) : List Content := (t.children id).map t.content

/-- The number of elements around the children of a node. -/
def depthInside (t : Tree) (id : NodeId) : ℕ := t.depth id + if t.isElement id then 1 else 0

/-- Every line of the tree is broken and indented in the same style. -/
structure Uniform (t : Tree) (style : Indent) : Prop where
  unit : ∃ m, style.IsMeasured m
  breaks : ∀ id, t.Reached id → (t.content id).BreaksOnly style.lineBreak
  laidOut : ∀ id, t.Reached id → LaidOut style (t.isElement id) (t.depthInside id) (t.contents id)

theorem content_eq_document (h : t.size ≤ id) : t.content id = .document := by
  rw [content, Array.getElem?_eq_none h]
  rfl

theorem uniform_of_forall_lt (hunit : ∃ m, style.IsMeasured m)
    (h : ∀ id < t.size, (t.content id).BreaksOnly style.lineBreak ∧
      LaidOut style (t.isElement id) (t.depthInside id) (t.contents id)) : t.Uniform style where
  unit := hunit
  breaks id _ := by
    by_cases hlt : id < t.size
    · exact (h id hlt).1
    · rw [content_eq_document (Nat.le_of_not_lt hlt)]
      exact fun s hs => absurd hs List.not_mem_nil
  laidOut id _ := by
    by_cases hlt : id < t.size
    · exact (h id hlt).2
    · rw [contents, children_eq_nil (Nat.le_of_not_lt hlt)]
      exact .nil

/-- On a path from the root on, there is a node where the tree is not laid out in a style. -/
def Strays (t : Tree) (style : Indent) (path : List NodeId) : Prop :=
  (root :: path).IsChain (fun id c => c ∈ t.children id) ∧
    ∃ id ∈ path, ¬((t.content id).BreaksOnly style.lineBreak ∧
      LaidOut style (t.isElement id) (t.depthInside id) (t.contents id))

instance (t : Tree) (style : Indent) (path : List NodeId) : Decidable (t.Strays style path) :=
  inferInstanceAs (Decidable (_ ∧ _))

theorem Reached.of_isChain {path : List NodeId} (hid : t.Reached id)
    (h : (id :: path).IsChain (fun id c => c ∈ t.children id)) : ∀ c ∈ path, t.Reached c := by
  induction path generalizing id with
  | nil => simp
  | cons c path ih =>
    obtain ⟨hc, hpath⟩ := List.isChain_cons_cons.mp h
    exact List.forall_mem_cons.mpr ⟨hid.child hc, ih (hid.child hc) hpath⟩

theorem Strays.not_uniform {path : List NodeId} (h : t.Strays style path) : ¬t.Uniform style := by
  obtain ⟨hpath, id, hid, hnot⟩ := h
  intro huniform
  have hreached := Reached.root.of_isChain hpath id hid
  exact hnot ⟨huniform.breaks id hreached, huniform.laidOut id hreached⟩

theorem content_isElement (t : Tree) (id : NodeId) : (t.content id).isElement = t.isElement id := by
  unfold isElement element?
  cases t.content id <;> rfl

theorem content_isBlank (t : Tree) (id : NodeId) : (t.content id).isBlank = t.isBlankText id := by
  unfold isBlankText
  cases t.content id <;> rfl

theorem depthInside_congr (hcontent : t'.content id = t.content id)
    (hdepth : t'.depth id = t.depth id) : t'.depthInside id = t.depthInside id := by
  rw [depthInside, depthInside, hdepth, isElement_congr hcontent]

theorem WellFormed.depth_child (h : t.WellFormed) {c : NodeId} (hc : c ∈ t.children id) :
    t.depth c = t.depthInside id := by
  rw [depth, h.ancestors_child hc, List.filter_cons, depthInside, depth]
  split <;> rfl

theorem WellFormed.depth_root (h : t.WellFormed) : t.depth root = 0 := by
  rw [depth, h.ancestors_eq]
  cases hparent : t.parent? root with
  | none => rfl
  | some p => exact absurd (h.parent_lt hparent) (Nat.not_lt_zero p)

/-! ## Edits -/

/-- `t'` is `t` with other children of a node, among which all new nodes are. -/
structure Rehung (t t' : Tree) (parent : NodeId) (kids : List NodeId) : Prop where
  wellFormed : t'.WellFormed
  size_le : t.size ≤ t'.size
  content : ∀ x < t.size, t'.content x = t.content x
  children : ∀ x, t'.children x = if parent = x then kids else t.children x
  kept : ∀ x ∈ kids, x < t.size → x ∈ t.children parent

namespace Rehung

variable {kids : List NodeId}

/-- A node of the edited tree has belonged to the tree, as deep as it is now, or is a new child. -/
theorem reached (h : Rehung t t' parent kids) (ht : t.WellFormed) (hparent : parent < t.size)
    {x : NodeId} (hx : t'.Reached x) :
    (x < t.size ∧ t.Reached x ∧ t'.depth x = t.depth x) ∨
      (t.size ≤ x ∧ x ∈ kids ∧ t.Reached parent) := by
  induction hx with
  | root =>
    refine .inl ⟨Nat.lt_of_le_of_lt (Nat.zero_le _) hparent, .root, ?_⟩
    rw [h.wellFormed.depth_root, ht.depth_root]
  | @child y c _ hc ih =>
    have hmem := hc
    rw [h.children] at hmem
    rcases ih with ⟨hlt, hreached, hdepth⟩ | ⟨hle, -, -⟩
    · have hold : c ∈ t.children y → c < t.size ∧ t.Reached c ∧ t'.depth c = t.depth c := by
        intro hc'
        refine ⟨ht.child_lt hc', hreached.child hc', ?_⟩
        rw [h.wellFormed.depth_child hc, ht.depth_child hc',
          depthInside_congr (h.content y hlt) hdepth]
      split at hmem
      · next heq =>
        subst heq
        by_cases hnew : c < t.size
        · exact .inl (hold (h.kept c hmem hnew))
        · exact .inr ⟨Nat.le_of_not_lt hnew, hmem, hreached⟩
      · exact .inl (hold hmem)
    · -- new nodes have no children
      rw [if_neg (Nat.ne_of_lt (Nat.lt_of_lt_of_le hparent hle)), children_eq_nil hle] at hmem
      cases hmem

/-- Where the new children are laid out in the style of the tree, it stays uniform. -/
theorem uniform (h : Rehung t t' parent kids) (ht : t.WellFormed) (hparent : parent < t.size)
    (hu : t.Uniform style)
    (hnew : t.Reached parent → ∀ x ∈ kids, t.size ≤ x →
      (t'.content x).BreaksOnly style.lineBreak)
    (hkids : t.Reached parent →
      LaidOut style (t.isElement parent) (t.depthInside parent) (kids.map t'.content)) :
    t'.Uniform style where
  unit := hu.unit
  breaks x hx := by
    rcases h.reached ht hparent hx with ⟨hlt, hreached, -⟩ | ⟨hle, hmem, hreached⟩
    · rw [h.content x hlt]
      exact hu.breaks x hreached
    · exact hnew hreached x hmem hle
  laidOut x hx := by
    rw [contents, h.children]
    rcases h.reached ht hparent hx with ⟨hlt, hreached, hdepth⟩ | ⟨hle, -, -⟩
    · rw [depthInside_congr (h.content x hlt) hdepth, isElement_congr (h.content x hlt)]
      split
      · next heq => exact heq ▸ hkids (heq ▸ hreached)
      · have hsame : (t.children x).map t'.content = t.contents x :=
          List.map_congr_left fun c hc => h.content c (ht.child_lt hc)
        rw [hsame]
        exact hu.laidOut x hreached
    · rw [if_neg (Nat.ne_of_lt (Nat.lt_of_lt_of_le hparent hle)), children_eq_nil hle]
      exact .nil

end Rehung

/-- `t'` comes from `t` by edits that keep it uniform. -/
structure Lays (style : Indent) (t t' : Tree) : Prop where
  wellFormed : t'.WellFormed
  size_le : t.size ≤ t'.size
  uniform : t.Uniform style → t'.Uniform style

theorem Lays.refl (ht : t.WellFormed) : Lays style t t := ⟨ht, Nat.le_refl _, id⟩

theorem Lays.trans (h : Lays style t t') (h' : Lays style t' t'') : Lays style t t'' :=
  ⟨h'.wellFormed, Nat.le_trans h.size_le h'.size_le, fun hu => h'.uniform (h.uniform hu)⟩

theorem isAllBlank_escape {text : String} (h : Text.isAllBlank text = false) :
    Text.isAllBlank (escape text) = false := by
  rw [Text.isAllBlank, List.all_eq_false] at h ⊢
  obtain ⟨c, hc, hblank⟩ := h
  obtain ⟨d, hd, hmark⟩ : ∃ d ∈ escapeChar c, ¬Text.isBlank d = true := by
    unfold escapeChar
    split
    · exact ⟨'&', by decide, by decide⟩
    · exact ⟨'&', by decide, by decide⟩
    · exact ⟨'&', by decide, by decide⟩
    · exact ⟨c, List.mem_singleton_self c, hblank⟩
  refine ⟨d, ?_, hmark⟩
  rw [escape, String.toList_ofList]
  exact List.mem_flatMap.mpr ⟨c, hc, hd⟩

/-- A text that is written where an element has its content. -/
theorem lays_setText (ht : t.WellFormed) (hid : id < t.size) {text : String}
    (hblank : Text.isAllBlank text = false) (hbreaks : style.lineBreak.Only text) :
    Lays style t (t.setText id text) := by
  have hrehung : Rehung t (t.setText id text) id [t.size] := by
    refine ⟨ht.setText text hid, ?_, fun x hx => ?_, children_setText text hid, fun x hx hlt => ?_⟩
    · rw [size_setText]
      exact Nat.le_succ _
    · rw [content_setText, if_neg (Nat.ne_of_lt hx)]
    · rw [List.mem_singleton.mp hx] at hlt
      exact absurd hlt (Nat.lt_irrefl _)
  have hcontent : (t.setText id text).content t.size = .text (escape text) := by
    rw [content_setText, if_pos rfl]
  refine ⟨hrehung.wellFormed, hrehung.size_le, fun hu => ?_⟩
  refine hrehung.uniform ht hid hu (fun _ x hx _ => ?_) fun _ => ?_
  · rw [List.mem_singleton.mp hx, hcontent]
    intro s hs
    rw [List.mem_singleton.mp hs]
    exact LineBreak.only_escape hbreaks
  · rw [List.map_singleton, hcontent]
    exact .singleton (isAllBlank_escape hblank)

/-! ### Adding an element -/

/-- A name whose prefix is that of a node which belongs to the tree. -/
theorem breaksOnly_elementUnder (hu : t.Uniform style) (hparent : t.Reached parent) {name : String}
    (hname : style.lineBreak.Only name) :
    (Content.element (t.elementUnder parent name)).BreaksOnly style.lineBreak := by
  have hempty : style.lineBreak.Only "" := LineBreak.only_of_not_mem (by decide)
  have htexts : ∀ written, style.lineBreak.Only written →
      (Content.element ⟨written, "", []⟩).BreaksOnly style.lineBreak := by
    intro written h s hs
    rcases List.mem_pair.mp hs with rfl | rfl
    · exact h
    · exact hempty
  unfold elementUnder
  split
  · next p hp =>
    obtain ⟨e, he, hprefix⟩ := Option.bind_eq_some_iff.mp hp
    have hwhole : style.lineBreak.Only e.name := by
      have hbreaks := hu.breaks parent hparent
      rw [element?_eq_some_iff.mp he] at hbreaks
      exact hbreaks _ (List.mem_cons_self ..)
    obtain ⟨⟨before, after⟩, hsplit, rfl⟩ := Option.map_eq_some_iff.mp hprefix
    obtain ⟨⟨front, back⟩, hcut, heq⟩ := Option.map_eq_some_iff.mp hsplit
    cases heq
    rw [LineBreak.Only, Text.eq_of_cut? hcut, List.append_assoc,
      LineBreak.others_count_append] at hwhole
    refine htexts _ ?_
    rw [LineBreak.Only, String.toList_append, String.toList_append, String.toList_ofList,
      List.append_assoc, LineBreak.others_count_append, Nat.eq_zero_of_add_eq_zero_right hwhole,
      Nat.zero_add]
    show style.lineBreak.others (LineBreak.count _ (':' :: name.toList)) = 0
    rw [LineBreak.count_cons_of_ne (by decide)]
    exact hname
  · exact htexts _ hname

/-- What appending an element does to a node whose last child is a blank text. -/
theorem appendElement_before (style : Indent) (name : String) {ini : List NodeId} {last : NodeId}
    (hparent : parent < t.size) (hsplit : t.children parent = ini ++ [last])
    (hlast : t.isBlankText last = true) :
    (∀ x, (t.appendElement parent name style).1.children x =
      if parent = x then ini ++ [t.size + 1, t.size, last] else t.children x) ∧
    ∀ x, (t.appendElement parent name style).1.content x =
      if x = t.size + 1 then .text (style.newline (t.depth parent + 1))
      else if x = t.size then .element (t.elementUnder parent name) else t.content x := by
  have hlt : parent < t.size + 1 := Nat.lt_succ_of_lt hparent
  have hcond : (t.children parent).getLast?.any t.isBlankText = true := by
    rw [hsplit]
    simpa using hlast
  have hfirst : (ini ++ [last]).insertIdx ini.length (t.size + 1) = ini ++ [t.size + 1, last] :=
    insertIdx_length_append ini [last] _
  have hsecond : (ini ++ [t.size + 1, last]).insertIdx (ini.length + 1) t.size =
      ini ++ [t.size + 1, t.size, last] := by
    simpa using insertIdx_length_append (ini ++ [t.size + 1]) [last] t.size
  unfold appendElement insertBlank
  dsimp only
  rw [if_pos hcond]
  refine ⟨fun x => ?_, fun x => ?_⟩
  · rw [children_attachAt _ _ _ _ _ (by simpa using Nat.lt_succ_of_lt hlt),
      children_attachAt _ _ _ _ _ (by simpa using Nat.lt_succ_of_lt hlt), children_alloc,
      children_alloc]
    split
    · next heq =>
      rw [← heq, hsplit]
      simp only [List.length_append, List.length_singleton, Nat.add_sub_cancel, size_alloc, hfirst,
        hsecond]
    · rfl
  · simp only [content_attachAt, content_alloc, size_alloc]

/-- What appending an element does to a node whose last child is no blank text. -/
theorem appendElement_last (style : Indent) (name : String) (hparent : parent < t.size)
    (hlast : (t.children parent).getLast?.any t.isBlankText = false) :
    (∀ x, (t.appendElement parent name style).1.children x =
      if parent = x then t.children parent ++ [t.size + 1, t.size, t.size + 2]
      else t.children x) ∧
    ∀ x, (t.appendElement parent name style).1.content x =
      if x = t.size + 2 then .text (style.newline (t.depth parent))
      else if x = t.size + 1 then .text (style.newline (t.depth parent + 1))
      else if x = t.size then .element (t.elementUnder parent name) else t.content x := by
  have hlt : ∀ n, parent < t.size + n := fun n => Nat.lt_add_right n hparent
  have hcond : ¬(t.children parent).getLast?.any t.isBlankText = true := by simp [hlast]
  unfold appendElement insertBlank attach
  dsimp only
  rw [if_neg hcond]
  have hindented : ∀ x, (((t.alloc (.element (t.elementUnder parent name))).alloc
      (.text (style.newline (t.depth parent + 1)))).attachAt parent (t.children parent).length
        (t.size + 1)).children x =
      if parent = x then t.children parent ++ [t.size + 1] else t.children x := by
    intro x
    rw [children_attachAt _ _ _ _ _ (by simp only [size_alloc]; exact hlt 2), children_alloc,
      children_alloc]
    split
    · next heq => rw [← heq, List.insertIdx_length_self]
    · rfl
  refine ⟨fun x => ?_, fun x => ?_⟩
  · rw [children_attachAt _ _ _ _ _ (by simp only [size_alloc, size_attachAt]; exact hlt 3),
      children_alloc,
      children_attachAt _ _ _ _ _ (by simp only [size_alloc, size_attachAt]; exact hlt 2)]
    simp only [size_alloc, size_attachAt, hindented]
    split
    · rw [if_pos trivial, List.insertIdx_length_self]
      simpa using insertIdx_length_append (t.children parent ++ [t.size + 1, t.size]) []
        (t.size + 2)
    · rfl
  · simp only [content_attachAt, content_alloc, size_alloc, size_attachAt, Nat.add_sub_cancel]

/-- What inserting an element before another one does. -/
theorem insertElementBefore_at (style : Indent) (name : String) {front back : List NodeId}
    {before : NodeId} (hparent : parent < t.size)
    (hsplit : t.children parent = front ++ before :: back)
    (hindex : (t.children parent).idxOf? before = some front.length) :
    (∀ x, (t.insertElementBefore parent before name style).1.children x =
      if parent = x then front ++ t.size :: (t.size + 1) :: before :: back else t.children x) ∧
    ∀ x, (t.insertElementBefore parent before name style).1.content x =
      if x = t.size + 1 then .text (style.newline (t.depth parent + 1))
      else if x = t.size then .element (t.elementUnder parent name) else t.content x := by
  have hlt : parent < t.size + 2 := Nat.lt_add_right 2 hparent
  have hsecond : (front ++ t.size :: before :: back).insertIdx (front.length + 1) (t.size + 1) =
      front ++ t.size :: (t.size + 1) :: before :: back := by
    simpa using insertIdx_length_append (front ++ [t.size]) (before :: back) (t.size + 1)
  unfold insertElementBefore
  rw [hindex]
  dsimp only
  refine ⟨fun x => ?_, fun x => ?_⟩
  · rw [children_attachAt _ _ _ _ _ (by simp only [size_alloc, size_attachAt]; exact hlt),
      children_attachAt _ _ _ _ _ (by simp only [size_alloc]; exact hlt), children_alloc,
      children_alloc]
    split
    · next heq => rw [← heq, hsplit, insertIdx_length_append, size_alloc, hsecond]
    · rfl
  · simp only [content_attachAt, content_alloc, size_alloc]

theorem Inserted.rehung {name : String} {front back kids : List NodeId}
    (h : Inserted t t' parent name front back)
    (hchildren : ∀ x, t'.children x = if parent = x then kids else t.children x) :
    Rehung t t' parent kids where
  wellFormed := h.wellFormed
  size_le := Nat.le_of_lt h.size_lt
  content := h.content
  children := hchildren
  kept x hx hlt := by
    have hkids : t'.children parent = kids := by rw [hchildren, if_pos rfl]
    rw [← h.kept, hkids]
    exact List.mem_filter.mpr ⟨hx, decide_eq_true hlt⟩

/-- What stands before an added element, or behind it, on a line of its own. -/
theorem Uniform.newline (hu : t.Uniform style) (depth : ℕ) :
    (Content.text (style.newline depth)).BreaksOnly style.lineBreak ∧
      (Content.text (style.newline depth)).IndentsTo style depth ∧
      (Content.text (style.newline depth)).isBlank = true := by
  obtain ⟨m, hm⟩ := hu.unit
  refine ⟨fun s hs => ?_, ⟨_, rfl, hm.isAllBlank_newline depth, List.suffix_refl _⟩,
    hm.isAllBlank_newline depth⟩
  rw [List.mem_singleton.mp hs]
  exact hm.only_newline depth

theorem depthInside_of_isElement (h : t.isElement id = true) :
    t.depthInside id = t.depth id + 1 := by
  rw [depthInside, if_pos h]

/-- Where the children of a node are the first ones that it had, a new element on a line of its own
    and blanks, the tree stays uniform. -/
theorem Rehung.uniform_append {front : List NodeId} {blank element close : NodeId} {name : String}
    (h : Rehung t t' parent (front ++ [blank, element, close])) (ht : t.WellFormed)
    (hparent : parent < t.size) (hu : t.Uniform style) (hname : style.lineBreak.Only name)
    (hfront : front <+: t.children parent)
    (hblank : t'.content blank = .text (style.newline (t.depth parent + 1)))
    (helement : t'.content element = .element (t.elementUnder parent name))
    (hclose : (t'.content close).isBlank = true)
    (hbreaks : t.size ≤ close → (t'.content close).BreaksOnly style.lineBreak)
    (hcloses : t.Reached parent → t.isElement parent = true →
      (t'.content close).IndentsTo style (t.depth parent)) : t'.Uniform style := by
  obtain ⟨hbefore, hindents, hblanks⟩ := hu.newline (t.depth parent + 1)
  refine h.uniform ht hparent hu (fun hreached x hx hle => ?_) fun hreached => ?_
  · simp only [List.mem_append, List.mem_cons, List.not_mem_nil, or_false] at hx
    rcases hx with hx | rfl | rfl | rfl
    · exact absurd (ht.child_lt (hfront.subset hx)) (Nat.not_lt.mpr hle)
    · exact hblank ▸ hbefore
    · exact helement ▸ breaksOnly_elementUnder hu hreached hname
    · exact hbreaks hle
  · obtain ⟨rest, hsplit⟩ := hfront
    have hold : front.map t'.content = front.map t.content := by
      refine List.map_congr_left fun x hx => h.content x ?_
      have hmem : x ∈ t.children parent := hsplit ▸ List.mem_append_left _ hx
      exact ht.child_lt hmem
    have hlaid := hu.laidOut parent hreached
    rw [contents, ← hsplit, List.map_append] at hlaid
    rw [List.map_append, hold, List.map_cons, List.map_cons, List.map_singleton, hblank, helement]
    refine .append (List.isChain_append.mp hlaid.chain).1 (fun hinside c hc => ?_) hblanks
      (fun hinside => ?_) rfl hclose fun hinside => ?_
    · exact hlaid.first hinside c (by rw [List.head?_append, Option.mem_def.mp hc]; rfl)
    · rwa [depthInside_of_isElement hinside]
    · rw [depthInside_of_isElement hinside]
      exact hcloses hreached hinside

/-- Adding an element at the end of another one keeps a tree uniform. -/
theorem lays_appendElement (ht : t.WellFormed) (hparent : parent < t.size) {name : String}
    (hname : style.lineBreak.Only name) :
    Lays style t (t.appendElement parent name style).1 := by
  obtain ⟨-, hinserted⟩ := inserted_appendElement name ht hparent style
  refine ⟨hinserted.wellFormed, Nat.le_of_lt hinserted.size_lt, fun hu => ?_⟩
  cases hlast : (t.children parent).getLast?.any t.isBlankText with
  | true =>
    obtain ⟨last, hlast, hblank⟩ : ∃ last, (t.children parent).getLast? = some last ∧
        t.isBlankText last = true := by
      cases h : (t.children parent).getLast? <;> simp_all
    obtain ⟨ini, hsplit⟩ := List.getLast?_eq_some_iff.mp hlast
    obtain ⟨hchildren, hcontent⟩ := appendElement_before style name hparent hsplit hblank
    have hmem : last ∈ t.children parent := hsplit ▸ List.mem_concat_self
    have hlt : last < t.size := ht.child_lt hmem
    have hsame := hinserted.content last hlt
    refine (hinserted.rehung hchildren).uniform_append ht hparent hu hname
      (hsplit ▸ List.prefix_append ..) ?_ ?_ ?_ (fun hle => absurd hlt (Nat.not_lt.mpr hle)) ?_
    · rw [hcontent, if_pos rfl]
    · rw [hcontent, if_neg (Nat.ne_of_lt (Nat.lt_succ_self _)), if_pos rfl]
    · rw [hsame, content_isBlank, hblank]
    · intro hreached hinside
      have hlaid := (hu.laidOut parent hreached).last hinside (t.content last)
        (by rw [contents, hsplit]; simp) (by rw [content_isBlank, hblank])
      rwa [depthInside_of_isElement hinside, Nat.add_sub_cancel, ← hsame] at hlaid
  | false =>
    obtain ⟨hchildren, hcontent⟩ := appendElement_last style name hparent hlast
    obtain ⟨hbehind, hcloses, hclose⟩ := hu.newline (t.depth parent)
    have hnew : (t.appendElement parent name style).1.content (t.size + 2) =
        .text (style.newline (t.depth parent)) := by rw [hcontent, if_pos rfl]
    refine (hinserted.rehung hchildren).uniform_append ht hparent hu hname (List.prefix_refl _)
      ?_ ?_ (hnew ▸ hclose) (fun _ => hnew ▸ hbehind) fun _ _ => hnew ▸ hcloses
    · rw [hcontent, if_neg (Nat.ne_of_lt (Nat.lt_succ_self _)), if_pos rfl]
    · rw [hcontent, if_neg (Nat.ne_of_lt (Nat.lt_add_of_pos_right (by decide))),
        if_neg (Nat.ne_of_lt (Nat.lt_succ_self _)), if_pos rfl]

/-- Adding an element before another one keeps a tree uniform. -/
theorem lays_insertElementBefore (ht : t.WellFormed) (hparent : parent < t.size) {name : String}
    (hname : style.lineBreak.Only name) {before : NodeId} (hbefore : t.isElement before = true) :
    Lays style t (t.insertElementBefore parent before name style).1 := by
  cases hindex : (t.children parent).idxOf? before with
  | none =>
    unfold insertElementBefore
    rw [hindex]
    exact lays_appendElement ht hparent hname
  | some index =>
    obtain ⟨hlt, heq, -⟩ := List.idxOf?_eq_some_iff.mp hindex
    obtain ⟨front, back, hsplit, rfl⟩ : ∃ front back,
        t.children parent = front ++ before :: back ∧ front.length = index := by
      refine ⟨(t.children parent).take index, (t.children parent).drop (index + 1), ?_,
        by simp [Nat.le_of_lt hlt]⟩
      rw [← heq, List.getElem_cons_drop, List.take_append_drop]
    obtain ⟨-, _, _, hinserted⟩ := inserted_insertElementBefore name ht hparent before style
    obtain ⟨hchildren, hcontent⟩ := insertElementBefore_at style name hparent hsplit hindex
    refine ⟨hinserted.wellFormed, Nat.le_of_lt hinserted.size_lt, fun hu => ?_⟩
    obtain ⟨hbreaks, hindents, hblank⟩ := hu.newline (t.depth parent + 1)
    have hrehung := hinserted.rehung hchildren
    have hold : ∀ x ∈ t.children parent,
        (t.insertElementBefore parent before name style).1.content x = t.content x :=
      fun x hx => hinserted.content x (ht.child_lt hx)
    rw [hsplit] at hold
    refine hrehung.uniform ht hparent hu (fun hreached x _ hle => ?_) fun hreached => ?_
    · rw [hcontent]
      split
      · exact hbreaks
      split
      · exact breaksOnly_elementUnder hu hreached hname
      · rw [content_eq_document hle]
        exact fun s hs => absurd hs List.not_mem_nil
    · have hlaid := hu.laidOut parent hreached
      rw [contents, hsplit, ← List.map_congr_left hold, List.map_append, List.map_cons] at hlaid
      rw [List.map_append, List.map_cons, List.map_cons, List.map_cons]
      refine hlaid.insert ?_ ?_ ?_ ?_
      · rw [hold before (by simp), content_isElement, hbefore]
      · rw [hcontent, if_pos rfl]
        exact hblank
      · intro hinside
        rw [hcontent, if_pos rfl, depthInside_of_isElement hinside]
        exact hindents
      · rw [hcontent, if_neg (Nat.ne_of_lt (Nat.lt_succ_self _)), if_pos rfl]
        rfl

end Tree

end MavenPom.Markup
