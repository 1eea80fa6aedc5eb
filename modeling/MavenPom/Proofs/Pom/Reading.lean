import MavenPom.Proofs.Markup.LineBreak
import MavenPom.Proofs.Markup.Outline
import MavenPom.Proofs.Markup.Tandem
import MavenPom.Proofs.Pom.Shown

/-!
# Elements in both readings

An element of a tree and what the strict reader makes of it have the same child elements, in the
same order and of the same local names. They have the same text where the element's text is plain.
-/

namespace MavenPom.Markup

namespace Strict.Node

def isElement (n : Node) : Bool := n.asElement?.isSome

/-- The children that are elements. -/
def childElements (n : Node) : List Node := n.children.filter isElement

/-- The text that an element begins with, or none. -/
def leadingText (n : Node) : String := n.leadingText?.getD ""

theorem childrenNamed_eq_filter (n : Node) (name : String) :
    n.childrenNamed name = n.childElements.filter (isNamed name) := by
  rw [childrenNamed, childElements, List.filter_filter]
  refine List.filter_congr fun m _ => ?_
  cases m <;> simp [isNamed, isElement, asElement?]

/-- Without a leading text, there is no text. -/
theorem childText?_eq (n : Node) (name : String) :
    n.childText? name = (n.child? name).bind fun m => Text.trim? m.leadingText := by
  rw [childText?, Option.bind_assoc]
  refine Option.bind_congr fun m _ => ?_
  rw [leadingText]
  cases m.leadingText? with
  | none => rfl
  | some text => rfl

/-! ## Children, last first -/

variable {node first : Node} {children : List Node}

theorem pushOn_of_head?_not_text (h : ∀ text, children.head? ≠ some (.text text)) (node : Node) :
    node.pushOn children = node :: children := by
  cases children with
  | nil => cases node <;> rfl
  | cons before rest =>
    cases before with
    | text text => exact absurd rfl (h text)
    | element name inside => cases node <;> rfl
    | aside => cases node <;> rfl

theorem pushOn_ne_nil (node : Node) (children : List Node) : node.pushOn children ≠ [] := by
  unfold pushOn
  split <;> simp

theorem filter_isElement_pushOn (h : node.isElement = false) (children : List Node) :
    (node.pushOn children).filter isElement = children.filter isElement := by
  unfold pushOn
  split
  · rfl
  · rw [List.filter_cons_of_neg (by simp [h])]

/-- The first child stays first, unless a text follows it at once that it goes on with. -/
theorem pushOn_append (h : children ≠ [] ∨ ∀ text, first ≠ .text text) (node : Node) :
    node.pushOn (children ++ [first]) = node.pushOn children ++ [first] := by
  cases children with
  | nil =>
    have hfirst := h.resolve_left fun hne => hne rfl
    rw [List.nil_append, pushOn_of_head?_not_text (by simpa using hfirst),
      pushOn_of_head?_not_text (by simp), List.singleton_append]
  | cons before rest => cases node <;> cases before <;> rfl

end Strict.Node

namespace Writing

open Strict.Node (isElement)

/-! ## Child elements -/

theorem isElement_node (token : Token) : token.node.isElement = false := by cases token <;> rfl

/-- What a writing adds to the child elements of an element are its own elements. -/
theorem filter_pushOn (w : Writing) (children : List Strict.Node) :
    (w.pushOn children).filter isElement = w.elements.reverse ++ children.filter isElement := by
  induction w generalizing children with
  | nil => rfl
  | leaf token rest ih =>
    rw [pushOn, ih, Strict.Node.filter_isElement_pushOn (isElement_node token), elements]
  | empty tag rest ih =>
    rw [pushOn, ih, elements, List.filter_cons_of_pos rfl, List.reverse_cons, List.append_assoc]
    rfl
  | pair tag inside gap rest _ ih =>
    rw [pushOn, ih, elements, List.filter_cons_of_pos rfl, List.reverse_cons, List.append_assoc]
    rfl

/-! ## Leading texts -/

/-- The text that the strict reader takes a writing to begin with. -/
def leadingText : Writing → String
  | .leaf token rest =>
    match token.node with
    | .text content => content ++ rest.leadingText
    | _ => ""
  | _ => ""

theorem pushOn_append (w : Writing) {children : List Strict.Node} {first : Strict.Node}
    (h : children ≠ [] ∨ ∀ text, first ≠ .text text) :
    w.pushOn (children ++ [first]) = w.pushOn children ++ [first] := by
  induction w generalizing children with
  | nil => rfl
  | leaf token rest ih =>
    rw [pushOn, pushOn, Strict.Node.pushOn_append h, ih (.inl (Strict.Node.pushOn_ne_nil _ _))]
  | empty tag rest ih =>
    rw [pushOn, pushOn, ← List.cons_append, ih (.inl (by simp))]
  | pair tag inside gap rest _ ih =>
    rw [pushOn, pushOn, ← List.cons_append, ih (.inl (by simp))]

/-- A text with a writing behind it goes on with what the writing begins with. -/
theorem getLast?_pushOn_text (w : Writing) (text : String) :
    (w.pushOn [.text text]).getLast? = some (.text (text ++ w.leadingText)) := by
  have hstay : ∀ (rest : Writing) (node : Strict.Node),
      (rest.pushOn (node :: [.text text])).getLast? = some (.text (text ++ "")) := by
    intro rest node
    rw [← List.singleton_append, pushOn_append rest (.inl (by simp)), List.getLast?_concat,
      String.append_empty]
  cases w with
  | nil => exact congrArg (fun t => some (Strict.Node.text t)) String.append_empty.symm
  | leaf token rest =>
    rw [pushOn, leadingText]
    cases hnode : token.node with
    | text content =>
      rw [← String.append_assoc]
      exact getLast?_pushOn_text rest (text ++ content)
    | element name inside => exact hstay rest _
    | aside => exact hstay rest _
  | empty tag rest => exact hstay rest _
  | pair tag inside gap rest => exact hstay rest _

/-- The text that the strict reader takes an element to begin with is what the writing in it begins
    with. -/
theorem leadingText_element (name : String) (w : Writing) :
    (Strict.Node.element name (w.pushOn []).reverse).leadingText = w.leadingText := by
  have hfirst : ∀ (rest : Writing) {node : Strict.Node}, (∀ text, node ≠ .text text) →
      (Strict.Node.element name (rest.pushOn [node]).reverse).leadingText = "" := by
    intro rest node hnode
    rw [← List.nil_append [node], pushOn_append rest (.inr hnode), List.reverse_concat]
    cases node with
    | text text => exact absurd rfl (hnode text)
    | element own inside => rfl
    | aside => rfl
  cases w with
  | nil => rfl
  | leaf token rest =>
    rw [pushOn, leadingText]
    cases hnode : token.node with
    | text content =>
      obtain ⟨front, hfront⟩ := List.getLast?_eq_some_iff.mp (getLast?_pushOn_text rest content)
      rw [show Strict.Node.pushOn (.text content) [] = [.text content] from rfl, hfront,
        List.reverse_concat]
      rfl
    | element own inside => exact hfirst rest (by simp)
    | aside => exact hfirst rest (by simp)
  | empty tag rest => exact hfirst rest (by simp)
  | pair tag inside gap rest => exact hfirst rest (by simp)

/-- The text of a writing is what the strict reader takes it to begin with, line breaks apart, and
    blanks behind. -/
def ReadsAlike (w : Writing) : Prop :=
  ∃ front back, w.text.toList = front ++ back ∧ (∀ c ∈ back, Text.isBlank c = true) ∧
    Strict.Retold front w.leadingText.toList

theorem readsAlike_of_isAllBlank {w : Writing} (hblank : Text.isAllBlank w.text = true)
    (hnone : w.leadingText = "") : w.ReadsAlike :=
  ⟨[], w.text.toList, rfl, List.all_eq_true.mp hblank, hnone ▸ .nil⟩

/-- Characters that both readers take for the same go before a writing. -/
theorem ReadsAlike.leaf {rest : Writing} (h : rest.ReadsAlike) {token : Token} {content : String}
    (hnode : token.node = .text content)
    (hretold : Strict.Retold token.ownText.toList content.toList) :
    (leaf token rest).ReadsAlike := by
  obtain ⟨front, back, htext, hback, hfront⟩ := h
  refine ⟨token.ownText.toList ++ front, back, ?_, hback, ?_⟩
  · rw [text, String.toList_append, htext, List.append_assoc]
  · rw [leadingText, hnode, String.toList_append]
    exact hretold.append hfront

end Writing

/-! ## Plain texts -/

namespace Tree

/-- Whether a node is a text or a CDATA section. -/
def isCharacters (t : Tree) (id : NodeId) : Bool :=
  match t.content id with
  | .text _ => true
  | .cdata _ => true
  | _ => false

/-- Whether a node is no text with a reference in it that cannot be resolved. -/
def isReadable (t : Tree) (id : NodeId) : Bool :=
  match t.content id with
  | .text raw => (unescape raw).isSome
  | _ => true

/-- The text of an element is one piece: nothing but blanks follows the characters that the element
    begins with, all references in it are known, and no line is broken by a carriage return. -/
structure PlainText (t : Tree) (id : NodeId) : Prop where
  leading : ∀ child ∈ (t.children id).dropWhile t.isCharacters,
    Text.isAllBlank (ownText (t.content child)) = true
  readable : ∀ child ∈ t.children id, t.isReadable child = true
  unbroken : '\r' ∉ (Text.trim (t.text id)).toList

instance (t : Tree) (id : NodeId) : Decidable (t.PlainText id) :=
  decidable_of_iff ((∀ child ∈ (t.children id).dropWhile t.isCharacters,
      Text.isAllBlank (ownText (t.content child)) = true) ∧
      (∀ child ∈ t.children id, t.isReadable child = true) ∧
      '\r' ∉ (Text.trim (t.text id)).toList)
    ⟨fun ⟨hleading, hreadable, hunbroken⟩ => ⟨hleading, hreadable, hunbroken⟩,
      fun h => ⟨h.leading, h.readable, h.unbroken⟩⟩

variable {t : Tree} {w : Writing} {ids : List NodeId} {reads : List Strict.Token}

theorem isAllBlank_join {texts : List String}
    (h : ∀ text ∈ texts, Text.isAllBlank text = true) :
    Text.isAllBlank (String.join texts) = true := by
  induction texts with
  | nil => rfl
  | cons text texts ih =>
    obtain ⟨hfirst, hrest⟩ := List.forall_mem_cons.mp h
    have hmore := ih hrest
    rw [Text.isAllBlank, List.all_eq_true] at hfirst hmore ⊢
    rw [String.join_cons, String.toList_append]
    exact fun c hc => (List.mem_append.mp hc).elim (hfirst c) (hmore c)

/-- Where the first node is no characters, all nodes are blank, and the strict
    reader takes nothing. -/
theorem StandFor.readsAlike_of_not_characters {id : NodeId} {more : List NodeId}
    (h : t.StandFor w (id :: more)) (hid : t.isCharacters id = false)
    (hleading : ∀ child ∈ (id :: more).dropWhile t.isCharacters,
      Text.isAllBlank (ownText (t.content child)) = true)
    (hnone : w.leadingText = "") : w.ReadsAlike := by
  rw [List.dropWhile_cons_of_neg (by simp [hid])] at hleading
  refine Writing.readsAlike_of_isAllBlank ?_ hnone
  rw [← h.join_ownText]
  refine isAllBlank_join fun text htext => ?_
  obtain ⟨child, hchild, rfl⟩ := List.mem_map.mp htext
  exact hleading child hchild

theorem StandFor.readsAlike (h : t.StandFor w ids) (hseen : w.Seen reads)
    (hleading : ∀ child ∈ ids.dropWhile t.isCharacters,
      Text.isAllBlank (ownText (t.content child)) = true)
    (hreadable : ∀ child ∈ ids, t.isReadable child = true) : w.ReadsAlike := by
  induction w generalizing ids reads with
  | nil => exact Writing.readsAlike_of_isAllBlank rfl rfl
  | leaf token rest ih =>
    have hstand := h
    obtain ⟨id, more, rfl, hleaf, hadds, hrest⟩ := h
    obtain ⟨-, read, reads, rfl, hread, hseen⟩ := hseen
    obtain ⟨hid, hmore⟩ := List.forall_mem_cons.mp hreadable
    have hbehind : t.isCharacters id = true → rest.ReadsAlike := by
      intro hcharacters
      rw [List.dropWhile_cons_of_pos hcharacters] at hleading
      exact ih hrest hseen hleading hmore
    cases token with
    | startTag tag => cases hleaf
    | emptyTag tag => cases hleaf
    | endTag name => cases hleaf
    | text raw =>
      obtain ⟨content, rfl, hcontent⟩ := hread
      have hadds : t.content id = .text raw := hadds
      rw [isReadable, hadds] at hid
      obtain ⟨text, htext⟩ := Option.isSome_iff_exists.mp hid
      have hretold := Strict.retold_of_textOf? hcontent htext
      refine (hbehind (by rw [isCharacters, hadds])).leaf
        (by rw [Token.node, hcontent, Option.getD_some]) ?_
      rwa [Token.ownText, ownText, htext]
    | cdata content =>
      obtain ⟨text, rfl, htext⟩ := hread
      have hadds : t.content id = .cdata content := hadds
      refine (hbehind (by rw [isCharacters, hadds])).leaf
        (by rw [Token.node, htext, Option.getD_some]) ?_
      exact Strict.retold_of_cdataOf? htext
    | _ =>
      refine hstand.readsAlike_of_not_characters ?_ hleading rfl
      rw [isCharacters, show t.content id = _ from hadds]
  | empty tag rest =>
    have hstand := h
    obtain ⟨id, more, e, rfl, -, hcontent, -, -⟩ := h
    exact hstand.readsAlike_of_not_characters (by rw [isCharacters, hcontent]) hleading rfl
  | pair tag inside gap rest =>
    have hstand := h
    obtain ⟨id, more, e, rfl, -, hcontent, -, -⟩ := h
    exact hstand.readsAlike_of_not_characters (by rw [isCharacters, hcontent]) hleading rfl

/-- The leading text of an element whose text is plain is its text, but for blanks around it. -/
theorem PlainText.trim_leadingText {id : NodeId} (hplain : t.PlainText id)
    (h : t.StandFor w (t.children id)) (hseen : w.Seen reads) :
    Text.trim w.leadingText = Text.trim (t.text id) := by
  obtain ⟨front, back, htext, hback, hretold⟩ :=
    h.readsAlike hseen hplain.leading hplain.readable
  have hunbroken := hplain.unbroken
  rw [Tree.text, h.join_ownText] at hunbroken ⊢
  rw [Text.trim, String.toList_ofList, htext, Text.trimChars_append_blank front hback] at hunbroken
  rw [Text.trim, Text.trim, htext, Text.trimChars_append_blank front hback,
    hretold.trimChars_eq hunbroken]

/-! ## Elements -/

/-- A node is what the strict reader makes of an element. -/
def Stands (t : Tree) (id : NodeId) (node : Strict.Node) : Prop :=
  ∃ w reads, w.Seen reads ∧ t.StandFor w (t.children id) ∧
    node = .element (t.localName id) (w.pushOn []).reverse

theorem localName_of_elementOf? {tag : Tag} {e : Element} {id : NodeId}
    (htag : elementOf? tag = some e)
    (hcontent : t.content id = .element e) : t.localName id = tag.localName := by
  obtain ⟨attributes, rfl⟩ := exists_attributes_of_elementOf? htag
  rw [localName, element?, hcontent]
  rfl

/-- The elements among nodes are taken one by one for those of the writing that the
    nodes stand for. -/
theorem StandFor.forall₂_stands (h : t.StandFor w ids) (hseen : w.Seen reads) :
    List.Forall₂ t.Stands (ids.filter t.isElement) w.elements := by
  have helement : ∀ {id : NodeId} {e : Element}, t.content id = .element e →
      t.isElement id = true := by
    intro id e hcontent
    simp [isElement, element?, hcontent]
  induction w generalizing ids reads with
  | nil =>
    obtain rfl : ids = [] := h
    exact .nil
  | leaf token rest ih =>
    obtain ⟨id, more, rfl, hleaf, hadds, hrest⟩ := h
    obtain ⟨-, read, reads, rfl, -, hseen⟩ := hseen
    obtain ⟨-, hnone, -⟩ := spelling_of_adds hleaf hadds
    rw [List.filter_cons_of_neg (by simp [isElement, element?])]
    exact ih hrest hseen
  | empty tag rest ih =>
    obtain ⟨id, more, e, rfl, htag, hcontent, hchildren, hrest⟩ := h
    obtain ⟨read, reads, rfl, -, hseen⟩ := hseen
    rw [List.filter_cons_of_pos (helement hcontent)]
    refine .cons ⟨.nil, [], rfl, hchildren, ?_⟩ (ih hrest hseen)
    rw [localName_of_elementOf? htag hcontent]
    rfl
  | pair tag inside gap rest _ ih =>
    obtain ⟨id, more, e, rfl, htag, hcontent, hinside, hrest⟩ := h
    obtain ⟨read, front, close, reads, rfl, -, hfront, -, hseen⟩ := hseen
    rw [List.filter_cons_of_pos (helement hcontent)]
    refine .cons ⟨inside, front, hfront, hinside, ?_⟩ (ih hrest hseen)
    rw [localName_of_elementOf? htag hcontent]

namespace Stands

variable {id : NodeId} {node : Strict.Node}

theorem isNamed_eq (h : t.Stands id node) (name : String) :
    node.isNamed name = (t.localName id == name) := by
  obtain ⟨w, reads, -, -, rfl⟩ := h
  rfl

/-- The strict reader makes child elements of the child elements of an element. -/
theorem forall₂_childElements (h : t.Stands id node) :
    List.Forall₂ t.Stands (t.childElements id) node.childElements := by
  obtain ⟨w, reads, hseen, hstand, rfl⟩ := h
  have hchildren : Strict.Node.childElements (.element (t.localName id) (w.pushOn []).reverse) =
      w.elements := by
    rw [Strict.Node.childElements, Strict.Node.children, List.filter_reverse, w.filter_pushOn]
    simp
  rw [hchildren]
  exact hstand.forall₂_stands hseen

/-- It finds those that have a local name, whatever their namespaces. -/
theorem forall₂_childrenNamed (h : t.Stands id node) (name : String) :
    List.Forall₂ t.Stands ((t.childElements id).filter (t.localName · == name))
      (node.childrenNamed name) := by
  rw [Strict.Node.childrenNamed_eq_filter]
  refine List.rel_filter (fun child m hchild => ?_) h.forall₂_childElements
  exact Eq.to_iff (congrArg (· = true) (hchild.isNamed_eq name).symm)

theorem trim_leadingText (h : t.Stands id node) (hplain : t.PlainText id) :
    Text.trim node.leadingText = Text.trim (t.text id) := by
  obtain ⟨w, reads, hseen, hstand, rfl⟩ := h
  rw [Writing.leadingText_element]
  exact hplain.trim_leadingText hstand hseen

end Stands

/-- What follows tokens that open no element has the same elements. -/
theorem StandFor.exists_of_behind {w' : Writing} (h : t.StandFor w ids)
    (hbehind : Writing.Behind w' w) :
    ∃ ids', t.StandFor w' ids' ∧ ids'.filter t.isElement = ids.filter t.isElement := by
  induction hbehind generalizing ids with
  | refl => exact ⟨ids, h, rfl⟩
  | leaf token _ ih =>
    obtain ⟨id, more, rfl, hleaf, hadds, hrest⟩ := h
    obtain ⟨-, hnone, -⟩ := spelling_of_adds hleaf hadds
    rw [List.filter_cons_of_neg (by simp [isElement, element?])]
    exact ih hrest

/-- The strict reader makes the root of a document of its root element. -/
theorem exists_stands_of_parse {text : String} (h : parse text = .ok t) {node : Strict.Node}
    (hstrict : Strict.parse? text = some node) :
    ∃ id, t.rootElement? = some id ∧ t.Stands id node := by
  obtain ⟨cs, rfl⟩ : ∃ cs, text = String.ofList cs := ⟨text.toList, by simp⟩
  rw [Strict.parse?_ofList] at hstrict
  obtain ⟨w, hw, hcs, hdraft⟩ := exists_writing_of_parseChars h hstrict
  obtain ⟨-, -, -, hchildren, hrecords⟩ := records_of_foldlM hw.leaves hdraft
  obtain ⟨w', reads, hbehind, hseen, hhead⟩ := Writing.exists_seen_of_parseChars? hstrict hw hcs
  obtain ⟨ids, hstand, hids⟩ := hrecords.standFor.exists_of_behind hbehind
  have hpair := hstand.forall₂_stands hseen
  rw [hids, ← hchildren] at hpair
  rw [rootElement?, ← List.head?_filter]
  obtain ⟨elements, hw'⟩ := List.head?_eq_some_iff.mp hhead
  rw [hw'] at hpair
  obtain ⟨id, more, hid, -, hroot⟩ := List.forall₂_cons_right_iff.mp hpair
  exact ⟨id, by rw [hroot]; rfl, hid⟩

end Tree

end MavenPom.Markup
