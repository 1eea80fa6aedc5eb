import MavenPom.Proofs.Markup.Name
import MavenPom.Proofs.Markup.Nodes

/-!
# Both readers on one writing

The strict reader takes the tokens of a writing one by one, as the lenient one does. What it makes
of an element has the element's local name, and a child for each of its child elements in between
what it makes of the texts and the rest.
-/

namespace MavenPom.Markup

/-! ## One token -/

/-- The local name of the element that a tag begins. -/
def Tag.localName (tag : Tag) : String :=
  ((Text.splitOnce? ':' tag.name).map (·.2)).getD tag.name

namespace Token

/-- What the strict reader takes a token for. -/
def Seen : Token → Strict.Token → Prop
  | .startTag tag, read =>
    ∃ q attributes, read = .startTag q attributes ∧ q.name = tag.localName
  | .emptyTag tag, read =>
    ∃ q attributes, read = .emptyTag q attributes ∧ q.name = tag.localName
  | .endTag _, read => ∃ q, read = .endTag q
  | .text raw, read => ∃ content,
      read = .text raw content ∧ Strict.textOf? raw.toList = some content
  | .cdata content, read => ∃ text, read = .cdata text ∧ Strict.cdataOf? content.toList = some text
  | .comment _, read => read = .aside
  | .declaration _, read => read = .aside
  | .instruction _, read => read = .aside
  | .doctype _, _ => False

theorem name_of_qName? {cs : List Char} {q : Strict.QName} (h : Strict.qName? cs = some q)
    (attributes : String) : q.name = (Tag.mk (String.ofList cs) attributes).localName := by
  unfold Strict.qName? at h
  rw [Tag.localName, Text.splitOnce?, String.toList_ofList]
  cases hcut : Text.cut? [':'] cs with
  | none =>
    rw [hcut] at h
    dsimp only [Option.getD_none] at h
    split at h
    · cases h
    · cases h
      rfl
  | some parts =>
    rw [hcut] at h
    dsimp only [Option.getD_some] at h
    split at h
    · cases h
    · cases h
      rfl

/-- Both readers end the name of a tag at the same place. -/
theorem tagOf_of_attributes? {content : List Char} {attributes : List Strict.Attribute}
    (h : Strict.attributes? (content.dropWhile Strict.isNameChar) = some attributes) :
    (tagOf content).name = String.ofList (content.takeWhile Strict.isNameChar) := by
  have hname : ∀ c ∈ content.takeWhile Strict.isNameChar, (!isSpace c) = true := by
    intro c hc
    have hchar := Strict.forall_isNameChar_takeWhile c hc
    by_contra hspace
    rw [Strict.isNameChar_eq_false_of_isSpace (by simpa using hspace)] at hchar
    cases hchar
  have hrest : (content.dropWhile Strict.isNameChar).takeWhile (fun c => !isSpace c) = [] := by
    cases hdrop : content.dropWhile Strict.isNameChar with
    | nil => rfl
    | cons c rest =>
      have hspace := Strict.head?_of_attributes? h c (by rw [hdrop]; rfl)
      simp [hspace]
  have hsplit : (content.takeWhile Strict.isNameChar ++
      content.dropWhile Strict.isNameChar).takeWhile (fun c => !isSpace c) = _ :=
    List.takeWhile_append_of_pos hname
  rw [List.takeWhile_append_dropWhile, hrest, List.append_nil] at hsplit
  rw [tagOf, hsplit]

variable {names : Option String} {token : Token} {read : Strict.Token} {cs : List Char} {n n' : ℕ}

theorem seen_ofTagContent {content : List Char} (h : Strict.tag? content = some read) :
    (ofTagContent content).Seen read := by
  unfold Strict.tag? Strict.splitName at h
  dsimp only at h
  split at h
  · next q attributes hq hattributes =>
    unfold ofTagContent
    have hname := tagOf_of_attributes? hattributes
    cases h
    split
    · next hclosed =>
      rw [if_pos hclosed] at hq hname
      refine ⟨q, attributes, rfl, ?_⟩
      rw [name_of_qName? hq (tagOf content.dropLast).attributeText, Tag.localName, Tag.localName,
        hname]
    · next hclosed =>
      rw [if_neg hclosed] at hq hname
      refine ⟨q, attributes, rfl, ?_⟩
      rw [name_of_qName? hq (tagOf content).attributeText, Tag.localName, Tag.localName, hname]
  · cases h

theorem seen_of_readBang (hstrict : Strict.bang? cs = some (read, n))
    (h : readBang cs = .ok (token, n')) : token.Seen read := by
  unfold Strict.bang? at hstrict
  cases hdashes : Text.strip? "--".toList cs with
  | some body =>
    rw [hdashes] at hstrict
    obtain ⟨⟨content, after⟩, hcut, hsome⟩ := Option.bind_eq_some_iff.mp hstrict
    have hcs : cs = '-' :: '-' :: body := Text.strip?_eq_some_iff.mp hdashes
    dsimp only at hsome
    split at hsome
    · cases hsome
      rw [hcs, readBang, ← hcs, hdashes, Option.bind_some, hcut] at h
      cases h
      rfl
    · cases hsome
  | none =>
    rw [hdashes] at hstrict
    obtain ⟨⟨content, after⟩, hcut, hsome⟩ := Option.bind_eq_some_iff.mp hstrict
    obtain ⟨text, htext, heq⟩ := Option.map_eq_some_iff.mp hsome
    cases heq
    obtain ⟨body, hbody, hcut'⟩ := Option.bind_eq_some_iff.mp hcut
    obtain ⟨more, hcs⟩ : ∃ more, cs = '[' :: more := ⟨_, Text.strip?_eq_some_iff.mp hbody⟩
    rw [hcs, readBang, ← hcs, hbody, Option.bind_some, hcut'] at h
    cases h
    exact ⟨text, rfl, by rwa [String.toList_ofList]⟩

theorem seen_of_readInstruction (hstrict : Strict.instruction? cs = some (read, n))
    (h : readInstruction cs = .ok (token, n')) : token.Seen read := by
  obtain rfl : read = .aside := by
    unfold Strict.instruction? at hstrict
    dsimp only at hstrict
    split at hstrict
    · cases hstrict
    · obtain ⟨⟨content, after⟩, -, hsome⟩ := Option.bind_eq_some_iff.mp hstrict
      dsimp only at hsome
      split at hsome <;> cases hsome
      rfl
  unfold readInstruction at h
  split at h
  · cases h
  · cases h
    split <;> rfl

theorem seen_of_readEnd {content : List Char} (hstrict : Strict.endTag? content = some read)
    (h : readEnd names cs = .ok (token, n')) : token.Seen read := by
  obtain ⟨q, rfl⟩ : ∃ q, read = .endTag q := by
    unfold Strict.endTag? at hstrict
    dsimp only at hstrict
    split at hstrict
    · obtain ⟨q, -, rfl⟩ := Option.map_eq_some_iff.mp hstrict
      exact ⟨q, rfl⟩
    · cases hstrict
  unfold readEnd at h
  split at h
  · cases h
  · split at h
    · cases h
    · split at h
      · cases h
        exact ⟨q, rfl⟩
      · cases h

/-- Both readers take the same characters for the same token. -/
theorem seen_of_next {c : Char} (hstrict : Strict.next? c cs = some (read, n))
    (h : next names c cs = .ok (token, n')) : token.Seen read := by
  have hmap : ∀ {r : Except Breach (Token × ℕ)},
      (r.map fun x => (x.1, x.2 + 1)) = .ok (token, n') → ∃ m, r = .ok (token, m) := by
    intro r hr
    cases r with
    | error e => cases hr
    | ok x =>
      cases hr
      exact ⟨x.2, rfl⟩
  unfold Strict.next? at hstrict
  unfold next at h
  split at hstrict
  · next hopen =>
    rw [if_pos hopen] at h
    split at hstrict
    · cases hstrict
    · obtain ⟨⟨read', m⟩, hread, heq⟩ := Option.map_eq_some_iff.mp hstrict
      cases heq
      obtain ⟨m', hr⟩ := hmap h
      exact seen_of_readBang hread hr
    · obtain ⟨⟨read', m⟩, hread, heq⟩ := Option.map_eq_some_iff.mp hstrict
      cases heq
      obtain ⟨m', hr⟩ := hmap h
      exact seen_of_readInstruction hread hr
    · obtain ⟨⟨content, after⟩, -, hsome⟩ := Option.bind_eq_some_iff.mp hstrict
      obtain ⟨read', hread, heq⟩ := Option.map_eq_some_iff.mp hsome
      cases heq
      obtain ⟨m', hr⟩ := hmap h
      exact seen_of_readEnd hread hr
    · next hbang hquestion hslash =>
      obtain ⟨content, hcontent, hsome⟩ := Option.bind_eq_some_iff.mp hstrict
      obtain ⟨read', hread, heq⟩ := Option.map_eq_some_iff.mp hsome
      cases heq
      split at h
      · cases h
      · exact absurd rfl (hbang _)
      · exact absurd rfl (hquestion _)
      · exact absurd rfl (hslash _)
      · rw [hcontent] at h
        cases h
        exact seen_ofTagContent hread
  · next hopen =>
    rw [if_neg hopen] at h
    obtain ⟨text, htext, heq⟩ := Option.map_eq_some_iff.mp hstrict
    cases heq
    cases h
    exact ⟨text, rfl, by rwa [String.toList_ofList]⟩

theorem exists_seen_of_next {c : Char} {rest : List Char} {reads : List Strict.Token}
    (hlegible : next names c (cs ++ rest) = .ok (token, cs.length))
    (h : Strict.tokens? (c :: cs ++ rest) = some reads) :
    ∃ read more, reads = read :: more ∧ token.Seen read ∧ Strict.tokens? rest = some more := by
  rw [List.cons_append, Strict.tokens?] at h
  obtain ⟨⟨read, n⟩, hread, hmore⟩ := Option.bind_eq_some_iff.mp h
  obtain ⟨more, hrest, rfl⟩ := Option.map_eq_some_iff.mp hmore
  obtain ⟨rfl, -⟩ := legible_of_next hread hlegible
  rw [List.drop_left] at hrest
  exact ⟨read, more, rfl, seen_of_next hread hlegible, hrest⟩

/-- The strict reader takes a legible token from its spelling. -/
theorem exists_seen_of_spelling (token : Token) (htoken : token.Legible)
    (hend : token.isEnd = false)
    {rest : List Char} (hrest : token.isText = true → ∀ c ∈ rest.head?, c = '<')
    {reads : List Strict.Token} (h : Strict.tokens? (token.spelling ++ rest) = some reads) :
    ∃ read more, reads = read :: more ∧ token.Seen read ∧ Strict.tokens? rest = some more := by
  obtain ⟨c, cs, hspelling, hnext⟩ := @next_spelling none rest token htoken hend hrest
  rw [hspelling] at h
  exact exists_seen_of_next hnext h

/-- The strict reader takes the end tag of a legible tag. -/
theorem exists_seen_of_endTagChars {tag : Tag} (htag : tag.Legible) {gap : List Char}
    (hgap : ∀ c ∈ gap, isSpace c = true) {rest : List Char} {reads : List Strict.Token}
    (h : Strict.tokens? (endTagChars tag.name gap ++ rest) = some reads) :
    ∃ read more, reads = read :: more ∧ (Token.endTag tag.name).Seen read ∧
      Strict.tokens? rest = some more := by
  have hnext : next (some tag.name) '<' ('/' :: (tag.name.toList ++ gap ++ ['>']) ++ rest) =
      .ok (.endTag tag.name, ('/' :: (tag.name.toList ++ gap ++ ['>'])).length) := by
    have hnext := next_endTag htag hgap rest
    simpa [Nat.add_assoc] using hnext
  exact exists_seen_of_next hnext h

end Token

/-! ## A whole writing -/

namespace Writing

/-- What the strict reader takes a writing for. -/
def Seen : Writing → List Strict.Token → Prop
  | .nil, reads => reads = []
  | .leaf token rest, reads =>
    token.isLeaf = true ∧ ∃ read more, reads = read :: more ∧ token.Seen read ∧ rest.Seen more
  | .empty tag rest, reads =>
    ∃ read more, reads = read :: more ∧ (Token.emptyTag tag).Seen read ∧ rest.Seen more
  | .pair tag inside _ rest, reads =>
    ∃ read front close more, reads = read :: (front ++ close :: more) ∧
      (Token.startTag tag).Seen read ∧ inside.Seen front ∧ (Token.endTag tag.name).Seen close ∧
        rest.Seen more

/-- The strict reader takes a legible writing token by token, and then what follows it. -/
theorem exists_seen_of_tokens? {w : Writing} (hw : w.Legible) {tail : List Char}
    (htail : ∀ c ∈ tail.head?, c = '<') {reads : List Strict.Token}
    (h : Strict.tokens? (w.chars ++ tail) = some reads) :
    ∃ own more, reads = own ++ more ∧ w.Seen own ∧ Strict.tokens? tail = some more := by
  induction w generalizing tail reads with
  | nil => exact ⟨[], reads, rfl, rfl, h⟩
  | leaf token rest ih =>
    obtain ⟨hleaf, htoken, htext, hrest⟩ := hw
    rw [chars, List.append_assoc] at h
    obtain ⟨read, more, rfl, hread, h⟩ := Token.exists_seen_of_spelling token htoken
      (Token.isEnd_of_isLeaf hleaf) (fun h => head?_chars (htext h) htail) h
    obtain ⟨own, more, rfl, hown, h⟩ := ih hrest htail h
    exact ⟨read :: own, more, rfl, ⟨hleaf, read, own, rfl, hread, hown⟩, h⟩
  | empty tag rest ih =>
    obtain ⟨htag, hrest⟩ := hw
    rw [chars, List.append_assoc] at h
    obtain ⟨read, more, rfl, hread, h⟩ :=
      Token.exists_seen_of_spelling (.emptyTag tag) htag rfl (fun h => by cases h) h
    obtain ⟨own, more, rfl, hown, h⟩ := ih hrest htail h
    exact ⟨read :: own, more, rfl, ⟨read, own, rfl, hread, hown⟩, h⟩
  | pair tag inside gap rest ihinside ihrest =>
    obtain ⟨htag, hinside, hgap, hrest⟩ := hw
    rw [chars, List.append_assoc, List.append_assoc, List.append_assoc] at h
    obtain ⟨read, more, rfl, hread, h⟩ :=
      Token.exists_seen_of_spelling (.startTag tag) htag rfl (fun h => by cases h) h
    obtain ⟨front, more, rfl, hfront, h⟩ := ihinside hinside (by simp [endTagChars]) h
    obtain ⟨close, more, rfl, hclose, h⟩ := Token.exists_seen_of_endTagChars htag hgap h
    obtain ⟨own, more, rfl, hown, h⟩ := ihrest hrest htail h
    exact ⟨read :: (front ++ close :: own), more, by simp,
      ⟨read, front, close, own, rfl, hread, hfront, hclose, hown⟩, h⟩

end Writing

/-! ## What the strict reader makes of it -/

/-- What a token that opens and closes no element is to the strict reader. -/
def Token.node : Token → Strict.Node
  | .text raw => .text ((Strict.textOf? raw.toList).getD "")
  | .cdata content => .text ((Strict.cdataOf? content.toList).getD "")
  | _ => .aside

namespace Strict

/-- The children, last first, with one more. A text goes on with the text before it. -/
def Node.pushOn : Node → List Node → List Node
  | .text more, .text before :: rest => .text (before ++ more) :: rest
  | node, children => node :: children

theorem Draft.add?_opened (f : Frame) (rest : List Frame) (closed : Option Node) (node : Node) :
    Draft.add? ⟨f :: rest, closed⟩ node =
      some ⟨{ f with children := node.pushOn f.children } :: rest, closed⟩ := by
  obtain ⟨name, scope, children⟩ := f
  cases node with
  | text more =>
    cases children with
    | nil => rfl
    | cons first children => cases first <;> rfl
  | element own inside => rfl
  | aside => rfl

end Strict

namespace Writing

open Strict (Draft Frame)

/-- The children of an element, last first, with what a writing adds to them. -/
def pushOn : Writing → List Strict.Node → List Strict.Node
  | .nil, children => children
  | .leaf token rest, children => rest.pushOn (token.node.pushOn children)
  | .empty tag rest, children => rest.pushOn (.element tag.localName [] :: children)
  | .pair tag inside _ rest, children =>
    rest.pushOn (.element tag.localName (inside.pushOn []).reverse :: children)

/-- What the elements at the top of a writing are. -/
def elements : Writing → List Strict.Node
  | .nil => []
  | .leaf _ rest => rest.elements
  | .empty tag rest => .element tag.localName [] :: rest.elements
  | .pair tag inside _ rest => .element tag.localName (inside.pushOn []).reverse :: rest.elements

variable {w : Writing} {reads : List Strict.Token} {f : Frame} {rest : List Frame}
  {closed : Option Strict.Node} {d : Draft}

theorem take?_leaf {token : Token} (hleaf : token.isLeaf = true) {read : Strict.Token}
    (h : token.Seen read) : Draft.take? ⟨f :: rest, closed⟩ read =
      some ⟨{ f with children := token.node.pushOn f.children } :: rest, closed⟩ := by
  cases token with
  | startTag tag => cases hleaf
  | emptyTag tag => cases hleaf
  | endTag name => cases hleaf
  | text raw =>
    obtain ⟨content, rfl, hcontent⟩ := h
    simp [Draft.take?, Draft.add?_opened, Token.node, hcontent]
  | cdata content =>
    obtain ⟨text, rfl, htext⟩ := h
    simp [Draft.take?, Draft.add?_opened, Token.node, htext]
  | doctype content => exact h.elim
  | _ =>
    obtain rfl := h
    simp [Draft.take?, Draft.add?_opened, Token.node]

theorem exists_of_take?_startTag {tag : Tag} {read : Strict.Token}
    (h : (Token.startTag tag).Seen read) {d d' : Draft} (htake : d.take? read = some d') :
    ∃ q scope, q.name = tag.localName ∧ d' = { d with opened := ⟨q, scope, []⟩ :: d.opened } := by
  obtain ⟨q, attributes, rfl, hq⟩ := h
  rw [Draft.take?] at htake
  split at htake
  · cases htake
  · obtain ⟨scope, -, rfl⟩ := Option.map_eq_some_iff.mp htake
    exact ⟨q, scope, hq, rfl⟩

theorem exists_of_take?_emptyTag {tag : Tag} {read : Strict.Token}
    (h : (Token.emptyTag tag).Seen read) {d d' : Draft} (htake : d.take? read = some d') :
    d.add? (.element tag.localName []) = some d' := by
  obtain ⟨q, attributes, rfl, hq⟩ := h
  obtain ⟨scope, -, hadd⟩ := Option.bind_eq_some_iff.mp htake
  rwa [hq] at hadd

theorem exists_of_take?_endTag {name : String} {read : Strict.Token}
    (h : (Token.endTag name).Seen read) {d' : Draft}
    (htake : Draft.take? ⟨f :: rest, closed⟩ read = some d') :
    Draft.add? ⟨rest, closed⟩ (.element f.name.name f.children.reverse) = some d' := by
  obtain ⟨q, rfl⟩ := h
  simp only [Draft.take?] at htake
  split at htake
  · next hname =>
    rw [hname]
    exact htake
  · cases htake

theorem exists_of_foldlM_append {front back : List Strict.Token} {d d' : Draft}
    (h : (front ++ back).foldlM Draft.take? d = some d') :
    ∃ next, front.foldlM Draft.take? d = some next ∧ back.foldlM Draft.take? next = some d' := by
  rw [List.foldlM_append] at h
  exact Option.bind_eq_some_iff.mp h

theorem exists_of_foldlM_cons {read : Strict.Token} {more : List Strict.Token} {d d' : Draft}
    (h : (read :: more).foldlM Draft.take? d = some d') :
    ∃ next, d.take? read = some next ∧ more.foldlM Draft.take? next = some d' := by
  rw [List.foldlM_cons] at h
  exact Option.bind_eq_some_iff.mp h

/-- Within an element, a writing adds its nodes to the children. -/
theorem eq_of_foldlM_opened (h : w.Seen reads)
    (hfold : reads.foldlM Draft.take? ⟨f :: rest, closed⟩ = some d) :
    d = ⟨{ f with children := w.pushOn f.children } :: rest, closed⟩ := by
  induction w generalizing reads f rest d with
  | nil =>
    obtain rfl : reads = [] := h
    exact (Option.some.inj hfold).symm
  | leaf token after ih =>
    obtain ⟨hleaf, read, more, rfl, hread, hmore⟩ := h
    obtain ⟨next, htake, hfold⟩ := exists_of_foldlM_cons hfold
    rw [take?_leaf hleaf hread] at htake
    obtain rfl := Option.some.inj htake
    exact ih hmore hfold
  | empty tag after ih =>
    obtain ⟨read, more, rfl, hread, hmore⟩ := h
    obtain ⟨next, htake, hfold⟩ := exists_of_foldlM_cons hfold
    have hadd := exists_of_take?_emptyTag hread htake
    rw [Draft.add?_opened] at hadd
    obtain rfl := Option.some.inj hadd
    exact ih hmore hfold
  | pair tag inside gap after ihinside ihafter =>
    obtain ⟨read, front, close, more, rfl, hread, hfront, hclose, hmore⟩ := h
    obtain ⟨entered, htake, hfold⟩ := exists_of_foldlM_cons hfold
    obtain ⟨q, scope, hq, rfl⟩ := exists_of_take?_startTag hread htake
    obtain ⟨filled, hfilled, hfold⟩ := exists_of_foldlM_append hfold
    obtain rfl := ihinside hfront hfilled
    obtain ⟨left, hleave, hfold⟩ := exists_of_foldlM_cons hfold
    have hadd := exists_of_take?_endTag hclose hleave
    rw [Draft.add?_opened] at hadd
    obtain rfl := Option.some.inj hadd
    rw [ihafter hmore hfold]
    simp only [pushOn, ← hq]
    rfl

theorem closed_of_add? {name : String} {children : List Strict.Node}
    (h : Draft.add? ⟨[], closed⟩ (.element name children) = some d) :
    closed = none ∧ d = ⟨[], some (.element name children)⟩ := by
  cases closed with
  | none => exact ⟨rfl, (Option.some.inj h).symm⟩
  | some node => cases h

theorem eq_of_take?_text {raw content : String}
    (h : Draft.take? ⟨[], closed⟩ (.text raw content) = some d) : d = ⟨[], closed⟩ := by
  rw [Draft.take?] at h
  split at h
  · exact (Option.some.inj h).symm
  · cases h

theorem eq_of_take?_leaf {token : Token} (hleaf : token.isLeaf = true) {read : Strict.Token}
    (h : token.Seen read) (htake : Draft.take? ⟨[], closed⟩ read = some d) : d = ⟨[], closed⟩ := by
  cases token with
  | startTag tag => cases hleaf
  | emptyTag tag => cases hleaf
  | endTag name => cases hleaf
  | text raw =>
    obtain ⟨content, rfl, -⟩ := h
    exact eq_of_take?_text htake
  | cdata content =>
    obtain ⟨text, rfl, -⟩ := h
    cases htake
  | doctype content => exact h.elim
  | _ =>
    obtain rfl := h
    exact (Option.some.inj htake).symm

/-- Outside of every element, a writing gives the document its root element. -/
theorem eq_of_foldlM_top (h : w.Seen reads)
    (hfold : reads.foldlM Draft.take? ⟨[], closed⟩ = some d) :
    d = ⟨[], closed.or w.elements.head?⟩ := by
  induction w generalizing reads closed d with
  | nil =>
    obtain rfl : reads = [] := h
    rw [elements, List.head?_nil, Option.or_none]
    exact (Option.some.inj hfold).symm
  | leaf token after ih =>
    obtain ⟨hleaf, read, more, rfl, hread, hmore⟩ := h
    obtain ⟨next, htake, hfold⟩ := exists_of_foldlM_cons hfold
    obtain rfl := eq_of_take?_leaf hleaf hread htake
    exact ih hmore hfold
  | empty tag after ih =>
    obtain ⟨read, more, rfl, hread, hmore⟩ := h
    obtain ⟨next, htake, hfold⟩ := exists_of_foldlM_cons hfold
    obtain ⟨rfl, rfl⟩ := closed_of_add? (exists_of_take?_emptyTag hread htake)
    exact ih hmore hfold
  | pair tag inside gap after _ ihafter =>
    obtain ⟨read, front, close, more, rfl, hread, hfront, hclose, hmore⟩ := h
    obtain ⟨entered, htake, hfold⟩ := exists_of_foldlM_cons hfold
    obtain ⟨q, scope, hq, rfl⟩ := exists_of_take?_startTag hread htake
    obtain ⟨filled, hfilled, hfold⟩ := exists_of_foldlM_append hfold
    obtain rfl := eq_of_foldlM_opened hfront hfilled
    obtain ⟨left, hleave, hfold⟩ := exists_of_foldlM_cons hfold
    obtain ⟨rfl, rfl⟩ := closed_of_add? (exists_of_take?_endTag hclose hleave)
    rw [ihafter hmore hfold, elements, ← hq]
    rfl

/-! ## The head of a document -/

/-- `w'` is what follows tokens in `w` that open and close no element. -/
inductive Behind : Writing → Writing → Prop where
  | refl (w : Writing) : Behind w w
  | leaf {w' : Writing} (token : Token) {after : Writing} : Behind w' after →
      Behind w' (.leaf token after)

theorem exists_of_foldlM_dropWhile {body : List Char} {d : Draft}
    (h : Strict.tokens? body = some reads)
    (hfold : reads.foldlM Draft.take? ⟨[], closed⟩ = some d) :
    ∃ reads', Strict.tokens? (body.dropWhile (· != '<')) = some reads' ∧
      reads'.foldlM Draft.take? ⟨[], closed⟩ = some d := by
  cases body with
  | nil => exact ⟨reads, h, hfold⟩
  | cons c cs =>
    by_cases hc : c = '<'
    · rw [List.dropWhile_cons_of_neg (by simp [hc])]
      exact ⟨reads, h, hfold⟩
    · rw [List.dropWhile_cons_of_pos (by simpa using hc)]
      rw [Strict.tokens?] at h
      obtain ⟨⟨read, n⟩, hread, hmore⟩ := Option.bind_eq_some_iff.mp h
      obtain ⟨more, hrest, rfl⟩ := Option.map_eq_some_iff.mp hmore
      unfold Strict.next? at hread
      rw [if_neg hc] at hread
      obtain ⟨content, -, heq⟩ := Option.map_eq_some_iff.mp hread
      cases heq
      have hdrop : cs.drop (cs.takeWhile (· != '<')).length = cs.dropWhile (· != '<') := by
        have hsplit := List.takeWhile_append_dropWhile (p := (· != '<')) (l := cs)
        exact (congrArg (List.drop _) hsplit).symm.trans List.drop_left
      obtain ⟨next, htake, hfold⟩ := exists_of_foldlM_cons hfold
      obtain rfl := eq_of_take?_text htake
      exact ⟨more, hdrop ▸ hrest, hfold⟩

/-- Where a text follows that opens nothing, it is the first of a writing, and the rest of the
    writing begins at the next bracket. -/
theorem exists_behind_of_append {w : Writing} (hw : w.Legible) {front body : List Char}
    (hfront : '<' ∉ front) (h : w.chars = front ++ body) :
    w.chars = body ∨ ∃ w', Behind w' w ∧ w'.Legible ∧ w'.chars = body.dropWhile (· != '<') := by
  cases front with
  | nil => exact .inl h
  | cons c front =>
    obtain ⟨hc, hfront⟩ := not_or.mp fun h => hfront (List.mem_cons.mpr h)
    have hhead : w.chars.head? = some c := by rw [h]; rfl
    have hall : ∀ {cs : List Char}, '<' ∉ cs → ∀ x ∈ cs, (x != '<') = true := by
      intro cs hcs x hx
      refine bne_iff_ne.mpr ?_
      rintro rfl
      exact hcs hx
    cases w with
    | nil => cases hhead
    | empty tag rest => exact absurd (Option.some.inj hhead) hc
    | pair tag inside gap rest => exact absurd (Option.some.inj hhead) hc
    | leaf token rest =>
      obtain ⟨-, htoken, htext, hrest⟩ := hw
      cases token with
      | text raw =>
        obtain ⟨-, hraw⟩ := htoken
        refine .inr ⟨rest, .leaf _ (.refl rest), hrest, ?_⟩
        have hstop : rest.chars.dropWhile (· != '<') = rest.chars := by
          cases hchars : rest.chars with
          | nil => rfl
          | cons d more =>
            have hd := @head?_chars rest (htext rfl) [] (by simp) d (by simp [hchars])
            simp [hd]
        have hchars : raw.toList ++ rest.chars = c :: (front ++ body) := h
        have hdrop := congrArg (List.dropWhile (· != '<')) hchars
        rw [List.dropWhile_append_of_pos (hall hraw), hstop, ← List.cons_append,
          List.dropWhile_append_of_pos (hall (by simp [hc, hfront]))] at hdrop
        exact hdrop
      | _ =>
        rw [chars, Token.eq_cons_spelling rfl] at hhead
        exact absurd (Option.some.inj hhead) hc

/-- Where content up to its first `?>` is content up to another one as well, the rest behind the
    first goes on with the rest behind the other. -/
theorem exists_front_of_endsAt {content inside rest body : List Char}
    (hends : Text.EndsAt "?>".toList content) (hinside : '<' ∉ inside)
    (h : content ++ "?>".toList ++ rest = inside ++ "?>".toList ++ body) :
    ∃ front, '<' ∉ front ∧ rest = front ++ body := by
  have hcut := hends rest
  rw [h] at hcut
  obtain ⟨front, hfront, hrest⟩ := Text.cut?_le (by decide) hcut
  refine ⟨front, fun hmem => ?_, hrest⟩
  have hall : '<' ∉ inside ++ "?>".toList := by
    simp only [List.mem_append, not_or]
    exact ⟨hinside, by decide⟩
  rw [hfront] at hall
  exact hall (List.mem_append_right _ hmem)

/-- A tag does not begin like a declaration. -/
theorem second_ne_of_tag {tag : Tag} (htag : tag.Legible) (more : List Char) :
    ('<' :: (tag.inside ++ more))[1]? ≠ some '?' := by
  intro heq
  obtain ⟨c, cs, hname, -, -, hc⟩ := htag.name_head
  rw [Tag.inside, hname] at heq
  exact hc (Option.some.inj heq)

/-- A declaration is the first token of a writing, and ends there or, for the strict reader, in the
    text behind it. -/
theorem exists_behind_of_declaration {w : Writing} (hw : w.Legible) {inside body : List Char}
    (hinside : '<' ∉ inside)
    (h : w.chars = "<?xml ".toList ++ inside ++ "?>".toList ++ body) :
    ∃ w' front, Behind w' w ∧ w'.Legible ∧ '<' ∉ front ∧ w'.chars = front ++ body := by
  have hfirst : w.chars.head? = some '<' := by rw [h]; rfl
  have hsecond : w.chars[1]? = some '?' := by rw [h]; rfl
  cases w with
  | nil => cases hsecond
  | empty tag rest =>
    rw [chars, Token.spelling, List.cons_append, List.cons_append, List.append_assoc] at hsecond
    exact absurd hsecond (second_ne_of_tag hw.1 _)
  | pair tag within gap rest =>
    rw [chars, Token.spelling, List.cons_append, List.cons_append, List.cons_append,
      List.cons_append, List.append_assoc, List.append_assoc, List.append_assoc] at hsecond
    exact absurd hsecond (second_ne_of_tag hw.1 _)
  | leaf token rest =>
    obtain ⟨hleaf, htoken, -, hrest⟩ := hw
    have hinstruction : ∀ content : String, Text.EndsAt "?>".toList content.toList →
        '<' :: '?' :: (content.toList ++ "?>".toList ++ rest.chars) = (leaf token rest).chars →
        ∃ w' front, Behind w' (leaf token rest) ∧ w'.Legible ∧ '<' ∉ front ∧
          w'.chars = front ++ body := by
      intro content hends hchars
      have hmore : '<' ∉ "xml ".toList ++ inside := by
        simp only [List.mem_append, not_or]
        exact ⟨by decide, hinside⟩
      obtain ⟨front, hfront, hbody⟩ := exists_front_of_endsAt hends hmore
        (List.cons.inj (List.cons.inj (hchars.trans h)).2).2
      exact ⟨rest, front, .leaf _ (.refl rest), hrest, hfront, hbody⟩
    cases token with
    | startTag tag => cases hleaf
    | emptyTag tag => cases hleaf
    | endTag name => cases hleaf
    | text raw =>
      obtain ⟨hne, hopen⟩ := htoken
      obtain ⟨c, cs, hraw⟩ := List.exists_cons_of_ne_nil hne
      have hchars : (leaf (.text raw) rest).chars = raw.toList ++ rest.chars := rfl
      rw [hchars, hraw] at hfirst
      exact absurd (hraw ▸ Option.some.inj hfirst ▸ List.mem_cons_self ..) hopen
    | cdata content => simp [chars, Token.spelling, Tree.leafText] at hsecond
    | comment content => simp [chars, Token.spelling, Tree.leafText] at hsecond
    | declaration content =>
      exact hinstruction content htoken.2.2 (by simp [chars, Token.spelling, Tree.leafText])
    | instruction content =>
      exact hinstruction content htoken.2.2 (by simp [chars, Token.spelling, Tree.leafText])
    | doctype content => exact htoken.elim

theorem Behind.trans {w w' w'' : Writing} (h : Behind w' w) (h' : Behind w'' w') :
    Behind w'' w := by
  induction h with
  | refl => exact h'
  | leaf token _ ih => exact .leaf token ih

/-- The root element of a document is what the strict reader makes of the first element of its
    writing. -/
theorem exists_seen_of_parseChars? {cs : List Char} {root : Strict.Node}
    (h : Strict.parseChars? cs = some root) (hw : w.Legible)
    (hcs : (Text.strip? ['\uFEFF'] cs).getD cs = w.chars) :
    ∃ w' reads, Behind w' w ∧ w'.Seen reads ∧ w'.elements.head? = some root := by
  unfold Strict.parseChars? at h
  rw [hcs] at h
  obtain ⟨body, hbody, h⟩ := Option.bind_eq_some_iff.mp h
  obtain ⟨reads, hreads, h⟩ := Option.bind_eq_some_iff.mp h
  obtain ⟨d, hd, hroot⟩ := Option.bind_eq_some_iff.mp h
  have hclosed : d.closed = some root := by
    split at hroot
    · exact hroot
    · cases hroot
  have hfinish : ∀ (w' : Writing) {reads : List Strict.Token}, Behind w' w → w'.Legible →
      Strict.tokens? w'.chars = some reads →
      reads.foldlM Draft.take? ⟨[], none⟩ = some d →
      ∃ w' reads, Behind w' w ∧ w'.Seen reads ∧ w'.elements.head? = some root := by
    intro w' reads hbehind hw' hreads hd
    rw [← List.append_nil w'.chars] at hreads
    obtain ⟨own, more, rfl, hown, hmore⟩ := exists_seen_of_tokens? hw' (by simp) hreads
    rw [Strict.tokens?] at hmore
    obtain rfl := Option.some.inj hmore
    rw [List.append_nil] at hd
    refine ⟨w', own, hbehind, hown, ?_⟩
    rw [eq_of_foldlM_top hown hd] at hclosed
    exact hclosed
  rcases Strict.eq_of_afterDeclaration? hbody with heq | ⟨inside, hinside, heq⟩
  · exact hfinish w (.refl w) hw (heq ▸ hreads) hd
  · obtain ⟨w', front, hbehind, hw', hfront, hchars⟩ := exists_behind_of_declaration hw hinside heq
    rcases exists_behind_of_append hw' hfront hchars with hsame | ⟨w'', hbehind', hw'', hsame⟩
    · exact hfinish w' hbehind hw' (hsame ▸ hreads) hd
    · obtain ⟨reads', hreads', hd'⟩ := exists_of_foldlM_dropWhile hreads hd
      exact hfinish w'' (hbehind.trans hbehind') hw'' (hsame ▸ hreads') hd'

end Writing

end MavenPom.Markup
