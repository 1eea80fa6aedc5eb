import MavenPom.Proofs.Edit.Growth
import MavenPom.Proofs.Markup.Read
import MavenPom.Proofs.Markup.WellFormed

/-!
# Spelling

The tree of a well-formed document holds legible nodes only: each is read again from its spelling.
-/

namespace MavenPom.Markup

/-- The spelling of the content alone is legible. -/
def Content.Legible : Content → Prop
  | .document => False
  | .element e => Tag.Legible ⟨e.name, e.attributeText⟩
  | .text raw => (Token.text raw).Legible
  | .cdata content => (Token.cdata content).Legible
  | .comment content => (Token.comment content).Legible
  | .declaration content => (Token.declaration content).Legible
  | .instruction content => (Token.instruction content).Legible
  | .doctype content => (Token.doctype content).Legible

namespace Tree

theorem legible_of_adds {token : Token} {c : Content} (h : Adds token c)
    (htoken : token.Legible) : c.Legible := by
  cases token with
  | startTag tag =>
    obtain ⟨attributes, rfl⟩ := h
    exact htoken
  | emptyTag tag =>
    obtain ⟨attributes, rfl⟩ := h
    exact htoken
  | endTag name => exact h.elim
  | _ =>
    cases h
    exact htoken

theorem opens_of_legible {c : Content} (h : c.Legible) : Opens c := by
  cases c with
  | document => exact h
  | element e =>
    obtain ⟨first, rest, hname, hslash, -⟩ := Tag.Legible.name_head h
    exact ⟨first, rest, hname, hslash⟩
  | text raw =>
    obtain ⟨hne, hopen⟩ := h
    cases hraw : raw.toList with
    | nil => exact absurd hraw hne
    | cons first rest =>
      refine ⟨first, rest, hraw, ?_⟩
      rintro rfl
      exact hopen (hraw ▸ List.mem_cons_self ..)
  | _ => trivial

namespace Draft

variable {C : Content → Prop} {d d' : Draft}

/-- All nodes but the document's have content of a kind. -/
structure Holds (C : Content → Prop) (d : Draft) : Prop extends d.Sound where
  document : d.tree.content root = .document
  content : ∀ id, 0 < id → id < d.tree.size → C (d.tree.content id)

theorem Holds.take (h : d.Holds C) {lexeme : Lexeme}
    (hlexeme : ∀ c, Adds lexeme.token c → C c) (ht : d.take lexeme = .ok d') : d'.Holds C := by
  have hsound := h.toSound.take ht
  have hadded : ∀ c, C c → d'.tree = d.tree.pushChild d.current c → d'.Holds C := by
    intro c hc htree
    refine ⟨hsound, ?_, fun id hpos hid => ?_⟩
    · have hroot : root ≠ d.tree.size := Nat.ne_of_lt h.nonempty
      rw [htree, content_pushChild, if_neg hroot, h.document]
    · rw [htree, content_pushChild]
      split
      · exact hc
      · next hne =>
        rw [htree, size_pushChild] at hid
        exact h.content id hpos (Nat.lt_of_le_of_ne (Nat.le_of_lt_succ hid) hne)
  rcases take_cases ht with ⟨c, hadds, rfl | rfl⟩ | ⟨-, rfl⟩
  · exact hadded c (hlexeme c hadds) rfl
  · exact hadded c (hlexeme c hadds) rfl
  · exact ⟨hsound, h.document, h.content⟩

theorem Holds.foldlM (h : d.Holds C) {lexemes : List Lexeme}
    (hlexemes : ∀ l ∈ lexemes, ∀ c, Adds l.token c → C c)
    (ht : lexemes.foldlM Draft.take d = .ok d') : d'.Holds C := by
  induction lexemes generalizing d with
  | nil =>
    cases ht
    exact h
  | cons lexeme rest ih =>
    obtain ⟨hlexeme, hlexemes⟩ := List.forall_mem_cons.mp hlexemes
    obtain ⟨next, htake, hrest⟩ := exists_of_foldlM_cons ht
    exact ih (h.take hlexeme htake) hlexemes hrest

theorem Holds.start : (⟨empty, []⟩ : Draft).Holds C :=
  ⟨Sound.start, rfl, fun id hpos hid => absurd hid (by simp [empty, size]; omega)⟩

/-- The first node of a document stays the one that was read first. -/
structure Begins (c : Content) (d : Draft) : Prop extends d.Sound where
  children : ∃ rest, d.tree.children root = 1 :: rest
  content : d.tree.content 1 = c
  lt_size : 1 < d.tree.size

theorem Begins.take {c : Content} (h : d.Begins c) {lexeme : Lexeme}
    (ht : d.take lexeme = .ok d') : d'.Begins c := by
  have hsound := h.toSound.take ht
  obtain ⟨rest, hrest⟩ := h.children
  have hadded : ∀ c', d'.tree = d.tree.pushChild d.current c' → d'.Begins c := by
    intro c' htree
    refine ⟨hsound, ?_, ?_, ?_⟩
    · rw [htree, children_pushChild c' root h.current_lt]
      split
      · exact ⟨rest ++ [d.tree.size], by rw [hrest]; rfl⟩
      · exact ⟨rest, hrest⟩
    · rw [htree, content_pushChild, if_neg (Nat.ne_of_lt h.lt_size), h.content]
    · rw [htree, size_pushChild]
      exact Nat.lt_succ_of_lt h.lt_size
  rcases take_cases ht with ⟨c', -, rfl | rfl⟩ | ⟨-, rfl⟩
  · exact hadded c' rfl
  · exact hadded c' rfl
  · exact ⟨hsound, h.children, h.content, h.lt_size⟩

theorem Begins.foldlM {c : Content} (h : d.Begins c) {lexemes : List Lexeme}
    (ht : lexemes.foldlM Draft.take d = .ok d') : d'.Begins c := by
  induction lexemes generalizing d with
  | nil =>
    cases ht
    exact h
  | cons lexeme rest ih =>
    obtain ⟨next, htake, hrest⟩ := exists_of_foldlM_cons ht
    exact ih (h.take htake) hrest

end Draft

/-- The tree of a well-formed document, which is legible and does not begin with a byte order
    mark. -/
structure Spelled (t : Tree) : Prop where
  wellFormed : t.WellFormed
  document : t.content root = .document
  legible : ∀ id, 0 < id → id < t.size → (t.content id).Legible
  first : ∀ c rest raw, t.children root = c :: rest → t.content c = .text raw →
    raw.toList.head? ≠ some '\uFEFF'

theorem Spelled.rooted {t : Tree} {r : NodeId} (h : t.Spelled) (hr : t.rootElement? = some r) :
    t.Rooted r where
  wellFormed := h.wellFormed
  document := h.document
  rootElement? := hr
  opens_root := by
    have hmem := List.mem_of_find?_eq_some hr
    exact opens_of_legible (h.legible r (h.wellFormed.lt_child hmem) (h.wellFormed.child_lt hmem))
  opens c hc := by
    have hpos := Nat.lt_of_le_of_lt (Nat.zero_le r) (h.wellFormed.lt_child hc)
    exact opens_of_legible (h.legible c hpos (h.wellFormed.child_lt hc))

/-- The first node is the one of the first token. -/
theorem begins_of_take {lexeme : Lexeme} {d : Draft}
    (h : Draft.take ⟨empty, []⟩ lexeme = .ok d) :
    (∃ c, Adds lexeme.token c ∧ d.Begins c) ∨ ∃ name, lexeme.token = .endTag name := by
  have hsound := Draft.Sound.start.take h
  have hpos : root < empty.size := by simp [empty, size, root]
  have hadded : ∀ c, d.tree = empty.pushChild root c → d.Begins c := by
    intro c htree
    refine ⟨hsound, ⟨[], ?_⟩, ?_, ?_⟩
    · rw [htree, children_pushChild c root hpos, if_pos rfl]
      rfl
    · rw [htree, content_pushChild]
      exact if_pos rfl
    · rw [htree, size_pushChild]
      exact Nat.lt_succ_of_le hpos
  rcases Draft.take_cases h with ⟨c, hadds, rfl | rfl⟩ | ⟨hend, -⟩
  · exact .inl ⟨c, hadds, hadded c rfl⟩
  · exact .inl ⟨c, hadds, hadded c rfl⟩
  · exact .inr hend

/-- What is read from a text that is well-formed too is spelled. -/
theorem spelled_of_parse {text : String} {t : Tree} (h : parse text = .ok t) {node : Strict.Node}
    (hstrict : Strict.parse? text = some node) : t.Spelled := by
  obtain ⟨cs, rfl⟩ : ∃ cs, text = String.ofList cs := ⟨text.toList, by simp⟩
  obtain ⟨d, hdraft, rfl, -⟩ := exists_draft_of_parse h
  rw [Strict.parse?_ofList] at hstrict
  obtain ⟨hlegible, hmark⟩ := Strict.legible_of_parseChars? hstrict
  rw [Token.scan_ofList, Token.scanChars_eq] at hdraft
  generalize (Text.strip? ['\uFEFF'] cs).getD cs = body at hlegible hmark hdraft
  have hholds : d.Holds Content.Legible := Draft.Holds.start.foldlM
    (fun l hl c hadds => legible_of_adds hadds (hlegible _ _ l hl)) hdraft
  refine ⟨hholds.wellFormed, hholds.document, hholds.content, ?_⟩
  intro c rest raw hchildren hcontent
  cases body with
  | nil =>
    rw [Token.scanFrom] at hdraft
    cases hdraft
    cases hchildren
  | cons first body =>
    rw [Token.scanFrom] at hdraft
    split at hdraft
    · cases hdraft
      cases hchildren
    · next token n hnext =>
      obtain ⟨d₁, htake, hdraft⟩ := Draft.exists_of_foldlM_cons hdraft
      rcases begins_of_take htake with ⟨c', hadds, hbegins⟩ | ⟨name, hend⟩
      · have hlast := hbegins.foldlM hdraft
        obtain ⟨rest', hrest⟩ := hlast.children
        obtain rfl : c = 1 := (List.cons.inj (hchildren.symm.trans hrest)).1
        obtain rfl : Content.text raw = c' := hcontent.symm.trans hlast.content
        rcases Token.next_cases hnext with ⟨-, rfl⟩ | ⟨_, _, -, -, rfl, -⟩ | ⟨-, htext, -⟩
        · cases hadds
          rw [String.toList_ofList]
          exact hmark
        · exact hadds.elim
        · cases token with
          | text raw' => exact absurd rfl (htext raw')
          | startTag tag => obtain ⟨_, heq⟩ := hadds; cases heq
          | emptyTag tag => obtain ⟨_, heq⟩ := hadds; cases heq
          | endTag name => exact hadds.elim
          | _ => cases hadds
      · -- Where no element is open, there is no end tag.
        obtain rfl : token = .endTag name := hend
        rcases Token.next_cases hnext with ⟨-, heq⟩ | ⟨_, _, -, -, -, hopen⟩ | ⟨-, -, hne⟩
        · cases heq
        · cases hopen
        · exact absurd rfl (hne name)

end Tree

end MavenPom.Markup
