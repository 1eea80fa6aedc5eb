import MavenPom.Proofs.Markup.Token
import MavenPom.Proofs.Text.Encoding

/-!
# Writings

A text in which tags pair up, as a tree of its markup. Where its tokens are legible and texts are
maximal, it is read as just those tokens, whatever markup follows.
-/

namespace MavenPom.Markup

/-- A sequence of markup and texts. -/
inductive Writing where
  | nil
  /-- A token that opens and closes no element, and what follows it. -/
  | leaf (token : Token) (rest : Writing)
  /-- An empty tag, and what follows it. -/
  | empty (tag : Tag) (rest : Writing)
  /-- An element between two tags, with `gap` behind the name in its end tag, and what follows
      it. -/
  | pair (tag : Tag) (inside : Writing) (gap : List Char) (rest : Writing)

/-- The end tag of an element, with `gap` behind its name. -/
def endTagChars (name : String) (gap : List Char) : List Char :=
  '<' :: '/' :: (name.toList ++ gap ++ ['>'])

/-- What is read after the tokens `before`. -/
def Scan.behind (before : List Lexeme) (s : Scan) : Scan := ⟨before ++ s.lexemes, s.fault⟩

namespace Token

theorem scanFrom_next {names : List String} {token : Token} {c : Char} {cs rest : List Char}
    (h : next names.head? c (cs ++ rest) = .ok (token, cs.length)) (position : ℕ) :
    scanFrom names position (c :: cs ++ rest) =
      (scanFrom (openAfter names token) (position + Utf8.size (c :: cs)) rest).behind
        [⟨token, position, position + Utf8.size (c :: cs)⟩] := by
  rw [List.cons_append, scanFrom, h]
  simp only [List.take_left, List.drop_left]
  rfl

theorem scanFrom_spelling {names : List String} (token : Token) (h : token.Legible)
    (hend : token.isEnd = false) {rest : List Char}
    (hrest : token.isText = true → ∀ c ∈ rest.head?, c = '<') (position : ℕ) :
    scanFrom names position (token.spelling ++ rest) =
      (scanFrom (openAfter names token) (position + Utf8.size token.spelling)
        rest).behind [⟨token, position, position + Utf8.size token.spelling⟩] := by
  obtain ⟨c, cs, hspelling, hnext⟩ := next_spelling h hend hrest
  rw [hspelling]
  exact scanFrom_next hnext position

theorem scanFrom_endTag {tag : Tag} (h : tag.Legible) {gap : List Char}
    (hgap : ∀ c ∈ gap, isSpace c = true) (names : List String) (rest : List Char) (position : ℕ) :
    scanFrom (tag.name :: names) position (endTagChars tag.name gap ++ rest) =
      (scanFrom names (position + Utf8.size (endTagChars tag.name gap)) rest).behind
        [⟨.endTag tag.name, position, position + Utf8.size (endTagChars tag.name gap)⟩] := by
  have hnext := next_endTag h hgap rest
  refine scanFrom_next ?_ position
  simpa [Nat.add_assoc] using hnext

end Token

namespace Writing

def chars : Writing → List Char
  | .nil => []
  | .leaf token rest => token.spelling ++ rest.chars
  | .empty tag rest => (Token.emptyTag tag).spelling ++ rest.chars
  | .pair tag inside gap rest =>
    (Token.startTag tag).spelling ++ inside.chars ++ endTagChars tag.name gap ++ rest.chars

/-- The tokens of a writing that begins at the byte offset `position`. -/
def lexemes : Writing → Nat → List Lexeme
  | .nil, _ => []
  | .leaf token rest, position =>
    let stop := position + Utf8.size token.spelling
    ⟨token, position, stop⟩ :: rest.lexemes stop
  | .empty tag rest, position =>
    let stop := position + Utf8.size (Token.emptyTag tag).spelling
    ⟨.emptyTag tag, position, stop⟩ :: rest.lexemes stop
  | .pair tag inside gap rest, position =>
    let opened := position + Utf8.size (Token.startTag tag).spelling
    let closing := opened + Utf8.size inside.chars
    let stop := closing + Utf8.size (endTagChars tag.name gap)
    ⟨.startTag tag, position, opened⟩ :: inside.lexemes opened ++
      ⟨.endTag tag.name, closing, stop⟩ :: rest.lexemes stop

/-- The tokens of a writing. -/
def tokens : Writing → List Token
  | .nil => []
  | .leaf token rest => token :: rest.tokens
  | .empty tag rest => .emptyTag tag :: rest.tokens
  | .pair tag inside _ rest => .startTag tag :: inside.tokens ++ .endTag tag.name :: rest.tokens

theorem map_token_lexemes (w : Writing) (position : ℕ) :
    (w.lexemes position).map (·.token) = w.tokens := by
  induction w generalizing position with
  | nil => rfl
  | leaf token rest ih => simp [lexemes, tokens, ih]
  | empty tag rest ih => simp [lexemes, tokens, ih]
  | pair tag inside gap rest ihinside ihrest => simp [lexemes, tokens, ihinside, ihrest]

def isNil : Writing → Bool
  | .nil => true
  | _ => false

theorem eq_nil_of_isNil {w : Writing} (h : w.isNil = true) : w = .nil := by
  cases w with
  | nil => rfl
  | _ => cases h

/-- Whether a text comes first. -/
def startsText : Writing → Bool
  | .leaf token _ => token.isText
  | _ => false

/-- All tokens are legible, and no text follows another one directly. -/
def Legible : Writing → Prop
  | .nil => True
  | .leaf token rest =>
    token.isLeaf = true ∧ token.Legible ∧ (token.isText = true → rest.startsText = false) ∧
      rest.Legible
  | .empty tag rest => tag.Legible ∧ rest.Legible
  | .pair tag inside gap rest =>
    tag.Legible ∧ inside.Legible ∧ (∀ c ∈ gap, isSpace c = true) ∧ rest.Legible

/-- No token at a leaf opens or closes an element. -/
def Leaves : Writing → Prop
  | .nil => True
  | .leaf token rest => token.isLeaf = true ∧ rest.Leaves
  | .empty _ rest => rest.Leaves
  | .pair _ inside _ rest => inside.Leaves ∧ rest.Leaves

theorem Legible.leaves {w : Writing} (h : w.Legible) : w.Leaves := by
  induction w with
  | nil => trivial
  | leaf token rest ih => exact ⟨h.1, ih h.2.2.2⟩
  | empty tag rest ih => exact ih h.2
  | pair tag inside gap rest ihinside ihrest => exact ⟨ihinside h.2.1, ihrest h.2.2.2⟩

/-! ## Reading a writing -/

theorem head?_chars {w : Writing} (h : w.startsText = false) {tail : List Char}
    (htail : ∀ c ∈ tail.head?, c = '<') : ∀ c ∈ (w.chars ++ tail).head?, c = '<' := by
  intro c hc
  cases w with
  | nil => exact htail c hc
  | leaf token rest =>
    rw [chars, Token.eq_cons_spelling h] at hc
    exact (Option.some.inj hc).symm
  | empty tag rest => exact (Option.some.inj hc).symm
  | pair tag inside gap rest => exact (Option.some.inj hc).symm

/-- A writing is read as its tokens, and what follows it is read in the same elements. -/
theorem scanFrom_chars {w : Writing} (h : w.Legible) (names : List String) (position : ℕ)
    {tail : List Char} (htail : ∀ c ∈ tail.head?, c = '<') :
    Token.scanFrom names position (w.chars ++ tail) =
      (Token.scanFrom names (position + Utf8.size w.chars) tail).behind (w.lexemes position) := by
  induction w generalizing names position tail with
  | nil => rfl
  | leaf token rest ih =>
    obtain ⟨hleaf, htoken, htext, hrest⟩ := h
    rw [chars, List.append_assoc, Token.scanFrom_spelling token htoken (Token.isEnd_of_isLeaf hleaf)
      (fun h => head?_chars (htext h) htail), Token.openAfter_of_isLeaf hleaf,
      ih hrest _ _ htail]
    simp [Scan.behind, lexemes, Utf8.size_append, Nat.add_assoc]
  | empty tag rest ih =>
    obtain ⟨htag, hrest⟩ := h
    have hopen : Token.openAfter names (.emptyTag tag) = names := rfl
    rw [chars, List.append_assoc, Token.scanFrom_spelling (.emptyTag tag) htag rfl
      (fun h => by cases h), hopen, ih hrest _ _ htail]
    simp [Scan.behind, lexemes, Utf8.size_append, Nat.add_assoc]
  | pair tag inside gap rest ihinside ihrest =>
    obtain ⟨htag, hinside, hgap, hrest⟩ := h
    rw [chars, List.append_assoc, List.append_assoc, List.append_assoc,
      Token.scanFrom_spelling (.startTag tag) htag rfl (fun h => by cases h),
      Token.openAfter, ihinside hinside _ _ (by simp [endTagChars]),
      Token.scanFrom_endTag htag hgap, ihrest hrest _ _ htail]
    simp [Scan.behind, lexemes, Utf8.size_append, Nat.add_assoc]

/-- A writing on its own is read without a fault. -/
theorem scanFrom_self {w : Writing} (h : w.Legible) (names : List String) (position : ℕ) :
    Token.scanFrom names position w.chars = ⟨w.lexemes position, none⟩ := by
  have hscan : Token.scanFrom names position (w.chars ++ []) = _ :=
    scanFrom_chars h names position (by simp)
  rw [List.append_nil, Token.scanFrom, Scan.behind, List.append_nil] at hscan
  exact hscan

end Writing

end MavenPom.Markup
