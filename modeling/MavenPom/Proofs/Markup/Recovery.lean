import MavenPom.Proofs.Markup.Spelling
import MavenPom.Proofs.Markup.Writing

/-!
# Documents as writings

Every document that is accepted by both readers is a legible writing: its tags pair up, and all
that its tokens leave out of their spelling is the white space in end tags.
-/

namespace MavenPom.Markup

namespace Token

/-- The characters are legible writings with the end tags of the elements `names` between them. -/
def Spells : List String → List Char → Prop
  | [], cs => ∃ w : Writing, w.Legible ∧ cs = w.chars
  | name :: names, cs =>
    ∃ (w : Writing) (gap rest : List Char), w.Legible ∧ (∀ c ∈ gap, isSpace c = true) ∧
      cs = w.chars ++ (endTagChars name gap ++ rest) ∧ Spells names rest

namespace Spells

variable {names : List String} {cs : List Char}

/-- What is spelled in front of a writing becomes a part of it. -/
theorem extend {front : List Char} (h : Spells names cs)
    (hfront : ∀ (w : Writing) (tail : List Char), w.Legible → cs = w.chars ++ tail →
      ∃ w' : Writing, w'.Legible ∧ front ++ w.chars = w'.chars) : Spells names (front ++ cs) := by
  cases names with
  | nil =>
    obtain ⟨w, hw, rfl⟩ := h
    obtain ⟨w', hw', heq⟩ := hfront w [] hw (by simp)
    exact ⟨w', hw', heq⟩
  | cons name names =>
    obtain ⟨w, gap, rest, hw, hgap, hcs, hrest⟩ := h
    obtain ⟨w', hw', heq⟩ := hfront w _ hw hcs
    refine ⟨w', gap, rest, hw', hgap, ?_, hrest⟩
    rw [hcs, ← List.append_assoc, heq]

theorem leaf {token : Token} (hleaf : token.isLeaf = true) (htoken : token.Legible)
    (htext : token.isText = true → ∀ c ∈ cs.head?, c = '<') (h : Spells names cs) :
    Spells names (token.spelling ++ cs) := by
  refine h.extend fun w tail hw hcs => ⟨.leaf token w, ⟨hleaf, htoken, fun h => ?_, hw⟩, rfl⟩
  -- A text here would go on with what does not open with a bracket.
  cases hstarts : w.startsText with
  | false => rfl
  | true =>
    cases w with
    | leaf next rest =>
      obtain ⟨-, hnext, -, -⟩ := hw
      cases next with
      | text raw =>
        obtain ⟨hne, hopen⟩ := hnext
        obtain ⟨c, more, hraw⟩ := List.exists_cons_of_ne_nil hne
        have hhead : cs.head? = some c := by
          rw [hcs, Writing.chars]
          show ((raw.toList ++ rest.chars) ++ tail).head? = some c
          rw [hraw]
          rfl
        exact absurd (hraw ▸ htext h c hhead ▸ List.mem_cons_self ..) hopen
      | _ => cases hstarts
    | _ => cases hstarts

theorem empty {tag : Tag} (htag : tag.Legible) (h : Spells names cs) :
    Spells names ((Token.emptyTag tag).spelling ++ cs) :=
  h.extend fun w _ hw _ => ⟨.empty tag w, ⟨htag, hw⟩, rfl⟩

theorem pair {tag : Tag} (htag : tag.Legible) (h : Spells (tag.name :: names) cs) :
    Spells names ((Token.startTag tag).spelling ++ cs) := by
  obtain ⟨inside, gap, rest, hinside, hgap, rfl, hrest⟩ := h
  have hspells := hrest.extend fun w _ hw _ =>
      ⟨.pair tag inside gap w, ⟨htag, hinside, hgap, hw⟩, rfl⟩
  simpa only [List.append_assoc] using hspells

end Spells

/-- The names of the open elements after tokens. -/
def openAfterAll (names : List String) (lexemes : List Lexeme) : List String :=
  lexemes.foldl (fun names l => openAfter names l.token) names

theorem spells_of_scanFrom {names : List String} {position : ℕ} {cs : List Char}
    (hfault : (scanFrom names position cs).fault = none)
    (hlegible : ∀ l ∈ (scanFrom names position cs).lexemes, l.token.Legible)
    (hclosed : openAfterAll names (scanFrom names position cs).lexemes = []) :
    Spells names cs := by
  induction hn : cs.length using Nat.strongRecOn generalizing names position cs with
  | ind n ih =>
    cases cs with
    | nil =>
      rw [scanFrom] at hclosed
      obtain rfl : names = [] := hclosed
      exact ⟨.nil, trivial, rfl⟩
    | cons c cs =>
      rw [scanFrom] at hfault hlegible hclosed
      split at hfault
      · cases hfault
      · next token m hnext =>
        rw [hnext] at hlegible hclosed
        obtain ⟨htoken, hlegible⟩ := List.forall_mem_cons.mp hlegible
        have hshort : (cs.drop m).length < n := by
          rw [← hn, List.length_drop, List.length_cons]
          omega
        have hrest := ih _ hshort hfault hlegible hclosed rfl
        have hsplit : c :: cs = c :: cs.take m ++ cs.drop m := by
          rw [List.cons_append, List.take_append_drop]
        rw [hsplit]
        cases hend : token.isEnd with
        | true =>
          obtain ⟨name, rfl⟩ : ∃ name, token = .endTag name := by
            cases token with
            | endTag name => exact ⟨name, rfl⟩
            | _ => cases hend
          obtain ⟨hopen, gap, hgap, hspelling⟩ := exists_gap_of_next hnext
          obtain ⟨names, rfl⟩ : ∃ rest, names = name :: rest := by
            cases names with
            | nil => cases hopen
            | cons first rest => exact ⟨rest, by rw [Option.some.inj hopen]⟩
          rw [hspelling]
          exact ⟨.nil, gap, _, trivial, hgap, rfl, hrest⟩
        | false =>
          rw [eq_spelling_of_next hnext htoken hend]
          cases hleaf : token.isLeaf with
          | true =>
            rw [openAfter_of_isLeaf hleaf] at hrest
            refine Spells.leaf hleaf htoken (fun htext => ?_) hrest
            cases token with
            | text raw => exact head?_drop_of_next hnext
            | _ => cases htext
          | false =>
            cases token with
            | startTag tag => exact Spells.pair htoken hrest
            | emptyTag tag => exact Spells.empty htoken hrest
            | endTag name => cases hend
            | _ => cases hleaf

end Token

namespace Tree

/-- As many nodes are open in a draft as there are open elements to the reader. -/
theorem length_opened_of_take {d d' : Draft} {l : Lexeme} (h : d.take l = .ok d')
    {names : List String} (hnames : names.length = d.opened.length) :
    (Token.openAfter names l.token).length = d'.opened.length := by
  obtain ⟨token, start, stop⟩ := l
  cases token with
  | startTag tag =>
    obtain ⟨e, -, rfl⟩ := Draft.exists_of_take_startTag h
    simp [Token.openAfter, hnames]
  | emptyTag tag =>
    obtain ⟨e, -, rfl⟩ := Draft.exists_of_take_emptyTag h
    exact hnames
  | endTag name =>
    cases h
    simp [Token.openAfter, hnames]
  | _ =>
    cases h
    exact hnames

theorem length_opened_of_foldlM {d d' : Draft} {lexemes : List Lexeme}
    (h : lexemes.foldlM Draft.take d = .ok d') (names : List String)
    (hnames : names.length = d.opened.length) :
    (Token.openAfterAll names lexemes).length = d'.opened.length := by
  induction lexemes generalizing d names with
  | nil =>
    cases h
    exact hnames
  | cons l lexemes ih =>
    obtain ⟨next, htake, hrest⟩ := Draft.exists_of_foldlM_cons h
    exact ih hrest _ (length_opened_of_take htake hnames)

/-- The characters of a document that both readers accept are a legible writing, but for a byte
    order mark at their head, and the document's tokens are those of the writing. -/
theorem exists_writing_of_parseChars {cs : List Char} {t : Tree}
    (h : parse (String.ofList cs) = .ok t) {node : Strict.Node}
    (hstrict : Strict.parseChars? cs = some node) :
    ∃ w : Writing, w.Legible ∧ (Text.strip? ['\uFEFF'] cs).getD cs = w.chars ∧
      (w.lexemes 0).foldlM Draft.take ⟨empty, []⟩ = .ok ⟨t, []⟩ := by
  obtain ⟨hfault, hdraft, -⟩ := foldlM_of_parse h
  obtain ⟨hlegible, -⟩ := Strict.legible_of_parseChars? hstrict
  rw [Token.scan_ofList, Token.scanChars_eq] at hfault hdraft
  have hclosed := length_opened_of_foldlM hdraft [] rfl
  obtain ⟨w, hw, heq⟩ := Token.spells_of_scanFrom hfault (hlegible _ _)
    (List.length_eq_zero_iff.mp hclosed)
  refine ⟨w, hw, heq, ?_⟩
  rw [heq, Writing.scanFrom_self hw] at hdraft
  exact hdraft

/-- A document that both readers accept and that does not begin with a byte order mark is a legible
    writing, and its tokens are those of the writing. -/
theorem exists_writing_of_parse {text : String} {t : Tree} (h : parse text = .ok t)
    {node : Strict.Node} (hstrict : Strict.parse? text = some node)
    (hmark : text.toList.head? ≠ some '\uFEFF') :
    ∃ w : Writing, w.Legible ∧ text = String.ofList w.chars ∧
      (w.lexemes 0).foldlM Draft.take ⟨empty, []⟩ = .ok ⟨t, []⟩ := by
  obtain ⟨cs, rfl⟩ : ∃ cs, text = String.ofList cs := ⟨text.toList, by simp⟩
  rw [String.toList_ofList] at hmark
  rw [Strict.parse?_ofList] at hstrict
  have hstrip : Text.strip? ['\uFEFF'] cs = none := by
    cases hsome : Text.strip? ['\uFEFF'] cs with
    | none => rfl
    | some rest =>
      rw [Text.strip?_eq_some_iff.mp hsome] at hmark
      exact absurd rfl hmark
  obtain ⟨w, hw, heq, hdraft⟩ := exists_writing_of_parseChars h hstrict
  rw [hstrip, Option.getD_none] at heq
  exact ⟨w, hw, congrArg _ heq, hdraft⟩

end Tree

end MavenPom.Markup
