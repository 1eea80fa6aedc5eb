import MavenPom.Proofs.Markup.Spelling
import MavenPom.Proofs.Markup.Token
import MavenPom.Proofs.Text.Encoding

/-!
# Reading up to the root element

The reader passes over legible markup and texts without meeting a tag, and reads a legible tag as
one. An element with content is not found among the empty ones, and respelling those leaves alone
what stands before them.
-/

namespace MavenPom.Markup

/-! ## Where markup stands -/

/-- The byte offsets that a lexeme spans. -/
def Lexeme.span (l : Lexeme) : ℕ × ℕ := (l.start, l.stop)

/-- The byte offsets that an empty element spans. -/
def EmptyElement.span (e : EmptyElement) : ℕ × ℕ := (e.start, e.stop)

/-- Spans that follow one another from an offset on and end at offsets of a kind. -/
inductive Consecutive (P : ℕ → Prop) : ℕ → List (ℕ × ℕ) → Prop
  | nil {k} : Consecutive P k []
  | cons {k start stop rest} : k ≤ start → P start → start ≤ stop → P stop →
      Consecutive P stop rest → Consecutive P k ((start, stop) :: rest)

section Consecutive

variable {P : ℕ → Prop} {k : ℕ} {spans : List (ℕ × ℕ)}

theorem consecutive_cons_iff {s : ℕ × ℕ} : Consecutive P k (s :: spans) ↔
    k ≤ s.1 ∧ P s.1 ∧ s.1 ≤ s.2 ∧ P s.2 ∧ Consecutive P s.2 spans := by
  constructor
  · rintro (_ | ⟨hk, hstart, hle, hstop, hrest⟩)
    exact ⟨hk, hstart, hle, hstop, hrest⟩
  · rintro ⟨hk, hstart, hle, hstop, hrest⟩
    exact .cons hk hstart hle hstop hrest

theorem Consecutive.of_mem (h : Consecutive P k spans) :
    ∀ s ∈ spans, k ≤ s.1 ∧ P s.1 ∧ s.1 ≤ s.2 ∧ P s.2 := by
  induction h with
  | nil => simp
  | cons hk hstart hle hstop _ ih =>
    refine List.forall_mem_cons.mpr ⟨⟨hk, hstart, hle, hstop⟩, fun s hs => ?_⟩
    obtain ⟨hfrom, hrest⟩ := ih s hs
    exact ⟨hk.trans (hle.trans hfrom), hrest⟩

end Consecutive

/-! ## Reading up to the root element -/

namespace Token

/-- Whatever opens with a bracket after `cs`, and whatever text stands before it, the reader passes
    over `cs` without meeting a tag. -/
def Passed (cs : List Char) : Prop :=
  ∀ front rest position, '<' ∉ front → rest.head? = some '<' →
    ∃ leaves : List Lexeme, (∀ l ∈ leaves, l.token.isLeaf = true) ∧
      (scanFrom [] position (front ++ cs ++ rest)).lexemes =
        leaves ++ (scanFrom [] (position + Utf8.size (front ++ cs)) rest).lexemes

theorem passed_nil : Passed [] := by
  intro front rest position hfront hrest
  rw [List.append_nil]
  cases front with
  | nil => exact ⟨[], by simp, by simp [Utf8.size]⟩
  | cons c front =>
    obtain ⟨hc, hfront⟩ := not_or.mp fun h => hfront (List.mem_cons.mpr h)
    have hall : ∀ x ∈ front, (x != '<') = true := by
      intro x hx
      refine bne_iff_ne.mpr ?_
      rintro rfl
      exact hfront hx
    have hstop : rest.takeWhile (· != '<') = [] := by
      cases rest with
      | nil => rfl
      | cons d rest =>
        obtain rfl := Option.some.inj hrest
        rfl
    have htext : (front ++ rest).takeWhile (· != '<') = front := by
      rw [List.takeWhile_append_of_pos hall, hstop, List.append_nil]
    have hnext : next none c (front ++ rest) =
        .ok (.text (String.ofList (c :: front)), front.length) := by
      unfold next
      rw [if_neg (Ne.symm hc), htext]
    refine ⟨[⟨.text (String.ofList (c :: front)), position, position + Utf8.size (c :: front)⟩],
      by simp [isLeaf], ?_⟩
    rw [List.cons_append, scanFrom, List.head?_nil, hnext]
    simp only [List.take_left, List.drop_left, openAfter]
    rfl

theorem Passed.text {cs raw : List Char} (h : Passed cs) (hraw : '<' ∉ raw) :
    Passed (raw ++ cs) := by
  intro front rest position hfront hrest
  rw [← List.append_assoc]
  refine h (front ++ raw) rest position ?_ hrest
  rw [List.mem_append, not_or]
  exact ⟨hfront, hraw⟩

/-- What is read as one leaf, whatever follows it, is passed over. -/
theorem Passed.leaf {cs markup : List Char} (h : Passed cs) (token : Token)
    (hleaf : token.isLeaf = true)
    (hnext : ∀ rest, next none '<' (markup ++ rest) = .ok (token, markup.length)) :
    Passed ('<' :: markup ++ cs) := by
  intro front rest position hfront hrest
  obtain ⟨before, hbefore, hscan⟩ := passed_nil front ('<' :: markup ++ cs ++ rest) position hfront
    rfl
  rw [List.append_nil] at hscan
  have hopen := openAfter_of_isLeaf hleaf []
  obtain ⟨leaves, hleaves, hrest⟩ := h [] rest
    (position + Utf8.size front + Utf8.size ('<' :: markup)) (by simp) hrest
  rw [List.nil_append] at hrest
  refine ⟨before ++ ⟨token, position + Utf8.size front,
    position + Utf8.size front + Utf8.size ('<' :: markup)⟩ :: leaves, ?_, ?_⟩
  · intro l hl
    rcases List.mem_append.mp hl with hl | hl
    · exact hbefore l hl
    · rcases List.mem_cons.mp hl with rfl | hl
      · exact hleaf
      · exact hleaves l hl
  · have hstep : (scanFrom [] (position + Utf8.size front) ('<' :: markup ++ cs ++ rest)).lexemes =
        ⟨token, position + Utf8.size front,
          position + Utf8.size front + Utf8.size ('<' :: markup)⟩ ::
          (scanFrom [] (position + Utf8.size front + Utf8.size ('<' :: markup))
            (cs ++ rest)).lexemes := by
      rw [List.cons_append, List.cons_append, scanFrom, List.head?_nil, List.append_assoc, hnext]
      simp only [List.take_left, List.drop_left, hopen]
    rw [List.append_assoc, hscan, hstep, hrest, List.append_assoc, Utf8.size_append,
      Utf8.size_append]
    simp only [List.cons_append, Nat.add_assoc]

theorem passed_spelling (token : Token) (h : token.Legible) (hleaf : token.isLeaf = true)
    {cs : List Char} (hcs : Passed cs) : Passed (token.spelling ++ cs) := by
  cases htext : token.isText with
  | true =>
    cases token with
    | text raw => exact hcs.text h.2
    | _ => cases htext
  | false =>
    have hspelling := eq_cons_spelling htext
    rw [hspelling]
    refine hcs.leaf token hleaf fun rest => ?_
    obtain ⟨c, cs, heq, hnext⟩ := next_spelling h
      (isEnd_of_isLeaf hleaf)
      (fun h => by rw [htext] at h; cases h)
    rw [hspelling] at heq
    obtain ⟨rfl, rfl⟩ := List.cons.inj heq
    exact hnext

theorem passed_leafText {c : Content} (h : c.Legible) (hc : ∀ e, c ≠ .element e) {cs : List Char}
    (hcs : Passed cs) : Passed ((Tree.leafText c).toList ++ cs) := by
  cases c with
  | document => exact h.elim
  | element e => exact absurd rfl (hc e)
  | text raw => exact passed_spelling (.text raw) h rfl hcs
  | cdata content => exact passed_spelling (.cdata content) h rfl hcs
  | comment content => exact passed_spelling (.comment content) h rfl hcs
  | declaration content => exact passed_spelling (.declaration content) h rfl hcs
  | instruction content => exact passed_spelling (.instruction content) h rfl hcs
  | doctype content => exact h.elim

/-- Tokens read behind `front` follow one another between the characters of the text. -/
theorem consecutive_scanFrom {names : List String} (front cs : List Char) :
    Consecutive (fun n => Utf8.isBoundary n (front ++ cs) = true) (Utf8.size front)
      ((scanFrom names (Utf8.size front) cs).lexemes.map (·.span)) := by
  induction hn : cs.length using Nat.strongRecOn generalizing names front cs with
  | ind n ih =>
    cases cs with
    | nil =>
      rw [scanFrom]
      exact .nil
    | cons c cs =>
      rw [scanFrom]
      split
      · exact .nil
      · next token m _ =>
        have hshort : (cs.drop m).length < n := by
          rw [← hn, List.length_drop, List.length_cons]
          omega
        have htext : front ++ c :: cs = (front ++ c :: cs.take m) ++ cs.drop m := by
          rw [List.append_assoc, List.cons_append, List.take_append_drop]
        have hrest := @ih _ hshort (openAfter names token) (front ++ c :: cs.take m)
          (cs.drop m) rfl
        rw [Utf8.size_append, ← htext] at hrest
        refine .cons (Nat.le_refl _) (Utf8.isBoundary_size ..) (Nat.le_add_right ..) ?_ hrest
        rw [← Utf8.size_append, htext]
        exact Utf8.isBoundary_size ..

/-- Only what opens with `</` is read as an end tag first. -/
theorem head_ne_endTag {names : List String} {position : ℕ} {cs : List Char}
    (h : ∀ rest, cs ≠ '<' :: '/' :: rest) :
    ∀ l ∈ (scanFrom names position cs).lexemes.head?, ∀ name, l.token ≠ .endTag name := by
  intro l hl name hend
  cases cs with
  | nil =>
    rw [scanFrom] at hl
    cases hl
  | cons c cs =>
    rw [scanFrom] at hl
    split at hl
    · cases hl
    · next token n hnext =>
      cases hl
      rcases next_cases hnext with ⟨-, rfl⟩ | ⟨rest, _, rfl, rfl, -, -⟩ | ⟨-, -, hne⟩
      · cases hend
      · exact h rest rfl
      · exact hne name hend

end Token

/-! ## Empty elements -/

namespace EmptyElement

variable {w : Walk} {opened : Option EmptyElement} {lexemes : List Lexeme}

theorem among_leaves (leaves : List Lexeme) (h : ∀ l ∈ leaves, l.token.isLeaf = true) :
    among w none (leaves ++ lexemes) = among w none lexemes := by
  induction leaves with
  | nil => rfl
  | cons l leaves ih =>
    obtain ⟨hl, hleaves⟩ := List.forall_mem_cons.mp h
    rw [List.cons_append, among]
    cases htoken : l.token with
    | startTag tag => rw [htoken] at hl; cases hl
    | emptyTag tag => rw [htoken] at hl; cases hl
    | endTag name => rw [htoken] at hl; cases hl
    | _ => exact ih hleaves

/-- What is opened and not closed at once is not empty. -/
theorem among_of_head_ne_endTag (h : ∀ l ∈ lexemes.head?, ∀ name, l.token ≠ .endTag name) :
    among w opened lexemes = among w none lexemes := by
  cases lexemes with
  | nil => rfl
  | cons l lexemes =>
    rw [among, among]
    cases htoken : l.token with
    | endTag name => exact absurd htoken (h l rfl name)
    | _ => rfl

/-- Empty elements follow one another where the tokens do. The element whose start tag came last may
    still turn out to be empty, so that the next one is sought from its start on. -/
theorem consecutive_among {P : ℕ → Prop} {j k : ℕ}
    (hlexemes : Consecutive P k (lexemes.map (·.span))) (hjk : j ≤ k)
    (hopened : ∀ e ∈ opened, j ≤ e.start ∧ P e.start ∧ e.start ≤ k) :
    Consecutive P j ((among w opened lexemes).map (·.span)) := by
  induction lexemes generalizing w opened j k with
  | nil => exact .nil
  | cons l lexemes ih =>
    obtain ⟨hk, hstart, hle, hstop, hlexemes⟩ := consecutive_cons_iff.mp hlexemes
    have hnone : ∀ i, ∀ e ∈ (none : Option EmptyElement),
        i ≤ e.start ∧ P e.start ∧ e.start ≤ l.stop := by simp
    have hj : j ≤ l.stop := hjk.trans (hk.trans hle)
    rw [among]
    cases l.token with
    | startTag tag =>
      refine ih hlexemes hj fun e he => ?_
      cases he
      exact ⟨hjk.trans hk, hstart, hle⟩
    | emptyTag tag =>
      exact .cons (hjk.trans hk) hstart hle hstop (ih hlexemes (Nat.le_refl _) (hnone _))
    | endTag name =>
      cases opened with
      | none => exact ih hlexemes hj (hnone _)
      | some e =>
        obtain ⟨hje, he, hek⟩ := hopened e rfl
        exact .cons hje he (hek.trans (hk.trans hle)) hstop
          (ih hlexemes (Nat.le_refl _) (hnone _))
    | _ => exact ih hlexemes hj (hnone _)

theorem consecutive_among_none {P : ℕ → Prop} {k : ℕ}
    (h : Consecutive P k (lexemes.map (·.span))) :
    Consecutive P k ((among w none lexemes).map (·.span)) :=
  consecutive_among h (Nat.le_refl _) (by simp)

end EmptyElement

theorem Layout.respellChars_append {front : List Char} {elements : List EmptyElement}
    (h : ∀ e ∈ elements, Utf8.size front ≤ e.start) (l : Layout) (cs : List Char) :
    ∃ more, l.respellChars (front ++ cs) 0 elements = front ++ more := by
  induction elements with
  | nil => exact ⟨cs, Utf8.drop_zero _⟩
  | cons e elements ih =>
    obtain ⟨he, helements⟩ := List.forall_mem_cons.mp h
    rw [respellChars]
    cases l.spelling? e with
    | none => exact ih helements
    | some raw =>
      obtain ⟨m, hm⟩ := Utf8.take_append_of_le (n := e.start - 0) he cs
      refine ⟨Utf8.take m cs ++ raw.toList ++ l.respellChars (front ++ cs) e.stop elements, ?_⟩
      simp only [Utf8.drop_zero, hm, List.append_assoc]

end MavenPom.Markup
