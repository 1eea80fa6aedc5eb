import MavenPom.Proofs.Markup.Respelling
import MavenPom.Proofs.Text.Trim

/-!
# Layouts of writings

What is captured of a writing, and what putting it back into another one gives: the other one with
its elements without content respelled, if it has the same beginning and the same text at its end.
-/

namespace MavenPom

namespace Text

/-- The final run of blanks. -/
def blankEnd (cs : List Char) : List Char := (cs.reverse.takeWhile isBlank).reverse

theorem dropEndWhile_append_blankEnd (cs : List Char) :
    dropEndWhile isBlank cs ++ blankEnd cs = cs := by
  rw [dropEndWhile, blankEnd, ← List.reverse_append, List.takeWhile_append_dropWhile,
    List.reverse_reverse]

theorem blankEnd_append {front : List Char} (h : ∀ c ∈ front.getLast?, isBlank c = false)
    (cs : List Char) : blankEnd (front ++ cs) = blankEnd cs := by
  have hfront : front.reverse.takeWhile isBlank = [] := by
    cases hreverse : front.reverse with
    | nil => rfl
    | cons c more =>
      have hc := h c (by rw [List.getLast?_eq_head?_reverse, hreverse]; rfl)
      rw [List.takeWhile_cons_of_neg (by simp [hc])]
  rw [blankEnd, blankEnd, List.reverse_append, List.takeWhile_append, hfront, List.append_nil]
  split
  · next hall => rw [List.Sublist.eq_of_length (List.takeWhile_sublist _) hall]
  · rfl

end Text

namespace Markup

open EmptyElement (Frame attributesOf)

namespace Token

def isEmptyTag : Token → Bool
  | .emptyTag _ => true
  | _ => false

/-- A token that opens an element. -/
def opens : Token → Bool
  | .startTag _ => true
  | .emptyTag _ => true
  | _ => false

theorem getLast?_spelling {token : Token} (h : token.Legible) (htext : token.isText = false) :
    token.spelling.getLast? = some '>' := by
  cases token with
  | text raw => cases htext
  | doctype content => exact h.elim
  | _ => simp [spelling, Tree.leafText, List.getLast?_append, List.getLast?_cons]

theorem endsWithEmptyTagChars_spelling {token : Token} (h : token.Legible)
    (hopens : token.opens = true) (front : List Char) :
    endsWithEmptyTagChars (front ++ token.spelling) = token.isEmptyTag := by
  cases token with
  | startTag tag =>
    have hlast := Tag.Legible.last_ne h
    have hreverse : (front ++ (Token.startTag tag).spelling).reverse =
        '>' :: (tag.inside.reverse ++ '<' :: front.reverse) := by
      simp [spelling]
    rw [endsWithEmptyTagChars, hreverse]
    rw [List.getLast?_eq_head?_reverse] at hlast
    obtain ⟨c, more, hinside⟩ : ∃ c more, tag.inside.reverse = c :: more := by
      refine List.exists_cons_of_ne_nil ?_
      have := Tag.Legible.name_ne h
      simp [Tag.inside, this]
    rw [hinside] at hlast ⊢
    have hc : ('/' == c) = false := by
      refine beq_eq_false_iff_ne.mpr fun heq => hlast ?_
      rw [heq]
      rfl
    show (('>' == '>') && (('/' == c) && _)) = false
    rw [hc]
    rfl
  | emptyTag tag =>
    have hreverse : (front ++ (Token.emptyTag tag).spelling).reverse =
        '>' :: '/' :: (tag.inside.reverse ++ '<' :: front.reverse) := by
      simp [spelling]
    rw [endsWithEmptyTagChars, hreverse]
    rfl
  | _ => cases hopens

end Token

namespace Writing

/-- What stands before the first tag. -/
def lead : Writing → List Char
  | .leaf token rest => token.spelling ++ rest.lead
  | _ => []

/-- The first tag. -/
def firstTag? : Writing → Option Token
  | .nil => none
  | .leaf _ rest => rest.firstTag?
  | .empty tag _ => some (.emptyTag tag)
  | .pair tag _ _ _ => some (.startTag tag)

/-- What stands behind the first tag. -/
def afterTag : Writing → List Char
  | .nil => []
  | .leaf _ rest => rest.afterTag
  | .empty _ rest => rest.chars
  | .pair tag inside gap rest => inside.chars ++ endTagChars tag.name gap ++ rest.chars

/-- The text that comes last, outside of all elements. -/
def trail : Writing → List Char
  | .nil => []
  | .leaf token rest =>
    if rest.isNil then if token.isText then token.spelling else [] else rest.trail
  | .empty _ rest => rest.trail
  | .pair _ _ _ rest => rest.trail

variable {w : Writing} {token : Token}

theorem opens_of_firstTag? (h : w.firstTag? = some token) : token.opens = true := by
  induction w with
  | nil => cases h
  | leaf _ rest ih => exact ih h
  | empty tag rest => cases h; rfl
  | pair tag inside gap rest => cases h; rfl

theorem legible_of_firstTag? (hw : w.Legible) (h : w.firstTag? = some token) : token.Legible := by
  induction w with
  | nil => cases h
  | leaf _ rest ih => exact ih hw.2.2.2 h
  | empty tag rest => cases h; exact hw.1
  | pair tag inside gap rest => cases h; exact hw.1

theorem chars_eq (h : w.firstTag? = some token) :
    w.chars = w.lead ++ token.spelling ++ w.afterTag := by
  induction w with
  | nil => cases h
  | leaf _ rest ih => simp [chars, lead, afterTag, ih h]
  | empty tag rest => cases h; rfl
  | pair tag inside gap rest => cases h; simp [chars, lead, afterTag]

/-- A writing begins with a byte order mark only if something stands before its first tag. -/
theorem head?_chars_ne (h : w.firstTag? = some token) (hlead : w.lead.head? ≠ some '\uFEFF') :
    w.chars.head? ≠ some '\uFEFF' := by
  have hopen : token.spelling.head? = some '<' := by
    have hopens := opens_of_firstTag? h
    cases token with
    | startTag tag => rfl
    | emptyTag tag => rfl
    | _ => cases hopens
  rw [chars_eq h]
  cases hfirst : w.lead with
  | nil => simp [hopen]
  | cons c more =>
    rw [hfirst] at hlead
    exact hlead

theorem head?_lead_ne (h : w.firstTag? = some token) (hmark : w.chars.head? ≠ some '\uFEFF') :
    w.lead.head? ≠ some '\uFEFF' := by
  rw [chars_eq h] at hmark
  cases hfirst : w.lead with
  | nil => simp
  | cons c more =>
    rw [hfirst] at hmark
    exact hmark

/-- The first tag is where the root element's tag is looked for. -/
theorem rootTagSpanIn_lexemes (hw : w.Legible) (h : w.firstTag? = some token) (position : ℕ)
    (fault : Option (ℕ × Fault)) : rootTagSpanIn ⟨w.lexemes position, fault⟩ =
      .ok (position + Utf8.size w.lead, position + Utf8.size (w.lead ++ token.spelling)) := by
  induction w generalizing position with
  | nil => cases h
  | leaf token' rest ih =>
    have hrest := ih hw.2.2.2 h (position + Utf8.size token'.spelling)
    have hskip : rootTagSpanIn ⟨(Writing.leaf token' rest).lexemes position, fault⟩ =
        rootTagSpanIn ⟨rest.lexemes (position + Utf8.size token'.spelling), fault⟩ := by
      have hleaf := hw.1
      rw [lexemes, rootTagSpanIn, rootTagSpanIn, List.find?_cons_of_neg]
      cases token' <;> simp_all [Token.isLeaf]
    rw [hskip, hrest, lead]
    simp only [Utf8.size_append, Nat.add_assoc]
  | empty tag rest =>
    cases h
    rfl
  | pair tag inside gap rest =>
    cases h
    rfl

/-- A writing ends with a tag or other markup, apart from its last text. -/
theorem exists_front_trail (hw : w.Legible) :
    ∃ front, w.chars = front ++ w.trail ∧ (∀ c ∈ front.getLast?, c = '>') ∧
      (front = [] → w.isNil = true ∨ w.startsText = true) := by
  have hextend : ∀ {markup front : List Char}, markup.getLast? = some '>' →
      (∀ c ∈ front.getLast?, c = '>') → ∀ c ∈ (markup ++ front).getLast?, c = '>' := by
    intro markup front hmarkup hfront c hc
    rw [List.getLast?_append, hmarkup] at hc
    cases hlast : front.getLast? with
    | none =>
      rw [hlast] at hc
      exact (Option.some.inj hc).symm
    | some d =>
      rw [hlast] at hc
      exact hfront c (hlast ▸ hc)
  induction w with
  | nil => exact ⟨[], rfl, by simp, fun _ => .inl rfl⟩
  | leaf token rest ih =>
    obtain ⟨-, htoken, hnext, hrest⟩ := hw
    obtain ⟨front, hchars, hfront, hempty⟩ := ih hrest
    cases htext : token.isText with
    | true =>
      cases hnil : rest.isNil with
      | true =>
        obtain rfl := eq_nil_of_isNil hnil
        exact ⟨[], by simp [chars, trail, htext, isNil], by simp, fun _ => .inr htext⟩
      | false =>
        refine ⟨token.spelling ++ front, by simp [chars, trail, hchars, hnil], ?_,
          fun _ => .inr htext⟩
        obtain ⟨d, hd⟩ : ∃ d, front.getLast? = some d := by
          refine Option.isSome_iff_exists.mp (List.getLast?_isSome.mpr fun heq => ?_)
          rcases hempty heq with h | h
          · rw [hnil] at h
            cases h
          · rw [hnext htext] at h
            cases h
        intro c hc
        rw [List.getLast?_append, hd] at hc
        exact hfront c (hd ▸ hc)
    | false =>
      have hlast := Token.getLast?_spelling htoken htext
      refine ⟨token.spelling ++ front, ?_, hextend hlast hfront, fun heq => ?_⟩
      · cases hnil : rest.isNil with
        | true =>
          obtain rfl := eq_nil_of_isNil hnil
          obtain rfl : front = [] := by
            have hnone : ([] : List Char) = front ++ trail .nil := hchars
            simpa using (List.append_eq_nil_iff.mp hnone.symm).1
          simp [chars, trail, htext, isNil]
        | false => simp [chars, trail, hchars, hnil]
      · rw [(List.append_eq_nil_iff.mp heq).1] at hlast
        cases hlast
  | empty tag rest ih =>
    obtain ⟨front, hchars, hfront, -⟩ := ih hw.2
    exact ⟨(Token.emptyTag tag).spelling ++ front, by simp [chars, trail, hchars],
      hextend (Token.getLast?_spelling hw.1 rfl) hfront,
      by simp [Token.spelling]⟩
  | pair tag inside gap rest _ ih =>
    obtain ⟨front, hchars, hfront, -⟩ := ih hw.2.2.2
    refine ⟨(Token.startTag tag).spelling ++ inside.chars ++ endTagChars tag.name gap ++ front,
      by simp [chars, trail, hchars], hextend ?_ hfront, by simp [Token.spelling]⟩
    simp [endTagChars, List.getLast?_append, List.getLast?_cons]

/-- What stands behind the first tag ends with a tag or other markup, apart from the last text. -/
theorem exists_front_afterTag (hw : w.Legible) (h : w.firstTag? = some token) :
    ∃ front, w.afterTag = front ++ w.trail ∧ ∀ c ∈ front.getLast?, c = '>' := by
  induction w with
  | nil => cases h
  | leaf _ rest ih =>
    have hnil : rest.isNil = false := by
      cases rest with
      | nil => cases h
      | _ => rfl
    rw [afterTag, trail, if_neg (by simp [hnil])]
    exact ih hw.2.2.2 h
  | empty tag rest =>
    obtain ⟨front, hchars, hfront, -⟩ := exists_front_trail hw.2
    exact ⟨front, hchars, hfront⟩
  | pair tag inside gap rest =>
    obtain ⟨front, hchars, hfront, -⟩ := exists_front_trail hw.2.2.2
    refine ⟨inside.chars ++ endTagChars tag.name gap ++ front, by simp [afterTag, trail, hchars],
      fun c hc => ?_⟩
    rw [List.getLast?_append] at hc
    rcases Option.or_eq_some_iff.mp hc with hc | ⟨-, hc⟩
    · exact hfront c hc
    · simpa [endTagChars, List.getLast?_append, List.getLast?_cons, eq_comm] using hc

theorem isBlank_close : Text.isBlank '>' = false := by decide

theorem blankEnd_chars (hw : w.Legible) : Text.blankEnd w.chars = Text.blankEnd w.trail := by
  obtain ⟨front, hchars, hfront, -⟩ := exists_front_trail hw
  rw [hchars, Text.blankEnd_append fun c hc => hfront c hc ▸ isBlank_close]

/-- Behind the first tag, or from it on, only blanks of the last text are cut off. -/
theorem dropEndWhile_afterTag (hw : w.Legible) (h : w.firstTag? = some token) (front : List Char)
    (hfront : ∀ c ∈ front.getLast?, c = '>') :
    Text.dropEndWhile Text.isBlank (front ++ w.afterTag) ++ Text.blankEnd w.trail =
      front ++ w.afterTag := by
  obtain ⟨middle, hafter, hmiddle⟩ := exists_front_afterTag hw h
  have hend : Text.blankEnd (front ++ w.afterTag) = Text.blankEnd w.trail := by
    rw [hafter, ← List.append_assoc, Text.blankEnd_append fun c hc => ?_]
    rw [List.getLast?_append] at hc
    rcases Option.or_eq_some_iff.mp hc with hc | ⟨-, hc⟩
    · exact hmiddle c hc ▸ isBlank_close
    · exact hfront c hc ▸ isBlank_close
  rw [← hend, Text.dropEndWhile_append_blankEnd]

end Writing

/-! ## Capturing and restoring -/

namespace Layout

open Writing

/-- What is captured of a writing. -/
structure Of (l : Layout) (w : Writing) (token : Token) : Prop where
  preamble : l.preamble.toList = w.lead ++ token.spelling
  rootStart : l.rootStart = Utf8.size w.lead
  rootIsEmptyTag : l.rootIsEmptyTag = token.isEmptyTag
  suffix : l.suffix.toList = Text.blankEnd w.chars
  captures : l.Captures (w.spots ⟨"", []⟩ 0)

theorem exists_captureChars {w : Writing} (hw : w.Legible) {token : Token}
    (htag : w.firstTag? = some token) (hmark : w.chars.head? ≠ some '\uFEFF')
    (charset : Charset) : ∃ l : Layout, captureChars w.chars charset = .ok l ∧ l.Of w token := by
  have hspan : rootTagSpanIn (Token.scanChars w.chars) =
      .ok (Utf8.size w.lead, Utf8.size (w.lead ++ token.spelling)) := by
    rw [Token.scanChars_of_head?_ne hmark, scanFrom_self hw, rootTagSpanIn_lexemes hw htag]
    simp only [Nat.zero_add]
  have hpreamble : Utf8.take (Utf8.size (w.lead ++ token.spelling)) w.chars =
      w.lead ++ token.spelling := by
    rw [chars_eq htag, Utf8.take_size]
  refine ⟨_, by rw [captureChars, hspan]; rfl, ?_, rfl, ?_, ?_, ?_⟩
  · dsimp only
    rw [hpreamble, String.toList_ofList]
  · dsimp only
    rw [hpreamble, Token.endsWithEmptyTagChars_spelling (legible_of_firstTag? hw htag)
      (opens_of_firstTag? htag)]
  · rw [String.toList_ofList, Text.blankEnd]
  · rw [Captures, findChars_eq hw hmark, List.map_map]
    refine List.map_congr_left fun s hs => ?_
    have hcut := take_drop_of_mem_spots [] hs []
    rw [List.nil_append, List.append_nil] at hcut
    simp only [Function.comp_apply, hcut]

/-- A layout is put back into a writing by respelling it, if the respelled writing begins and ends
    like the one that the layout was captured of. -/
theorem restoreChars_eq {l : Layout} {w m r : Writing} {token token₁ token₂ : Token}
    (hl : l.Of w token) (hw : w.Legible) (hm : m.Legible) (hr : r.Legible)
    (hrespell : m.respell (w.spots ⟨"", []⟩ 0) ⟨"", []⟩ = r)
    (hmtag : m.firstTag? = some token₁) (hrtag : r.firstTag? = some token₂)
    (hsame : token₂.isEmptyTag = token.isEmptyTag → token₂ = token)
    (hmlead : m.lead = w.lead) (hrlead : r.lead = w.lead) (htrail : r.trail = w.trail)
    (hmark : w.lead.head? ≠ some '\uFEFF') : l.restoreChars m.chars = .ok r.chars := by
  have hmmark := head?_chars_ne hmtag (by rwa [hmlead])
  have hrmark := head?_chars_ne hrtag (by rwa [hrlead])
  have hspan : rootTagSpanIn (Token.scanChars r.chars) =
      .ok (Utf8.size r.lead, Utf8.size (r.lead ++ token₂.spelling)) := by
    rw [Token.scanChars_of_head?_ne hrmark, scanFrom_self hr, rootTagSpanIn_lexemes hr hrtag]
    simp only [Nat.zero_add]
  have hlegible := legible_of_firstTag? hr hrtag
  have hends := Token.endsWithEmptyTagChars_spelling hlegible (opens_of_firstTag? hrtag) r.lead
  have hsuffix : l.suffix.toList = Text.blankEnd r.trail := by
    rw [hl.suffix, blankEnd_chars hw, htrail]
  have hchars := chars_eq hrtag
  have htake : Utf8.take (Utf8.size (r.lead ++ token₂.spelling)) r.chars =
      r.lead ++ token₂.spelling := by rw [hchars, Utf8.take_size]
  have hdrop : Utf8.drop (Utf8.size (r.lead ++ token₂.spelling)) r.chars = r.afterTag := by
    rw [hchars, Utf8.drop_size]
  have hdrop' : Utf8.drop (Utf8.size r.lead) r.chars = token₂.spelling ++ r.afterTag := by
    rw [hchars, List.append_assoc, Utf8.drop_size]
  rw [restoreChars, findChars_eq hm hmmark, respellChars_eq hl.captures, hrespell]
  simp only [hspan, Except.map, htake, hends, hdrop, hdrop', hl.rootIsEmptyTag, hl.preamble,
    hl.rootStart, hsuffix, Utf8.take_size]
  split
  · next hempty =>
    have hafter := dropEndWhile_afterTag hr hrtag [] (by simp)
    rw [List.nil_append] at hafter
    rw [List.append_assoc, hafter, hchars, hrlead, hsame hempty]
  · have hlast : ∀ c ∈ token₂.spelling.getLast?, c = '>' := by
      have htext : token₂.isText = false := by
        have hopens := opens_of_firstTag? hrtag
        cases token₂ with
        | text raw => cases hopens
        | _ => rfl
      intro c hc
      rw [Token.getLast?_spelling hlegible htext] at hc
      exact (Option.some.inj hc).symm
    rw [List.append_assoc, dropEndWhile_afterTag hr hrtag _ hlast, hchars, hrlead,
      List.append_assoc]

end Layout

end Markup

end MavenPom
