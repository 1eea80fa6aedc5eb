import MavenPom.Proofs.Markup.TagSpelling
import MavenPom.Proofs.Markup.Tags
import Mathlib.Logic.Relation

/-!
# Noise

Changes of a document in nothing but its formatting: blank text and comments between other markup,
the spellings of empty elements, and the order, quotes and white space of attributes.
-/

namespace MavenPom.Markup

/-! ## Writings that are documents -/

/-- All references in the token have a meaning, if it is a text. -/
def Token.Resolves : Token → Prop
  | .text raw => (unescape raw).isSome = true
  | _ => True

namespace Writing

/-- Tags are well-formed, other markup is legible, and references have a meaning. A text may be
    written in pieces. -/
def WellFormed : Writing → Prop
  | .nil => True
  | .leaf token rest => token.isLeaf = true ∧ token.Rough ∧ token.Resolves ∧ rest.WellFormed
  | .empty tag rest => tag.WellFormed ∧ rest.WellFormed
  | .pair tag inside gap rest =>
    tag.WellFormed ∧ inside.WellFormed ∧ (∀ c ∈ gap, isSpace c = true) ∧ rest.WellFormed

variable {w : Writing}

theorem WellFormed.rough (h : w.WellFormed) : w.Rough := by
  induction w with
  | nil => trivial
  | leaf token rest ih => exact ⟨h.1, h.2.1, ih h.2.2.2⟩
  | empty tag rest ih => exact ⟨h.1.legible, ih h.2⟩
  | pair tag inside gap rest ihinside ihrest =>
    obtain ⟨htag, hinside, hgap, hrest⟩ := h
    exact ⟨htag.legible, ihinside hinside, hgap, ihrest hrest⟩

theorem WellFormed.resolves (h : w.WellFormed) : w.Resolves := by
  induction w with
  | nil => trivial
  | leaf token rest ih =>
    obtain ⟨-, -, htoken, hrest⟩ := h
    cases token with
    | text raw => exact ⟨htoken, ih hrest⟩
    | _ => exact ih hrest
  | empty tag rest ih => exact ih h.2
  | pair tag inside gap rest ihinside ihrest =>
    obtain ⟨-, hinside, -, hrest⟩ := h
    exact ⟨ihinside hinside, ihrest hrest⟩

theorem WellFormed.readable (h : w.WellFormed) : w.Tags (·.attributes?.isSome) := by
  induction w with
  | nil => trivial
  | leaf token rest ih => exact ih h.2.2.2
  | empty tag rest ih => exact ⟨h.1.isSome_attributes?, ih h.2⟩
  | pair tag inside gap rest ihinside ihrest =>
    obtain ⟨htag, hinside, -, hrest⟩ := h
    exact ⟨htag.isSome_attributes?, ihinside hinside, ihrest hrest⟩

end Writing

/-! ## Changes somewhere in a document -/

/-- `r` holds of a part of two writings that are the same elsewhere. The part is what follows some
    text in an element, which `r` is told, and `before` is the text in front of the writings. -/
inductive Within (r : String → Writing → Writing → Prop) : String → Writing → Writing → Prop where
  | here {before : String} {w w' : Writing} (h : r before w w') : Within r before w w'
  | leaf {before : String} {token : Token} {rest rest' : Writing}
      (h : Within r (before ++ token.ownText) rest rest') :
      Within r before (.leaf token rest) (.leaf token rest')
  | empty {before : String} {tag : Tag} {rest rest' : Writing} (h : Within r before rest rest') :
      Within r before (.empty tag rest) (.empty tag rest')
  | inside {before : String} {tag : Tag} {inside inside' rest : Writing} {gap : List Char}
      (h : Within r "" inside inside') :
      Within r before (.pair tag inside gap rest) (.pair tag inside' gap rest)
  | rest {before : String} {tag : Tag} {inside rest rest' : Writing} {gap : List Char}
      (h : Within r before rest rest') :
      Within r before (.pair tag inside gap rest) (.pair tag inside gap rest')

namespace Within

variable {r : String → Writing → Writing → Prop} {before : String} {w w' : Writing}

theorem wellFormed_iff (hr : ∀ {before w w'}, r before w w' → (w.WellFormed ↔ w'.WellFormed))
    (h : Within r before w w') : w.WellFormed ↔ w'.WellFormed := by
  induction h with
  | here h => exact hr h
  | leaf _ ih => exact and_congr_right fun _ => and_congr_right fun _ => and_congr_right fun _ => ih
  | empty _ ih => exact and_congr_right fun _ => ih
  | inside _ ih => exact and_congr_right fun _ => and_congr_left fun _ => ih
  | rest _ ih => exact and_congr_right fun _ => and_congr_right fun _ => and_congr_right fun _ => ih

/-- What changes nothing that counts in an element, neither in the elements in it nor in its trimmed
    text, changes nothing that counts around it. -/
theorem alike (hr : ∀ {before w w'}, r before w w' → w.outline.Alike w'.outline ∧
      Text.trim (before ++ w.text) = Text.trim (before ++ w'.text)) (h : Within r before w w') :
    w.outline.Alike w'.outline ∧ Text.trim (before ++ w.text) = Text.trim (before ++ w'.text) := by
  induction h with
  | here h => exact hr h
  | leaf _ ih =>
    refine ⟨ih.1, ?_⟩
    rw [Writing.text, Writing.text, ← String.append_assoc, ← String.append_assoc, ih.2]
  | empty _ ih => exact ⟨⟨rfl, rel_sameAttributes_refl _, rfl, trivial, ih.1⟩, ih.2⟩
  | inside _ ih =>
    refine ⟨⟨rfl, rel_sameAttributes_refl _, ?_, ih.1, .refl _⟩, rfl⟩
    simpa using ih.2
  | rest _ ih => exact ⟨⟨rfl, rel_sameAttributes_refl _, rfl, .refl _, ih.1⟩, ih.2⟩

end Within

/-! ## Changes of formatting -/

/-- The place is before or behind all of an element's text but blanks. -/
def AtEdge (before after : String) : Prop :=
  Text.isAllBlank before = true ∨ Text.isAllBlank after = true

/-- The text is blank, references and all. -/
structure IsBlank (raw : String) : Prop where
  rough : '<' ∉ raw.toList
  resolves : (unescape raw).isSome = true
  blank : Text.isAllBlank (Token.text raw).ownText = true

/-- One change of formatting at the head of what follows the text `before` in an element. Blank text
    may come where `allowed` holds of the text before and after it. -/
inductive Reformats (allowed : String → String → Prop) (before : String) :
    Writing → Writing → Prop where
  | blank {raw : String} {rest : Writing} (hraw : IsBlank raw)
    (hallowed : allowed before rest.text) :
      Reformats allowed before rest (.leaf (.text raw) rest)
  | comment {content : String} {rest : Writing} (h : (Token.comment content).Legible) :
      Reformats allowed before rest (.leaf (.comment content) rest)
  /-- Nothing changes in what is written, but now there is a place between the two texts. -/
  | pieces {raw more : String} {rest : Writing} (hraw : (unescape raw).isSome = true)
      (hmore : (unescape more).isSome = true) :
      Reformats allowed before (.leaf (.text (raw ++ more)) rest)
        (.leaf (.text raw) (.leaf (.text more) rest))
  | spread {tag : Tag} {gap : List Char} {rest : Writing} (hgap : ∀ c ∈ gap, isSpace c = true) :
      Reformats allowed before (.empty tag rest) (.pair tag .nil gap rest)
  | emptyTag {tag tag' : Tag} {rest : Writing} (h : tag.Respells tag') :
      Reformats allowed before (.empty tag rest) (.empty tag' rest)
  | startTag {tag tag' : Tag} {inside rest : Writing} {gap : List Char} (h : tag.Respells tag') :
      Reformats allowed before (.pair tag inside gap rest) (.pair tag' inside gap rest)

/-- Any number of changes of formatting, made or taken back. -/
def Noise (allowed : String → String → Prop) : Writing → Writing → Prop :=
  Relation.EqvGen (Within (Reformats allowed) "")

namespace Reformats

variable {allowed : String → String → Prop} {before : String} {w w' : Writing}

theorem rough_append_iff {raw more : String} :
    (Token.text (raw ++ more)).Rough ↔ (Token.text raw).Rough ∧ (Token.text more).Rough := by
  simp [Token.Rough, not_or]

/-- A change of formatting leaves a document well-formed. -/
theorem wellFormed_iff (h : Reformats allowed before w w') : w.WellFormed ↔ w'.WellFormed := by
  cases h with
  | blank hraw => exact ⟨fun h => ⟨rfl, hraw.rough, hraw.resolves, h⟩, fun h => h.2.2.2⟩
  | comment hcomment => exact ⟨fun h => ⟨rfl, hcomment, trivial, h⟩, fun h => h.2.2.2⟩
  | @pieces raw more rest hraw hmore =>
    obtain ⟨read, hread⟩ := Option.isSome_iff_exists.mp hraw
    have hboth : (Token.text (raw ++ more)).Resolves := by
      rw [Token.Resolves, unescape_append hread, Option.isSome_map]
      exact hmore
    constructor
    · rintro ⟨-, hrough, -, hrest⟩
      obtain ⟨hrough, hrough'⟩ := rough_append_iff.mp hrough
      exact ⟨rfl, hrough, hraw, rfl, hrough', hmore, hrest⟩
    · rintro ⟨-, hrough, -, -, hrough', -, hrest⟩
      exact ⟨rfl, rough_append_iff.mpr ⟨hrough, hrough'⟩, hboth, hrest⟩
  | spread hgap =>
    exact ⟨fun ⟨htag, hrest⟩ => ⟨htag, trivial, hgap, hrest⟩,
      fun ⟨htag, _, _, hrest⟩ => ⟨htag, hrest⟩⟩
  | emptyTag h => exact and_congr_left fun _ => h.wellFormed_iff
  | startTag h => exact and_congr_left fun _ => h.wellFormed_iff

/-- A change of formatting changes nothing that counts, if blank text is at an edge
    of its element. -/
theorem alike (h : Reformats AtEdge before w w') : w.outline.Alike w'.outline ∧
    Text.trim (before ++ w.text) = Text.trim (before ++ w'.text) := by
  cases h with
  | blank hraw hedge => exact ⟨.refl _, (Text.trim_insert_blank hraw.blank hedge).symm⟩
  | comment => exact ⟨.refl _, by simp [Writing.text, Token.ownText]⟩
  | pieces hraw hmore =>
    refine ⟨.refl _, ?_⟩
    simp only [Writing.text, Token.ownText, ownText_append_of_isSome hraw hmore,
      String.append_assoc]
  | spread => exact ⟨.refl _, rfl⟩
  | emptyTag h => exact ⟨⟨h.1.symm, h.sameAttributes, rfl, trivial, .refl _⟩, rfl⟩
  | startTag h => exact ⟨⟨h.1.symm, h.sameAttributes, rfl, .refl _, .refl _⟩, rfl⟩

end Reformats

namespace Noise

variable {allowed : String → String → Prop} {w w' : Writing}

theorem wellFormed_iff (h : Noise allowed w w') : w.WellFormed ↔ w'.WellFormed := by
  induction h with
  | rel w w' h => exact h.wellFormed_iff Reformats.wellFormed_iff
  | refl w => exact Iff.rfl
  | symm w w' _ ih => exact ih.symm
  | trans w w' w'' _ _ ih ih' => exact ih.trans ih'

theorem alike (h : Noise AtEdge w w') :
    w.outline.Alike w'.outline ∧ Text.trim w.text = Text.trim w'.text := by
  induction h with
  | rel w w' h => simpa using h.alike Reformats.alike
  | refl w => exact ⟨.refl _, rfl⟩
  | symm w w' _ ih => exact ⟨ih.1.symm, ih.2.symm⟩
  | trans w w' w'' _ _ ih ih' => exact ⟨ih.1.trans ih'.1, ih.2.trans ih'.2⟩

theorem isAllBlank_text (h : Noise AtEdge w w') (hblank : Text.isAllBlank w.text = true) :
    Text.isAllBlank w'.text = true := by
  rw [Text.isAllBlank_iff_trim, ← h.alike.2, ← Text.isAllBlank_iff_trim]
  exact hblank

end Noise

/-! ## Blank text elsewhere -/

/-- Blank text comes between texts of an element that are not blank. -/
inductive Separates (before : String) : Writing → Writing → Prop where
  | blank {raw : String} {rest : Writing} (hraw : IsBlank raw) (hne : (Token.text raw).ownText ≠ "")
      (hmiddle : ¬AtEdge before rest.text) : Separates before rest (.leaf (.text raw) rest)

theorem Separates.reformats {before : String} {w w' : Writing} (h : Separates before w w') :
    Reformats (fun _ _ => True) before w w' := by
  cases h with
  | blank hraw => exact .blank hraw trivial

namespace Within

variable {r q : String → Writing → Writing → Prop} {before : String} {w w' : Writing}

theorem mono (hrq : ∀ {before w w'}, r before w w' → q before w w') (h : Within r before w w') :
    Within q before w w' := by
  induction h with
  | here h => exact .here (hrq h)
  | leaf _ ih => exact .leaf ih
  | empty _ ih => exact .empty ih
  | inside _ ih => exact .inside ih
  | rest _ ih => exact .rest ih

/-- Blank text between texts changes the text of the element around it. -/
theorem not_sameTexts (h : Within Separates before w w') : ¬w.outline.SameTexts w'.outline ∨
    Text.isAllBlank (before ++ w.text) = false ∧
      Text.trim (before ++ w.text) ≠ Text.trim (before ++ w'.text) := by
  induction h with
  | here h =>
    cases h with
    | blank hraw hne hmiddle =>
      rw [AtEdge, not_or, Bool.not_eq_true, Bool.not_eq_true] at hmiddle
      exact .inr ⟨by rw [Text.isAllBlank_append, hmiddle.1]; rfl,
        (Text.trim_insert_blank_ne hne hmiddle.1 hmiddle.2).symm⟩
  | leaf _ ih =>
    refine ih.imp_right fun htext => ?_
    rwa [Writing.text, Writing.text, ← String.append_assoc, ← String.append_assoc]
  | empty _ ih => exact ih.imp_left fun hnot h => hnot h.2.2
  | inside _ ih =>
    refine .inl fun h => ?_
    rcases ih with hnot | ⟨-, htext⟩
    · exact hnot h.2.1
    · exact htext (by simpa using h.1)
  | rest _ ih => exact ih.imp_left fun hnot h => hnot h.2.2

end Within

end MavenPom.Markup
