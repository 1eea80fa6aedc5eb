import MavenPom.Markup.Strict.Document
import MavenPom.Proofs.Markup.Characters

/-!
# Legible markup

A token is legible when its spelling, put before any other text, is read as that token again. In
a well-formed document all tokens are, also to the lenient reader.
-/

namespace MavenPom

namespace Text

/-- The first place where `mark` stands, after `cs`, does not depend on what follows it. -/
def EndsAt (mark cs : List Char) : Prop :=
  ∀ rest, cut? mark (cs ++ mark ++ rest) = some (cs, rest)

theorem cut?_append {mark : List Char} (hmark : mark ≠ []) (rest : List Char) :
    cut? mark (mark ++ rest) = some ([], rest) := by
  have hstrip : strip? mark (mark ++ rest) = some rest := strip?_eq_some_iff.mpr rfl
  cases mark with
  | nil => exact absurd rfl hmark
  | cons m mark => rw [List.cons_append, cut?, ← List.cons_append, hstrip]

theorem endsAt_of_cut? {mark cs before after : List Char} (hmark : mark ≠ [])
    (h : cut? mark cs = some (before, after)) : EndsAt mark before := by
  induction cs generalizing before with
  | nil =>
    obtain ⟨rest, hrest, heq⟩ := Option.map_eq_some_iff.mp h
    cases heq
    exact cut?_append hmark
  | cons c cs ih =>
    rw [cut?] at h
    split at h
    · cases h
      exact cut?_append hmark
    · next hnone =>
      obtain ⟨⟨front, back⟩, hcut, heq⟩ := Option.map_eq_some_iff.mp h
      cases heq
      intro rest
      have hrest : cut? mark (front ++ mark ++ rest) = some (front, rest) := ih hcut rest
      -- An earlier place for the mark would be one in `cs` already.
      have hstrip : strip? mark (c :: (front ++ mark ++ rest)) = none := by
        cases hsome : strip? mark (c :: (front ++ mark ++ rest)) with
        | none => rfl
        | some more =>
          have hlong : mark <+: (c :: front ++ mark) ++ rest :=
            ⟨more, by simpa using (strip?_eq_some_iff.mp hsome).symm⟩
          obtain ⟨tail, htail⟩ : mark <+: c :: front ++ mark :=
            List.prefix_of_prefix_length_le hlong (List.prefix_append ..) (by simp; omega)
          have hcs : c :: cs = mark ++ (tail ++ after) := by
            rw [eq_of_cut? hcut, ← List.append_assoc, htail]
            simp
          rw [strip?_eq_some_iff.mpr hcs] at hnone
          cases hnone
      rw [List.cons_append, List.cons_append, cut?, hstrip, hrest]
      rfl

/-- The first place of a mark is no later than any other. -/
theorem cut?_le {mark cs rest before after : List Char} (hmark : mark ≠ [])
    (h : cut? mark (cs ++ mark ++ rest) = some (before, after)) :
    ∃ more, cs ++ mark = before ++ mark ++ more ∧ after = more ++ rest := by
  induction cs generalizing before with
  | nil =>
    rw [List.nil_append, cut?_append hmark] at h
    cases h
    exact ⟨[], by simp, rfl⟩
  | cons c cs ih =>
    rw [List.cons_append, List.cons_append, cut?] at h
    split at h
    · next found hstrip =>
      cases h
      have heq := strip?_eq_some_iff.mp hstrip
      have hlong : mark <+: (c :: cs ++ mark) ++ rest := ⟨after, by simpa using heq.symm⟩
      obtain ⟨more, hmore⟩ : mark <+: c :: cs ++ mark :=
        List.prefix_of_prefix_length_le hlong (List.prefix_append ..) (by simp; omega)
      refine ⟨more, hmore.symm, ?_⟩
      have hwhole : mark ++ (more ++ rest) = mark ++ after := by
        rw [← List.append_assoc, hmore, ← heq]
        simp
      exact (List.append_cancel_left hwhole).symm
    · obtain ⟨⟨front, back⟩, hcut, heq⟩ := Option.map_eq_some_iff.mp h
      cases heq
      obtain ⟨more, hmore, hafter⟩ := ih hcut
      exact ⟨more, by rw [List.cons_append, hmore]; rfl, hafter⟩

end Text

namespace Markup

open Token (tagContent?)

/-- What stands between the angle brackets of a start tag. -/
def Tag.inside (tag : Tag) : List Char := tag.name.toList ++ tag.attributeText.toList

/-- What follows a tag's name ends with the quote of a value, apart from white space. -/
def EndsQuoted (cs : List Char) : Prop :=
  ∃ front spaces, cs = front ++ spaces ∧ (∀ c ∈ spaces, isSpace c = true) ∧
    ∀ c ∈ front.getLast?, c = '"' ∨ c = '\''

theorem EndsQuoted.getLast?_ne {cs : List Char} (h : EndsQuoted cs) :
    cs.getLast? ≠ some '/' := by
  obtain ⟨front, spaces, rfl, hspaces, hfront⟩ := h
  rw [List.getLast?_append]
  intro hlast
  rcases Option.or_eq_some_iff.mp hlast with hlast | ⟨-, hlast⟩
  · have := hspaces _ (List.mem_of_getLast? hlast)
    revert this
    decide
  · rcases hfront _ hlast with h | h <;> revert h <;> decide

/-- The inside of a tag is read as such again, and it is neither that of an end tag or other
    markup nor that of an empty tag. -/
structure Tag.Legible (tag : Tag) : Prop where
  name_head : ∃ c cs, tag.name.toList = c :: cs ∧ c ≠ '/' ∧ c ≠ '!' ∧ c ≠ '?'
  name_chars : ∀ c ∈ tag.name.toList, Strict.isNameChar c = true
  attributes_head : ∀ c ∈ tag.attributeText.toList.head?, isSpace c = true
  attributes_end : EndsQuoted tag.attributeText.toList
  content : ∀ rest, tagContent? none (tag.inside ++ '>' :: rest) = some tag.inside
  last_ne : tag.inside.getLast? ≠ some '/'

namespace Token

def Legible : Token → Prop
  | .startTag tag => tag.Legible
  | .emptyTag tag => tag.Legible
  | .endTag _ => True
  | .text raw => raw.toList ≠ [] ∧ '<' ∉ raw.toList
  | .cdata content => Text.EndsAt "]]>".toList content.toList
  | .comment content => Text.EndsAt "-->".toList content.toList
  | .declaration content =>
    isDeclaration content.toList = true ∧ content.toList.head? ≠ some '>' ∧
      Text.EndsAt "?>".toList content.toList
  | .instruction content =>
    isDeclaration content.toList = false ∧ content.toList.head? ≠ some '>' ∧
      Text.EndsAt "?>".toList content.toList
  | .doctype _ => False

theorem tagContent?_append {quote : Option Char} {cs content : List Char}
    (h : tagContent? quote cs = some content) (rest : List Char) :
    tagContent? quote (content ++ '>' :: rest) = some content := by
  induction cs generalizing quote content with
  | nil => cases quote <;> cases h
  | cons c cs ih =>
    cases quote with
    | none =>
      rw [tagContent?] at h
      split at h
      · cases h
        rfl
      · next hc =>
        obtain ⟨more, hmore, rfl⟩ := Option.map_eq_some_iff.mp h
        rw [List.cons_append, tagContent?, if_neg hc, ih hmore]
        rfl
    | some q =>
      rw [tagContent?] at h
      obtain ⟨more, hmore, rfl⟩ := Option.map_eq_some_iff.mp h
      rw [List.cons_append, tagContent?, ih hmore]
      rfl

theorem eq_of_tagContent? {quote : Option Char} {cs content : List Char}
    (h : tagContent? quote cs = some content) : ∃ rest, cs = content ++ '>' :: rest := by
  induction cs generalizing quote content with
  | nil => cases quote <;> cases h
  | cons c cs ih =>
    cases quote with
    | none =>
      rw [tagContent?] at h
      split at h
      · next hc =>
        cases h
        exact ⟨cs, by rw [hc]; rfl⟩
      · obtain ⟨more, hmore, rfl⟩ := Option.map_eq_some_iff.mp h
        obtain ⟨rest, rfl⟩ := ih hmore
        exact ⟨rest, rfl⟩
    | some q =>
      rw [tagContent?] at h
      obtain ⟨more, hmore, rfl⟩ := Option.map_eq_some_iff.mp h
      obtain ⟨rest, rfl⟩ := ih hmore
      exact ⟨rest, rfl⟩

/-- The slash of an empty tag stands outside of quotes, so that the tag ends as well without
    it. -/
theorem tagContent?_of_slash {quote : Option Char} {cs rest rest' : List Char}
    (hquote : quote ≠ some '/')
    (h : tagContent? quote (cs ++ '/' :: '>' :: rest) = some (cs ++ ['/'])) :
    tagContent? quote (cs ++ '>' :: rest') = some cs := by
  induction cs generalizing quote with
  | nil =>
    cases quote with
    | none => rfl
    | some q =>
      have hne : '/' ≠ q := fun heq => hquote (heq ▸ rfl)
      rw [List.nil_append, tagContent?, if_neg hne, tagContent?] at h
      obtain ⟨more, hmore, heq⟩ := Option.map_eq_some_iff.mp h
      obtain ⟨more', -, rfl⟩ := Option.map_eq_some_iff.mp hmore
      cases heq
  | cons c cs ih =>
    cases quote with
    | none =>
      rw [List.cons_append, tagContent?] at h ⊢
      split at h
      · cases h
      · next hc =>
        obtain ⟨more, hmore, heq⟩ := Option.map_eq_some_iff.mp h
        obtain rfl := (List.cons.inj heq).2
        rw [if_neg hc, ih ?_ hmore]
        · rfl
        · intro heq
          split at heq
          · next hmark =>
            cases heq
            revert hmark
            decide
          · cases heq
    | some q =>
      rw [List.cons_append, tagContent?] at h ⊢
      obtain ⟨more, hmore, heq⟩ := Option.map_eq_some_iff.mp h
      obtain rfl := (List.cons.inj heq).2
      rw [ih ?_ hmore]
      · rfl
      · intro heq
        split at heq
        · cases heq
        · exact hquote heq

/-- Without quotes, a tag ends at the first `>`. -/
theorem tagContent?_append_of_not_mem {cs rest : List Char}
    (h : ∀ c ∈ cs, c ≠ '>' ∧ c ≠ '"' ∧ c ≠ '\'') :
    tagContent? none (cs ++ '>' :: rest) = some cs := by
  induction cs with
  | nil => rfl
  | cons c cs ih =>
    obtain ⟨⟨hclose, hdouble, hsingle⟩, hcs⟩ := List.forall_mem_cons.mp h
    rw [List.cons_append, tagContent?, if_neg hclose, if_neg (by simp [hdouble, hsingle]), ih hcs]
    rfl

/-- Only what does not open with a bracket is a text, and only what opens with `</` an end tag. -/
theorem next_cases {names : Option String} {c : Char} {cs : List Char} {token : Token} {n : ℕ}
    (h : next names c cs = .ok (token, n)) :
    (c ≠ '<' ∧ token = .text (String.ofList (c :: cs.takeWhile (· != '<')))) ∨
    (∃ rest name, c = '<' ∧ cs = '/' :: rest ∧ token = .endTag name ∧ names = some name) ∨
    (c = '<' ∧ (∀ raw, token ≠ .text raw) ∧ ∀ name, token ≠ .endTag name) := by
  have hmap : ∀ {r : Except Breach (Token × ℕ)},
      (r.map fun x => (x.1, x.2 + 1)) = .ok (token, n) → ∃ m, r = .ok (token, m) := by
    intro r hr
    cases r with
    | error e => cases hr
    | ok x =>
      cases hr
      exact ⟨x.2, rfl⟩
  unfold next at h
  split at h
  · next hopen =>
    split at h
    · cases h
    · next rest =>
      obtain ⟨m, hread⟩ := hmap h
      refine .inr (.inr ⟨hopen, ?_⟩)
      unfold readBang at hread
      dsimp only at hread
      repeat' split at hread
      all_goals cases hread
      all_goals exact ⟨by simp, by simp⟩
    · next rest =>
      obtain ⟨m, hread⟩ := hmap h
      refine .inr (.inr ⟨hopen, ?_⟩)
      unfold readInstruction at hread
      split at hread
      · cases hread
      · cases hread
        split
        · exact ⟨by simp, by simp⟩
        · exact ⟨by simp, by simp⟩
    · next rest =>
      obtain ⟨m, hread⟩ := hmap h
      unfold readEnd at hread
      repeat' split at hread
      all_goals cases hread
      exact .inr (.inl ⟨rest, _, hopen, rfl, rfl, rfl⟩)
    · split at h
      · cases h
      · cases h
        refine .inr (.inr ⟨hopen, ?_⟩)
        unfold ofTagContent
        split
        · exact ⟨by simp, by simp⟩
        · exact ⟨by simp, by simp⟩
  · next hopen =>
    cases h
    exact .inl ⟨hopen, rfl⟩

end Token

end Markup

end MavenPom
