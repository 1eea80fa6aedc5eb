import MavenPom.Proofs.Markup.Name
import MavenPom.Proofs.Markup.Token

/-!
# Tags without the white space at their end

White space at the end of a tag does not count: its attributes are the same without it.
-/

namespace MavenPom

namespace Text

theorem not_mem_of_cut?_eq_none {c : Char} {cs : List Char} (h : cut? [c] cs = none) : c ∉ cs := by
  intro hmem
  obtain ⟨before, after, rfl⟩ := List.append_of_mem hmem
  by_cases hbefore : c ∈ before
  · obtain ⟨front, back, rfl, hfront⟩ := List.eq_append_cons_of_mem hbefore
    rw [List.append_assoc, List.cons_append, cut?_singleton_append hfront] at h
    cases h
  · rw [cut?_singleton_append hbefore] at h
    cases h

end Text

namespace Markup

/-! ## White space behind attributes -/

theorem isBlank_of_isSpace {c : Char} (h : isSpace c = true) : Text.isBlank c = true := by
  simp only [isSpace, Bool.or_eq_true, beq_iff_eq] at h
  rcases h with ((rfl | rfl) | rfl) | rfl <;> decide

section Spaces

variable {spaces : List Char}

theorem dropWhile_append_spaces {p : Char → Bool} (hp : ∀ c ∈ spaces, p c = false)
    (cs : List Char) : (cs ++ spaces).dropWhile p = cs.dropWhile p ++ spaces := by
  have hspaces : spaces.dropWhile p = spaces := by
    cases spaces with
    | nil => rfl
    | cons c rest => rw [List.dropWhile_cons_of_neg (by simp [hp c (List.mem_cons_self ..)])]
  rw [List.dropWhile_append]
  split
  · next hempty => rw [hspaces, List.isEmpty_iff.mp hempty, List.nil_append]
  · rfl

theorem takeWhile_append_spaces {p : Char → Bool} (hp : ∀ c ∈ spaces, p c = false)
    (cs : List Char) : (cs ++ spaces).takeWhile p = cs.takeWhile p := by
  have hspaces : spaces.takeWhile p = [] := by
    cases spaces with
    | nil => rfl
    | cons c rest => rw [List.takeWhile_cons_of_neg (by simp [hp c (List.mem_cons_self ..)])]
  rw [List.takeWhile_append, hspaces, List.append_nil]
  split
  · next hall => exact (List.Sublist.eq_of_length (List.takeWhile_sublist _) hall).symm
  · rfl

theorem skipSpaces_append {cs : List Char} (h : skipSpaces cs ≠ []) :
    skipSpaces (cs ++ spaces) = skipSpaces cs ++ spaces := by
  rw [skipSpaces, List.dropWhile_append]
  split
  · next hempty => exact absurd (List.isEmpty_iff.mp hempty) h
  · rfl

variable (hspaces : ∀ c ∈ spaces, isSpace c = true)

include hspaces

theorem skipSpaces_append_of_nil {cs : List Char} (h : skipSpaces cs = []) :
    skipSpaces (cs ++ spaces) = [] := by
  rw [skipSpaces, List.dropWhile_append_of_pos (List.dropWhile_eq_nil_iff.mp h)]
  exact List.dropWhile_eq_nil_iff.mpr hspaces

theorem skipWord_append (cs : List Char) : skipWord (cs ++ spaces) = skipWord cs ++ spaces :=
  dropWhile_append_spaces (fun c hc => by simp [hspaces c hc]) cs

omit hspaces in
theorem Attribute.readAll_of_nil {distinct : Bool} {seen : List (List Char)} {cs : List Char}
    (h : skipSpaces cs = []) : readAll distinct seen cs = [] := by
  rw [readAll]
  split
  · rfl
  · next heq => rw [h] at heq; cases heq

omit hspaces in
theorem Attribute.readAll_of_cons {distinct : Bool} {seen : List (List Char)} {cs rest : List Char}
    {first : Char} (h : skipSpaces cs = first :: rest) :
    readAll distinct seen cs = (step seen first rest).reading ::
      readAll distinct (if distinct then (step seen first rest).assigned.toList ++ seen else seen)
        (step seen first rest).rest := by
  rw [readAll]
  split
  · next heq => rw [h] at heq; cases heq
  · next heq =>
    rw [h] at heq
    cases heq
    rfl

omit hspaces in
/-- `rest'` is `rest` with nothing but white space behind it. -/
def Spaced (rest rest' : List Char) : Prop :=
  ∃ spaces, (∀ c ∈ spaces, isSpace c = true) ∧ rest' = rest ++ spaces

/-- A step reads the same with white space behind the text, and leaves white space. -/
structure Attribute.SameStep (s s' : Attribute.Step) : Prop where
  reading : s'.reading = s.reading
  assigned : s'.assigned = s.assigned
  rest : Spaced s.rest s'.rest

theorem Attribute.sameStep_readValue (key text : List Char) :
    SameStep (readValue key text) (readValue key (text ++ spaces)) := by
  unfold readValue
  cases hskip : skipSpaces text with
  | nil =>
    rw [skipSpaces_append_of_nil hspaces hskip]
    exact ⟨rfl, rfl, [], by simp, rfl⟩
  | cons quote body =>
    rw [skipSpaces_append (by simp [hskip]), hskip, List.cons_append]
    dsimp only
    by_cases hquote : quote = '"' ∨ quote = '\''
    · rw [if_pos hquote, if_pos hquote]
      cases hcut : Text.cut? [quote] body with
      | none =>
        have hnot : quote ∉ body ++ spaces := by
          intro hmem
          rcases List.mem_append.mp hmem with hmem | hmem
          · exact Text.not_mem_of_cut?_eq_none hcut hmem
          · have := hspaces quote hmem
            rcases hquote with rfl | rfl <;> revert this <;> decide
        rw [Text.cut?_singleton_eq_none hnot]
        exact ⟨rfl, rfl, [], by simp, rfl⟩
      | some parts =>
        obtain ⟨value, rest⟩ := parts
        have hbody := Text.eq_of_cut? hcut
        rw [hbody, List.append_assoc, List.append_assoc, List.singleton_append,
          Text.cut?_singleton_append (Text.not_mem_of_cut?_singleton hcut)]
        exact ⟨rfl, rfl, spaces, hspaces, rfl⟩
    · rw [if_neg hquote, if_neg hquote]
      exact ⟨rfl, rfl, spaces, hspaces, skipWord_append hspaces (quote :: body)⟩

theorem Attribute.sameStep (seen : List (List Char)) (first : Char) (cs : List Char) :
    SameStep (step seen first cs) (step seen first (cs ++ spaces)) := by
  have hkey : ∀ c ∈ spaces, isKeyChar c = false := fun c hc => by simp [isKeyChar, hspaces c hc]
  unfold step
  simp only [takeWhile_append_spaces hkey, dropWhile_append_spaces hkey]
  cases hskip : skipSpaces (cs.dropWhile isKeyChar) with
  | nil =>
    rw [skipSpaces_append_of_nil hspaces hskip]
    exact ⟨rfl, rfl, [], by simp, rfl⟩
  | cons c rest =>
    rw [skipSpaces_append (by simp [hskip]), hskip, List.cons_append]
    by_cases hequals : c = '='
    · subst hequals
      change SameStep
        (if seen.contains (first :: cs.takeWhile isKeyChar) then ⟨none, none, skipWord rest⟩
          else readValue _ rest)
        (if seen.contains (first :: cs.takeWhile isKeyChar) then
            ⟨none, none, skipWord (rest ++ spaces)⟩
          else readValue _ (rest ++ spaces))
      by_cases hseen : seen.contains (first :: cs.takeWhile isKeyChar) = true
      · rw [if_pos hseen, if_pos hseen]
        exact ⟨rfl, rfl, spaces, hspaces, skipWord_append hspaces rest⟩
      · rw [if_neg hseen, if_neg hseen]
        exact sameStep_readValue hspaces _ rest
    · split
      · next heq => exact absurd (List.cons.inj heq).1 hequals
      · split
        · next heq => exact absurd (List.cons.inj heq).1 hequals
        · exact ⟨rfl, rfl, spaces, hspaces, rfl⟩

/-- White space behind the text of a tag is no attribute. -/
theorem Attribute.readAll_append (distinct : Bool) (seen : List (List Char)) (cs : List Char) :
    readAll distinct seen (cs ++ spaces) = readAll distinct seen cs := by
  induction hn : cs.length using Nat.strongRecOn generalizing seen cs spaces with
  | ind n ih =>
    cases hskip : skipSpaces cs with
    | nil => rw [readAll_of_nil hskip, readAll_of_nil (skipSpaces_append_of_nil hspaces hskip)]
    | cons first rest =>
      have hskip' : skipSpaces (cs ++ spaces) = first :: (rest ++ spaces) := by
        rw [skipSpaces_append (by simp [hskip]), hskip, List.cons_append]
      have hlength := skipSpaces_length_le cs
      have hstep := step_length_le seen first rest
      rw [hskip, List.length_cons] at hlength
      obtain ⟨hreading, hassigned, more, hmore, hrest⟩ := sameStep hspaces seen first rest
      rw [readAll_of_cons hskip, readAll_of_cons hskip', hreading, hassigned, hrest,
        ih _ (by omega) hmore _ _ rfl]

end Spaces

/-! ## Trimmed tags -/

/-- The tag without the white space at its end. -/
def Tag.trimmed (tag : Tag) : Tag := ⟨tag.name, Text.trimEnd tag.attributeText⟩

namespace Tag.Legible

variable {tag : Tag}

theorem exists_spaces (h : tag.Legible) :
    ∃ spaces, (∀ c ∈ spaces, isSpace c = true) ∧
      tag.attributeText.toList = tag.trimmed.attributeText.toList ++ spaces ∧
      ∀ c ∈ tag.trimmed.attributeText.toList.getLast?, c = '"' ∨ c = '\'' := by
  obtain ⟨front, spaces, htext, hspaces, hfront⟩ := h.attributes_end
  have htrim : tag.trimmed.attributeText.toList = front := by
    rw [trimmed, Text.trimEnd, String.toList_ofList, htext]
    refine Token.dropEndWhile_append_of_all (fun c hc => ?_) fun c hc =>
      isBlank_of_isSpace (hspaces c hc)
    rcases hfront c hc with rfl | rfl <;> decide
  rw [htrim]
  exact ⟨spaces, hspaces, htext, hfront⟩

theorem readAll_trimmed (h : tag.Legible) (distinct : Bool) (seen : List (List Char)) :
    Attribute.readAll distinct seen tag.trimmed.attributeText.toList =
      Attribute.readAll distinct seen tag.attributeText.toList := by
  obtain ⟨spaces, hspaces, htext, -⟩ := h.exists_spaces
  rw [htext, Attribute.readAll_append hspaces]

/-- Without the white space at its end, a tag has the same attributes. -/
theorem attributesOf_trimmed (h : tag.Legible) :
    EmptyElement.attributesOf tag.trimmed = EmptyElement.attributesOf tag := by
  rw [EmptyElement.attributesOf, EmptyElement.attributesOf, h.readAll_trimmed]

theorem elementOf?_trimmed (h : tag.Legible) : Tree.elementOf? tag.trimmed =
    (Tree.elementOf? tag).map fun e => { e with attributeText := tag.trimmed.attributeText } := by
  rw [Tree.elementOf?, Tree.elementOf?, h.readAll_trimmed, Option.map_map]
  rfl

theorem tagContent?_spaces_ne {quote : Char} (hquote : isSpace quote = false)
    {spaces rest : List Char} (hspaces : ∀ c ∈ spaces, isSpace c = true) :
    Token.tagContent? (some quote) (spaces ++ '>' :: rest) ≠ some spaces := by
  induction spaces with
  | nil =>
    intro h
    rw [List.nil_append, Token.tagContent?] at h
    obtain ⟨more, -, heq⟩ := Option.map_eq_some_iff.mp h
    cases heq
  | cons c spaces ih =>
    obtain ⟨hc, hspaces⟩ := List.forall_mem_cons.mp hspaces
    intro h
    have hne : c ≠ quote := by
      rintro rfl
      rw [hquote] at hc
      cases hc
    rw [List.cons_append, Token.tagContent?, if_neg hne] at h
    obtain ⟨more, hmore, heq⟩ := Option.map_eq_some_iff.mp h
    obtain rfl := (List.cons.inj heq).2
    exact ih hspaces hmore

/-- White space at the end of a tag stands outside of quotes, so that the tag ends as well without
    it. -/
theorem tagContent?_of_spaces {quote : Option Char} (hquote : ∀ c ∈ quote, isSpace c = false)
    {cs spaces rest rest' : List Char} (hspaces : ∀ c ∈ spaces, isSpace c = true)
    (h : Token.tagContent? quote (cs ++ (spaces ++ '>' :: rest)) = some (cs ++ spaces)) :
    Token.tagContent? quote (cs ++ '>' :: rest') = some cs := by
  induction cs generalizing quote with
  | nil =>
    cases quote with
    | none => rfl
    | some q => exact absurd h (tagContent?_spaces_ne (hquote q rfl) hspaces)
  | cons c cs ih =>
    cases quote with
    | none =>
      rw [List.cons_append, Token.tagContent?] at h ⊢
      split at h
      · cases h
      · next hc =>
        obtain ⟨more, hmore, heq⟩ := Option.map_eq_some_iff.mp h
        obtain rfl := (List.cons.inj heq).2
        rw [if_neg hc, ih ?_ hmore]
        · rfl
        · intro d hd
          split at hd
          · next hmark =>
            obtain rfl := Option.some.inj hd
            rcases hmark with rfl | rfl <;> decide
          · cases hd
    | some q =>
      rw [List.cons_append, Token.tagContent?] at h ⊢
      obtain ⟨more, hmore, heq⟩ := Option.map_eq_some_iff.mp h
      obtain rfl := (List.cons.inj heq).2
      rw [ih ?_ hmore]
      · rfl
      · intro d hd
        split at hd
        · cases hd
        · exact hquote d hd

theorem trimmed (h : tag.Legible) : tag.trimmed.Legible := by
  obtain ⟨spaces, hspaces, htext, hlast⟩ := h.exists_spaces
  have hinside : tag.inside = tag.trimmed.inside ++ spaces := by
    rw [Tag.inside, htext, Tag.inside, List.append_assoc]
    rfl
  refine ⟨h.name_head, h.name_chars, fun c hc => ?_, ⟨_, [], (List.append_nil _).symm, by simp,
    hlast⟩, fun rest => ?_, ?_⟩
  · refine h.attributes_head c ?_
    rw [htext]
    cases hfront : tag.trimmed.attributeText.toList with
    | nil => rw [hfront] at hc; cases hc
    | cons d more => rwa [hfront] at hc
  · have hcontent := h.content []
    rw [hinside, List.append_assoc] at hcontent
    exact tagContent?_of_spaces (by simp) hspaces hcontent
  · rw [Tag.inside, List.getLast?_append]
    intro heq
    rcases Option.or_eq_some_iff.mp heq with heq | ⟨-, heq⟩
    · rcases hlast _ heq with h | h <;> revert h <;> decide
    · exact Strict.not_mem_of_isNameChar (by decide) h.name_chars (List.mem_of_getLast? heq)

end Tag.Legible

end Markup

end MavenPom
