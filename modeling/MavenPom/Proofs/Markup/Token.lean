import MavenPom.Proofs.Markup.Strict

/-!
# Spelling of tokens

Every legible token is read from its spelling, whatever follows it, and nothing else is read as
that token, but for white space before the end of an end tag.
-/

namespace MavenPom.Markup

namespace Tag.Legible

variable {tag : Tag}

theorem name_ne (h : tag.Legible) : tag.name.toList ≠ [] := by
  obtain ⟨c, cs, hname, -⟩ := h.name_head
  simp [hname]

theorem not_isSpace_name (h : tag.Legible) : ∀ c ∈ tag.name.toList, isSpace c = false := by
  intro c hc
  cases hspace : isSpace c with
  | false => rfl
  | true =>
    have hname := h.name_chars c hc
    rw [Strict.isNameChar_eq_false_of_isSpace hspace] at hname
    cases hname

/-- The inside of a tag tells the tag. -/
theorem tagOf_inside (h : tag.Legible) : Token.tagOf tag.inside = tag := by
  have hname : ∀ c ∈ tag.name.toList, (!isSpace c) = true := fun c hc => by
    rw [h.not_isSpace_name c hc]
    rfl
  have hstop : tag.attributeText.toList.takeWhile (fun c => !isSpace c) = [] := by
    cases htext : tag.attributeText.toList with
    | nil => rfl
    | cons c cs =>
      have hc := h.attributes_head c (by simp [htext])
      simp [hc]
  have htake : tag.inside.takeWhile (fun c => !isSpace c) = tag.name.toList := by
    rw [Tag.inside, List.takeWhile_append_of_pos hname, hstop, List.append_nil]
  have hsplit := List.takeWhile_append_dropWhile (p := fun c => !isSpace c) (l := tag.inside)
  rw [htake, Tag.inside] at hsplit
  have hdrop := List.append_cancel_left hsplit
  rw [Token.tagOf, htake, skipWord, Tag.inside, hdrop, String.ofList_toList, String.ofList_toList]

end Tag.Legible

namespace Token

/-- A token as it is written. -/
def spelling : Token → List Char
  | .startTag tag => '<' :: tag.inside ++ ['>']
  | .emptyTag tag => '<' :: tag.inside ++ ['/', '>']
  | .endTag name => '<' :: '/' :: name.toList ++ ['>']
  | .text raw => (Tree.leafText (.text raw)).toList
  | .cdata content => (Tree.leafText (.cdata content)).toList
  | .comment content => (Tree.leafText (.comment content)).toList
  | .declaration content => (Tree.leafText (.declaration content)).toList
  | .instruction content => (Tree.leafText (.instruction content)).toList
  | .doctype content => (Tree.leafText (.doctype content)).toList

/-- A token that opens and closes no element. -/
def isLeaf : Token → Bool
  | .startTag _ => false
  | .emptyTag _ => false
  | .endTag _ => false
  | _ => true

/-- A token that is text runs up to the next bracket. -/
def isText : Token → Bool
  | .text _ => true
  | _ => false

def isEnd : Token → Bool
  | .endTag _ => true
  | _ => false

theorem isEnd_of_isLeaf {token : Token} (h : token.isLeaf = true) : token.isEnd = false := by
  cases token with
  | endTag name => cases h
  | _ => rfl

theorem openAfter_of_isLeaf {token : Token} (h : token.isLeaf = true) (names : List String) :
    openAfter names token = names := by
  cases token with
  | startTag tag => cases h
  | emptyTag tag => cases h
  | endTag name => cases h
  | _ => rfl

/-- Everything but text opens with a bracket. -/
theorem eq_cons_spelling {token : Token} (h : token.isText = false) :
    token.spelling = '<' :: token.spelling.tail := by
  cases token with
  | text raw => cases h
  | _ => simp [spelling, Tree.leafText]

/-! ## Reading a spelling -/

variable {names : Option String} {rest : List Char}

theorem next_text {raw : String} (h : (Token.text raw).Legible)
    (hrest : ∀ c ∈ rest.head?, c = '<') :
    ∃ c cs, (Token.text raw).spelling = c :: cs ∧
      next names c (cs ++ rest) = .ok (.text raw, cs.length) := by
  obtain ⟨hne, hopen⟩ := h
  obtain ⟨c, cs, hraw⟩ := List.exists_cons_of_ne_nil hne
  obtain ⟨hc, hcs⟩ := not_or.mp fun h => hopen (hraw ▸ List.mem_cons.mpr h)
  refine ⟨c, cs, hraw, ?_⟩
  have hall : ∀ x ∈ cs, (x != '<') = true := fun x hx =>
    bne_iff_ne.mpr fun heq => hcs (heq ▸ hx)
  have hstop : rest.takeWhile (· != '<') = [] := by
    cases rest with
    | nil => rfl
    | cons d rest =>
      obtain rfl := hrest d rfl
      rfl
  have htext : (cs ++ rest).takeWhile (· != '<') = cs := by
    rw [List.takeWhile_append_of_pos hall, hstop, List.append_nil]
  unfold next
  rw [if_neg (Ne.symm hc), htext]
  simp only [← hraw, String.ofList_toList]

/-- The inside of a legible tag that is not an empty one is read up to its end. -/
theorem next_inside {tag : Tag} (h : tag.Legible) (names : Option String) (rest : List Char) :
    next names '<' (tag.inside ++ '>' :: rest) =
      .ok (.startTag (tagOf tag.inside), tag.inside.length + 1) := by
  obtain ⟨c, more, hname, hslash, hbang, hquestion⟩ := h.name_head
  have hinside : tag.inside ++ '>' :: rest =
      c :: (more ++ tag.attributeText.toList ++ '>' :: rest) := by
    rw [Tag.inside, hname]
    simp
  have hcontent := h.content rest
  rw [hinside] at hcontent ⊢
  unfold next
  rw [if_pos rfl]
  split
  · next heq => cases heq
  · next heq => exact absurd (List.cons.inj heq).1 hbang
  · next heq => exact absurd (List.cons.inj heq).1 hquestion
  · next heq => exact absurd (List.cons.inj heq).1 hslash
  · rw [hcontent]
    simp only [ofTagContent, if_neg h.last_ne]

/-- A slash at the end of a tag, outside of quotes, belongs to its inside. -/
theorem tagContent?_slash {quote : Option Char} {cs rest rest' : List Char}
    (h : tagContent? quote (cs ++ '>' :: rest) = some cs) :
    tagContent? quote (cs ++ '/' :: '>' :: rest') = some (cs ++ ['/']) := by
  induction cs generalizing quote with
  | nil =>
    cases quote with
    | none => rfl
    | some q =>
      rw [List.nil_append, tagContent?] at h
      obtain ⟨more, -, heq⟩ := Option.map_eq_some_iff.mp h
      cases heq
  | cons c cs ih =>
    cases quote with
    | none =>
      rw [List.cons_append, tagContent?] at h ⊢
      split at h
      · cases h
      · next hc =>
        obtain ⟨more, hmore, heq⟩ := Option.map_eq_some_iff.mp h
        obtain rfl := (List.cons.inj heq).2
        rw [if_neg hc, ih hmore]
        rfl
    | some q =>
      rw [List.cons_append, tagContent?] at h ⊢
      obtain ⟨more, hmore, heq⟩ := Option.map_eq_some_iff.mp h
      obtain rfl := (List.cons.inj heq).2
      rw [ih hmore]
      rfl

theorem next_emptyTag {tag : Tag} (h : tag.Legible) (names : Option String) (rest : List Char) :
    next names '<' (tag.inside ++ '/' :: '>' :: rest) =
      .ok (.emptyTag tag, tag.inside.length + 2) := by
  obtain ⟨c, more, hname, hslash, hbang, hquestion⟩ := h.name_head
  have hinside : tag.inside ++ '/' :: '>' :: rest =
      c :: (more ++ tag.attributeText.toList ++ '/' :: '>' :: rest) := by
    rw [Tag.inside, hname]
    simp
  have hcontent : tagContent? none (tag.inside ++ '/' :: '>' :: rest) =
      some (tag.inside ++ ['/']) := tagContent?_slash (h.content [])
  rw [hinside] at hcontent ⊢
  unfold next
  rw [if_pos rfl]
  split
  · next heq => cases heq
  · next heq => exact absurd (List.cons.inj heq).1 hbang
  · next heq => exact absurd (List.cons.inj heq).1 hquestion
  · next heq => exact absurd (List.cons.inj heq).1 hslash
  · rw [hcontent]
    simp [ofTagContent, h.tagOf_inside]

theorem next_instruction {content : String} (hhead : content.toList.head? ≠ some '>')
    (hends : Text.EndsAt "?>".toList content.toList) :
    next names '<' ("?".toList ++ content.toList ++ "?>".toList ++ rest) =
      .ok (if isDeclaration content.toList then .declaration content else .instruction content,
        content.toList.length + 3) := by
  have hopen : "?".toList ++ content.toList ++ "?>".toList ++ rest =
      '?' :: (content.toList ++ "?>".toList ++ rest) := by
    simp
  have hfirst : (content.toList ++ "?>".toList ++ rest).head? ≠ some '>' := by
    cases hcontent : content.toList with
    | nil => simp
    | cons c more =>
      rw [hcontent] at hhead
      exact hhead
  rw [hopen, next, if_pos rfl]
  simp only [readInstruction]
  rw [if_neg hfirst, hends rest]
  simp [Except.map]

/-- A legible token that ends no element is read from its spelling, a text up to the next
    bracket. -/
theorem next_spelling {token : Token} (h : token.Legible) (hend : token.isEnd = false)
    (hrest : token.isText = true → ∀ c ∈ rest.head?, c = '<') :
    ∃ c cs, token.spelling = c :: cs ∧ next names c (cs ++ rest) = .ok (token, cs.length) := by
  cases token with
  | startTag tag =>
    refine ⟨'<', tag.inside ++ ['>'], rfl, ?_⟩
    have hnext := next_inside h names rest
    rw [Tag.Legible.tagOf_inside h] at hnext
    rw [List.append_assoc, List.singleton_append, hnext]
    simp
  | emptyTag tag =>
    refine ⟨'<', tag.inside ++ ['/', '>'], rfl, ?_⟩
    rw [List.append_assoc, List.cons_append, List.singleton_append, next_emptyTag h]
    simp
  | endTag name => cases hend
  | text raw => exact next_text h (hrest rfl)
  | cdata content =>
    refine ⟨'<', "![CDATA[".toList ++ content.toList ++ "]]>".toList, ?_, ?_⟩
    · simp [spelling, Tree.leafText]
    have hopen : "![CDATA[".toList ++ content.toList ++ "]]>".toList ++ rest =
        '!' :: '[' :: ("CDATA[".toList ++ (content.toList ++ "]]>".toList ++ rest)) := by
      simp
    have hstrip : Text.strip? "[CDATA[".toList
        ('[' :: ("CDATA[".toList ++ (content.toList ++ "]]>".toList ++ rest))) =
        some (content.toList ++ "]]>".toList ++ rest) := Text.strip?_eq_some_iff.mpr rfl
    rw [hopen, next, if_pos rfl]
    simp only [readBang]
    rw [hstrip, Option.bind_some, h rest]
    simp [Except.map]
  | comment content =>
    refine ⟨'<', "!--".toList ++ content.toList ++ "-->".toList, ?_, ?_⟩
    · simp [spelling, Tree.leafText]
    have hopen : "!--".toList ++ content.toList ++ "-->".toList ++ rest =
        '!' :: '-' :: ("-".toList ++ (content.toList ++ "-->".toList ++ rest)) := by
      simp
    have hstrip : Text.strip? "--".toList
        ('-' :: ("-".toList ++ (content.toList ++ "-->".toList ++ rest))) =
        some (content.toList ++ "-->".toList ++ rest) := Text.strip?_eq_some_iff.mpr rfl
    rw [hopen, next, if_pos rfl]
    simp only [readBang]
    rw [hstrip, Option.bind_some, h rest]
    simp [Except.map]
  | declaration content =>
    obtain ⟨hdeclaration, hhead, hends⟩ := h
    refine ⟨'<', "?".toList ++ content.toList ++ "?>".toList, ?_, ?_⟩
    · simp [spelling, Tree.leafText]
    rw [next_instruction hhead hends, if_pos hdeclaration]
    simp
  | instruction content =>
    obtain ⟨hinstruction, hhead, hends⟩ := h
    refine ⟨'<', "?".toList ++ content.toList ++ "?>".toList, ?_, ?_⟩
    · simp [spelling, Tree.leafText]
    rw [next_instruction hhead hends, if_neg (by simp [hinstruction])]
    simp
  | doctype content => exact h.elim

theorem dropEndWhile_append_of_all {p : Char → Bool} {cs : List Char}
    (hcs : ∀ c ∈ cs.getLast?, p c = false) {gap : List Char} (hgap : ∀ c ∈ gap, p c = true) :
    Text.dropEndWhile p (cs ++ gap) = cs := by
  rw [Text.dropEndWhile, List.reverse_append, List.dropWhile_append_of_pos (by simpa using hgap)]
  cases hlast : cs.reverse with
  | nil => simpa using hlast
  | cons c more =>
    have hc := hcs c (by rw [List.getLast?_eq_head?_reverse, hlast]; rfl)
    rw [List.dropWhile_cons_of_neg (by simp [hc]), ← hlast, List.reverse_reverse]

/-- An end tag is read with white space behind its name. -/
theorem next_endTag {tag : Tag} (h : tag.Legible) {gap : List Char}
    (hgap : ∀ c ∈ gap, isSpace c = true) (rest : List Char) :
    next (some tag.name) '<' ('/' :: (tag.name.toList ++ gap ++ '>' :: rest)) =
      .ok (.endTag tag.name, (tag.name.toList ++ gap).length + 2) := by
  have hplain : ∀ c ∈ tag.name.toList ++ gap, c ≠ '>' ∧ c ≠ '"' ∧ c ≠ '\'' := by
    have hnot : ∀ x : Char, Strict.isNameChar x = false → isSpace x = false →
        x ∉ tag.name.toList ++ gap := by
      intro x hname hspace hmem
      rcases List.mem_append.mp hmem with hmem | hmem
      · exact Strict.not_mem_of_isNameChar hname h.name_chars hmem
      · exact Strict.not_mem_of_isSpace hspace hgap hmem
    intro c hc
    refine ⟨?_, ?_, ?_⟩ <;> rintro rfl <;> exact hnot _ (by decide) (by decide) hc
  have hname : endName (tag.name.toList ++ gap) = tag.name := by
    have htrim : Text.dropEndWhile isSpace (tag.name.toList ++ gap) = tag.name.toList :=
      dropEndWhile_append_of_all
        (fun c hc => h.not_isSpace_name c (List.mem_of_getLast? hc)) hgap
    simp [endName, htrim, h.name_ne]
  rw [next, if_pos rfl]
  simp only [readEnd, tagContent?_append_of_not_mem hplain, hname, if_true, Except.map]

/-! ## Spellings that are read -/

theorem take_of_eq_append {cs : List Char} (front back : List Char) {n : ℕ}
    (h : cs = front ++ back) (hn : n = front.length) : cs.take n = front := by
  rw [h, hn, List.take_left]

theorem eq_spelling_of_readBang {token : Token} {cs : List Char} {n : ℕ}
    (h : readBang cs = .ok (token, n)) (hlegible : token.Legible) :
    '<' :: '!' :: cs.take n = token.spelling := by
  unfold readBang at h
  dsimp only at h
  split at h
  · split at h
    · next content after hcut =>
      cases h
      obtain ⟨body, hstrip, hcut⟩ := Option.bind_eq_some_iff.mp hcut
      have hcs := (Text.strip?_eq_some_iff.mp hstrip).trans
        (congrArg ("--".toList ++ ·) (Text.eq_of_cut? hcut))
      rw [take_of_eq_append ("--".toList ++ (content ++ "-->".toList)) after
        (by rw [hcs]; simp) (by simp)]
      simp [spelling, Tree.leafText]
    · cases h
  · split at h
    · next content after hcut =>
      cases h
      obtain ⟨body, hstrip, hcut⟩ := Option.bind_eq_some_iff.mp hcut
      have hcs := (Text.strip?_eq_some_iff.mp hstrip).trans
        (congrArg ("[CDATA[".toList ++ ·) (Text.eq_of_cut? hcut))
      rw [take_of_eq_append ("[CDATA[".toList ++ (content ++ "]]>".toList)) after
        (by rw [hcs]; simp) (by simp)]
      simp [spelling, Tree.leafText]
    · cases h
  · repeat' split at h
    all_goals cases h
    exact hlegible.elim
  · cases h

theorem eq_spelling_of_readInstruction {token : Token} {cs : List Char} {n : ℕ}
    (h : readInstruction cs = .ok (token, n)) : '<' :: '?' :: cs.take n = token.spelling := by
  unfold readInstruction at h
  split at h
  · cases h
  · next content after hread =>
    split at hread
    · cases hread
    · have hcs := Text.eq_of_cut? hread
      cases h
      rw [take_of_eq_append _ _ hcs (by simp)]
      split <;> simp [spelling, Tree.leafText]

theorem eq_spelling_of_tagContent? {cs content : List Char}
    (h : tagContent? none cs = some content) :
    '<' :: cs.take (content.length + 1) = (ofTagContent content).spelling := by
  obtain ⟨rest, hcs⟩ := eq_of_tagContent? h
  rw [take_of_eq_append (content ++ ['>']) rest (by simp [hcs]) (by simp)]
  unfold ofTagContent
  split
  · next hslash =>
    have hcontent := List.dropLast_append_getLast? _ hslash
    rw [spelling, inside_tagOf, ← hcontent]
    simp
  · simp [spelling, inside_tagOf]

/-- What is read as a legible token that ends no element is its spelling. -/
theorem eq_spelling_of_next {token : Token} {c : Char} {cs : List Char} {n : ℕ}
    (h : next names c cs = .ok (token, n)) (hlegible : token.Legible)
    (hend : token.isEnd = false) : c :: cs.take n = token.spelling := by
  have hmap : ∀ {r : Except Breach (Token × ℕ)},
      (r.map fun x => (x.1, x.2 + 1)) = .ok (token, n) →
        ∃ m, r = .ok (token, m) ∧ n = m + 1 := by
    intro r hr
    cases r with
    | error e => cases hr
    | ok x =>
      cases hr
      exact ⟨x.2, rfl, rfl⟩
  unfold next at h
  split at h
  · next hopen =>
    subst hopen
    split at h
    · cases h
    · obtain ⟨m, hread, rfl⟩ := hmap h
      exact eq_spelling_of_readBang hread hlegible
    · obtain ⟨m, hread, rfl⟩ := hmap h
      exact eq_spelling_of_readInstruction hread
    · obtain ⟨m, hread, rfl⟩ := hmap h
      unfold readEnd at hread
      repeat' split at hread
      all_goals cases hread
      cases hend
    · split at h
      · cases h
      · next content hcontent =>
        cases h
        exact eq_spelling_of_tagContent? hcontent
  · cases h
    show c :: cs.take (cs.takeWhile (· != '<')).length = (String.ofList _).toList
    rw [String.toList_ofList, take_of_eq_append _ _ (List.takeWhile_append_dropWhile ..).symm rfl]

/-- A text is read up to the next bracket. -/
theorem head?_drop_of_next {raw : String} {c : Char} {cs : List Char} {n : ℕ}
    (h : next names c cs = .ok (.text raw, n)) : ∀ d ∈ (cs.drop n).head?, d = '<' := by
  intro d hd
  rcases next_cases h with ⟨hc, -⟩ | ⟨_, _, -, -, heq, -⟩ | ⟨-, hne, -⟩
  · unfold next at h
    rw [if_neg hc] at h
    cases h
    have hdrop : cs.drop (cs.takeWhile (· != '<')).length = cs.dropWhile (· != '<') := by
      have hsplit : (cs.takeWhile (· != '<') ++ cs.dropWhile (· != '<')).drop
          (cs.takeWhile (· != '<')).length = cs.dropWhile (· != '<') := List.drop_left
      rwa [List.takeWhile_append_dropWhile] at hsplit
    rw [hdrop] at hd
    have hstop := List.head?_dropWhile_not (· != '<') cs
    rw [hd] at hstop
    simpa using hstop
  · cases heq
  · exact absurd rfl (hne raw)

theorem exists_gap_of_endName {content : List Char} {name : String} (h : endName content = name) :
    ∃ gap, (∀ c ∈ gap, isSpace c = true) ∧ content = name.toList ++ gap := by
  unfold endName at h
  dsimp only at h
  split at h
  · exact ⟨[], by simp, by rw [← h]; simp⟩
  · refine ⟨(content.reverse.takeWhile isSpace).reverse, fun c hc => ?_, ?_⟩
    · exact List.mem_takeWhile_imp (List.mem_reverse.mp hc)
    · rw [← h, String.toList_ofList, Text.dropEndWhile, ← List.reverse_append,
        List.takeWhile_append_dropWhile, List.reverse_reverse]

/-- What is read as an end tag is the open element's, with white space behind its name. -/
theorem exists_gap_of_next {name : String} {c : Char} {cs : List Char} {n : ℕ}
    (h : next names c cs = .ok (.endTag name, n)) :
    names = some name ∧ ∃ gap, (∀ c ∈ gap, isSpace c = true) ∧
      c :: cs.take n = '<' :: '/' :: (name.toList ++ gap ++ ['>']) := by
  rcases next_cases h with ⟨-, heq⟩ | ⟨rest, name', rfl, rfl, heq, hopen⟩ | ⟨-, -, hne⟩
  · cases heq
  · cases heq
    refine ⟨hopen, ?_⟩
    rw [next, if_pos rfl] at h
    simp only [readEnd] at h
    cases hcontent : tagContent? none rest with
    | none => rw [hcontent] at h; cases h
    | some content =>
      rw [hcontent, hopen] at h
      simp only at h
      split at h
      · next hname =>
        cases h
        obtain ⟨more, hrest⟩ := eq_of_tagContent? hcontent
        obtain ⟨gap, hgap, hsplit⟩ := exists_gap_of_endName hname
        refine ⟨gap, hgap, ?_⟩
        rw [List.take_succ_cons, take_of_eq_append (content ++ ['>']) more
          (by simp [hrest]) (by simp), hsplit]
      · cases h
  · exact absurd rfl (hne name)

end Token

end MavenPom.Markup
