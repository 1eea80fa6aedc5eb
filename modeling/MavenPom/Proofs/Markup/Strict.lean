import MavenPom.Proofs.Markup.Legible
import Mathlib.Data.List.TakeWhile

/-!
# Tokens of well-formed documents to the lenient reader

Where the strict reader takes a token, the lenient one takes the same characters, and what it makes
of them is legible.
-/

namespace MavenPom.Markup

open Strict

namespace Strict

theorem isNameChar_eq_false_of_isSpace {c : Char} (h : isSpace c = true) :
    isNameChar c = false := by
  simp only [isSpace, Bool.or_eq_true, beq_iff_eq] at h
  rcases h with ((rfl | rfl) | rfl) | rfl <;> decide

theorem forall_isNameChar_takeWhile {cs : List Char} :
    ∀ c ∈ cs.takeWhile isNameChar, isNameChar c = true := fun _ hc => List.mem_takeWhile_imp hc

theorem not_mem_of_isNameChar {cs : List Char} {c : Char} (hc : isNameChar c = false)
    (h : ∀ x ∈ cs, isNameChar x = true) : c ∉ cs := by
  intro hmem
  rw [h c hmem] at hc
  cases hc

theorem not_mem_of_isSpace {cs : List Char} {c : Char} (hc : isSpace c = false)
    (h : ∀ x ∈ cs, isSpace x = true) : c ∉ cs := by
  intro hmem
  rw [h c hmem] at hc
  cases hc

theorem exists_spaces (cs : List Char) :
    ∃ spaces, (∀ c ∈ spaces, isSpace c = true) ∧ cs = spaces ++ skipSpaces cs :=
  ⟨cs.takeWhile isSpace, fun _ hc => List.mem_takeWhile_imp hc,
    (List.takeWhile_append_dropWhile ..).symm⟩

theorem exists_head_of_qName? {cs : List Char} {q : QName} (h : qName? cs = some q) :
    ∃ c rest, cs = c :: rest ∧ isNameStart c = true := by
  unfold qName? at h
  cases hcut : Text.cut? [':'] cs with
  | none =>
    rw [hcut] at h
    simp only [Option.getD_none] at h
    cases cs with
    | nil => simp at h
    | cons c rest =>
      refine ⟨c, rest, rfl, ?_⟩
      by_contra hne
      simp [hne] at h
  | some parts =>
    obtain ⟨space, name⟩ := parts
    have hcs := Text.eq_of_cut? hcut
    rw [hcut] at h
    simp only [Option.getD_some] at h
    cases space with
    | nil => exact ⟨':', name, by simpa using hcs, by decide⟩
    | cons c space =>
      refine ⟨c, space ++ [':'] ++ name, by simpa using hcs, ?_⟩
      by_contra hne
      simp [hne] at h

/-- An attribute is written with one of the two quotes around its value, and nothing opens a tag
    before them. -/
theorem eq_of_attribute? {cs name value rest : List Char}
    (h : attribute? cs = some ((name, value), rest)) :
    ∃ front quote, (quote = '"' ∨ quote = '\'') ∧ '<' ∉ front ∧
      cs = front ++ quote :: (value ++ quote :: rest) := by
  unfold attribute? splitName at h
  simp only at h
  split at h
  · next afterEquals hequals =>
    obtain ⟨before, hbefore, hsplit⟩ := exists_spaces (cs.dropWhile isNameChar)
    obtain ⟨between, hbetween, hsplit'⟩ := exists_spaces afterEquals
    split at h
    · next quote body hquote =>
      split at h
      · next hmark =>
        obtain ⟨⟨value', rest'⟩, hcut, heq⟩ := Option.map_eq_some_iff.mp h
        cases heq
        refine ⟨cs.takeWhile isNameChar ++ before ++ '=' :: between, quote, hmark, ?_, ?_⟩
        · simp only [List.mem_append, List.mem_cons, not_or]
          exact ⟨⟨not_mem_of_isNameChar (by decide) forall_isNameChar_takeWhile,
            not_mem_of_isSpace (by decide) hbefore⟩, by decide,
            not_mem_of_isSpace (by decide) hbetween⟩
        · rw [hequals] at hsplit
          rw [hquote, Text.eq_of_cut? hcut] at hsplit'
          calc cs = cs.takeWhile isNameChar ++ cs.dropWhile isNameChar :=
                (List.takeWhile_append_dropWhile ..).symm
            _ = _ := by rw [hsplit, hsplit']; simp
      · cases h
    · cases h
  · cases h

theorem endsQuoted_of_attributes? {cs : List Char} {attributes : List Attribute}
    (h : attributes? cs = some attributes) : EndsQuoted cs := by
  induction hn : cs.length using Nat.strongRecOn generalizing cs attributes with
  | ind n ih =>
    obtain ⟨spaces, hspaces, hcs⟩ := exists_spaces cs
    rw [attributes?] at h
    split at h
    · next hskip =>
      rw [hskip, List.append_nil] at hcs
      exact ⟨[], spaces, hcs, hspaces, by simp⟩
    · next c rest hskip =>
      split at h
      · cases h
      · split at h
        · cases h
        · next name value after hread =>
          split at h
          · next q v more hname hvalue hmore =>
            obtain ⟨front, quote, hquote, -, heq⟩ := eq_of_attribute? hread
            have hlength := attribute?_length_lt hread
            have hshort : after.length < n := by
              have := congrArg List.length hcs
              rw [List.length_append, hskip] at this
              omega
            obtain ⟨front', spaces', hafter, hspaces', hlast⟩ := ih after.length hshort hmore rfl
            refine ⟨spaces ++ front ++ quote :: (value ++ quote :: front'), spaces', ?_, hspaces',
              ?_⟩
            · rw [hcs, hskip, heq, hafter]
              simp
            · intro d hd
              cases hback : front'.getLast? with
              | none =>
                obtain rfl := List.getLast?_eq_none_iff.mp hback
                have hd : d = quote := by
                  simpa [List.getLast?_append, List.getLast?_cons, eq_comm] using hd
                exact hd ▸ hquote
              | some last =>
                have hd : d = last := by
                  simpa [List.getLast?_append, List.getLast?_cons, hback, eq_comm] using hd
                exact hlast d (hd ▸ hback)
          · cases h

theorem head?_of_attributes? {cs : List Char} {attributes : List Attribute}
    (h : attributes? cs = some attributes) : ∀ c ∈ cs.head?, isSpace c = true := by
  intro c hc
  obtain ⟨rest, rfl⟩ : ∃ rest, cs = c :: rest := by
    cases cs with
    | nil => cases hc
    | cons d rest => exact ⟨rest, by rw [Option.some.inj hc]⟩
  rw [attributes?] at h
  split at h
  · next hskip =>
    unfold skipSpaces at hskip
    exact List.dropWhile_eq_nil_iff.mp hskip c (List.mem_cons_self ..)
  · split at h
    · cases h
    · next hspace => simpa using hspace

/-- The inside of a well-formed tag is a name, what follows it, and a slash if the tag is an empty
    one. -/
structure Inside (content name rest : List Char) : Prop where
  eq : content = name ++ rest ∨ content = name ++ rest ++ ['/']
  closed_iff : content = name ++ rest ↔ content.getLast? ≠ some '/'
  last_ne : (name ++ rest).getLast? ≠ some '/'
  name_ne : name ≠ []
  name_chars : ∀ c ∈ name, isNameChar c = true
  rest_head : ∀ c ∈ rest.head?, isSpace c = true
  rest_end : EndsQuoted rest

theorem exists_inside_of_tag? {content : List Char} {token : Strict.Token}
    (h : tag? content = some token) : ∃ name rest, Inside content name rest := by
  unfold tag? splitName at h
  simp only at h
  split at h
  · next name attributes hname hattributes =>
    generalize hbody : (if content.getLast? = some '/' then content.dropLast else content) = body
      at hname hattributes
    have hsplit := List.takeWhile_append_dropWhile (p := isNameChar) (l := body)
    obtain ⟨c, more, hhead, -⟩ := exists_head_of_qName? hname
    have hends := endsQuoted_of_attributes? hattributes
    have hlast : body.getLast? ≠ some '/' := by
      rw [← hsplit, List.getLast?_append]
      intro heq
      rcases Option.or_eq_some_iff.mp heq with heq | ⟨-, heq⟩
      · exact hends.getLast?_ne heq
      · exact not_mem_of_isNameChar (by decide) forall_isNameChar_takeWhile
          (List.mem_of_getLast? heq)
    refine ⟨body.takeWhile isNameChar, body.dropWhile isNameChar, ?_, ?_, by rwa [hsplit],
      by simp [hhead], forall_isNameChar_takeWhile, head?_of_attributes? hattributes, hends⟩
    · rw [hsplit]
      split at hbody
      · next hslash =>
        refine .inr ?_
        rw [← hbody]
        exact (List.dropLast_append_getLast? _ hslash).symm
      · exact .inl hbody
    · rw [hsplit]
      refine ⟨fun heq => heq ▸ hlast, fun hne => ?_⟩
      rwa [if_neg hne] at hbody
  · cases h

namespace Inside

variable {content name rest : List Char}

theorem exists_head (h : Inside content name rest) :
    ∃ c more, name = c :: more ∧ content.head? = some c := by
  obtain ⟨c, more, hname⟩ := List.exists_cons_of_ne_nil h.name_ne
  refine ⟨c, more, hname, ?_⟩
  rcases h.eq with heq | heq <;> simp [heq, hname]

/-- A name ends at the first white space. -/
theorem takeWhile_eq (h : Inside content name rest) :
    (name ++ rest).takeWhile (fun c => !isSpace c) = name := by
  have hname : ∀ c ∈ name, (!isSpace c) = true := by
    intro c hc
    cases hspace : isSpace c with
    | false => rfl
    | true =>
      have := h.name_chars c hc
      rw [isNameChar_eq_false_of_isSpace hspace] at this
      cases this
  rw [List.takeWhile_append_of_pos hname]
  cases hrest : rest with
  | nil => simp
  | cons c more =>
    have hc := h.rest_head c (by simp [hrest])
    simp [hc]

end Inside

end Strict

/-! ## One token -/

namespace Token

theorem inside_tagOf (content : List Char) : (tagOf content).inside = content := by
  simp only [Tag.inside, tagOf, skipWord, String.toList_ofList]
  exact List.takeWhile_append_dropWhile ..

theorem tagOf_append {content name rest : List Char} (h : Strict.Inside content name rest) :
    tagOf (name ++ rest) = ⟨String.ofList name, String.ofList rest⟩ := by
  have hsplit := List.takeWhile_append_dropWhile (p := fun c => !isSpace c) (l := name ++ rest)
  rw [h.takeWhile_eq] at hsplit
  rw [tagOf, h.takeWhile_eq, skipWord, List.append_cancel_left hsplit]

/-- A tag of a well-formed document is legible. -/
theorem legible_ofTagContent {content rest : List Char} {token : Strict.Token}
    (hcontent : tagContent? none (content ++ rest) = some content)
    (htag : Strict.tag? content = some token) : (ofTagContent content).Legible := by
  obtain ⟨name, body, hinside⟩ := Strict.exists_inside_of_tag? htag
  have hlegible : ∀ rest, tagContent? none (name ++ body ++ '>' :: rest) = some (name ++ body) := by
    intro rest'
    rcases hinside.eq with heq | heq
    · rw [← heq]
      exact tagContent?_append hcontent rest'
    · have hclosed := tagContent?_append hcontent []
      rw [heq, List.append_assoc, List.singleton_append] at hclosed
      exact tagContent?_of_slash (by simp) hclosed
  have htagOf : (tagOf (name ++ body)).Legible := by
    obtain ⟨c, more, hname, -⟩ := hinside.exists_head
    have hc := hinside.name_chars c (by rw [hname]; exact List.mem_cons_self ..)
    rw [tagOf_append hinside]
    refine ⟨⟨c, more, by rw [String.toList_ofList, hname], ?_, ?_, ?_⟩, ?_, ?_, ?_, ?_, ?_⟩
    · rintro rfl
      revert hc
      decide
    · rintro rfl
      revert hc
      decide
    · rintro rfl
      revert hc
      decide
    · rw [String.toList_ofList]
      exact hinside.name_chars
    · rw [String.toList_ofList]
      exact hinside.rest_head
    · rw [String.toList_ofList]
      exact hinside.rest_end
    · simpa only [Tag.inside, String.toList_ofList] using hlegible
    · simpa only [Tag.inside, String.toList_ofList] using hinside.last_ne
  unfold ofTagContent
  split
  · next hslash =>
    have hne : content ≠ name ++ body := fun heq => hinside.closed_iff.mp heq hslash
    rw [hinside.eq.resolve_left hne, List.dropLast_concat]
    exact htagOf
  · next hslash =>
    rw [hinside.closed_iff.mpr hslash]
    exact htagOf

variable {names : Option String} {token : Token} {read : Strict.Token} {cs : List Char} {n n' : ℕ}

theorem legible_of_readBang (hstrict : Strict.bang? cs = some (read, n))
    (h : readBang cs = .ok (token, n')) : n' = n ∧ token.Legible := by
  unfold Strict.bang? at hstrict
  cases hdashes : Text.strip? "--".toList cs with
  | some body =>
    rw [hdashes] at hstrict
    obtain ⟨⟨content, after⟩, hcut, hsome⟩ := Option.bind_eq_some_iff.mp hstrict
    have hcs : cs = '-' :: '-' :: body := Text.strip?_eq_some_iff.mp hdashes
    dsimp only at hsome
    split at hsome
    · cases hsome
      rw [hcs, readBang, ← hcs, hdashes, Option.bind_some, hcut] at h
      cases h
      refine ⟨rfl, ?_⟩
      show Text.EndsAt "-->".toList (String.ofList content).toList
      rw [String.toList_ofList (l := content)]
      exact Text.endsAt_of_cut? (by decide) hcut
    · cases hsome
  | none =>
    rw [hdashes] at hstrict
    obtain ⟨⟨content, after⟩, hcut, hsome⟩ := Option.bind_eq_some_iff.mp hstrict
    obtain ⟨text, htext, heq⟩ := Option.map_eq_some_iff.mp hsome
    cases heq
    obtain ⟨body, hbody, hcut'⟩ := Option.bind_eq_some_iff.mp hcut
    obtain ⟨more, hcs⟩ : ∃ more, cs = '[' :: more :=
      ⟨_, Text.strip?_eq_some_iff.mp hbody⟩
    rw [hcs, readBang, ← hcs, hbody, Option.bind_some, hcut'] at h
    cases h
    refine ⟨rfl, ?_⟩
    show Text.EndsAt "]]>".toList (String.ofList content).toList
    rw [String.toList_ofList (l := content)]
    exact Text.endsAt_of_cut? (by decide) hcut'

theorem cut?_append_of_not_mem (mark cs : List Char) {front : List Char} {m : Char}
    (hmark : mark.head? = some m) (hfront : m ∉ front) :
    Text.cut? mark (front ++ cs) =
      (Text.cut? mark cs).map fun parts => (front ++ parts.1, parts.2) := by
  induction front with
  | nil =>
    rw [List.nil_append]
    cases Text.cut? mark cs <;> rfl
  | cons c front ih =>
    obtain ⟨hne, hfront⟩ := not_or.mp fun h => hfront (List.mem_cons.mpr h)
    cases mark with
    | nil => cases hmark
    | cons m' mark =>
      cases hmark
      have hstrip : Text.strip? (m :: mark) (c :: (front ++ cs)) = none := by
        rw [Text.strip?, if_neg hne]
      rw [List.cons_append, Text.cut?, hstrip, ih hfront]
      cases Text.cut? (m :: mark) cs <;> rfl

/-- What the lenient reader makes of the inside of an instruction. -/
theorem legible_instruction {content : List Char} (hhead : content.head? ≠ some '>')
    (hends : Text.EndsAt "?>".toList content) :
    (if isDeclaration content then Token.declaration (String.ofList content)
      else .instruction (String.ofList content)).Legible := by
  split
  · next h =>
    show isDeclaration (String.ofList content).toList = true ∧ _
    rw [String.toList_ofList]
    exact ⟨h, hhead, hends⟩
  · next h =>
    show isDeclaration (String.ofList content).toList = false ∧ _
    rw [String.toList_ofList]
    exact ⟨by simpa using h, hhead, hends⟩

theorem legible_of_readInstruction (hstrict : Strict.instruction? cs = some (read, n))
    (h : readInstruction cs = .ok (token, n')) : n' = n ∧ token.Legible := by
  unfold Strict.instruction? Strict.splitName at hstrict
  simp only at hstrict
  split at hstrict
  · cases hstrict
  · obtain ⟨⟨content, after⟩, hcut, hsome⟩ := Option.bind_eq_some_iff.mp hstrict
    dsimp only at hsome
    split at hsome
    · cases hsome
      have hquestion : '?' ∉ cs.takeWhile Strict.isNameChar :=
        Strict.not_mem_of_isNameChar (by decide) Strict.forall_isNameChar_takeWhile
      have hwhole := cut?_append_of_not_mem "?>".toList (cs.dropWhile Strict.isNameChar) rfl
        hquestion
      rw [List.takeWhile_append_dropWhile, hcut] at hwhole
      have hends := Text.endsAt_of_cut? (by decide) hwhole
      unfold readInstruction at h
      split at h
      · cases h
      · next content' after' hread =>
        split at hread
        · cases hread
        · next hhead =>
          rw [hwhole] at hread
          cases hread
          have hfirst : (cs.takeWhile Strict.isNameChar ++ content).head? ≠ some '>' := by
            intro heq
            apply hhead
            rw [Text.eq_of_cut? hwhole, List.append_assoc]
            cases hparts : cs.takeWhile Strict.isNameChar ++ content with
            | nil => rw [hparts] at heq; cases heq
            | cons c more => rw [hparts] at heq; exact heq
          cases h
          exact ⟨by simp only [List.length_append], legible_instruction hfirst hends⟩
    · cases hsome

theorem legible_of_readEnd {content after : List Char}
    (hcut : Text.cut? ['>'] cs = some (content, after))
    (hstrict : Strict.endTag? content = some read)
    (h : readEnd names cs = .ok (token, n')) : n' = content.length + 1 ∧ token.Legible := by
  unfold Strict.endTag? Strict.splitName at hstrict
  simp only at hstrict
  split at hstrict
  · next hskip =>
    obtain ⟨spaces, hspaces, hrest⟩ := Strict.exists_spaces (content.dropWhile Strict.isNameChar)
    rw [hskip, List.append_nil] at hrest
    have hplain : ∀ c ∈ content, c ≠ '>' ∧ c ≠ '"' ∧ c ≠ '\'' := by
      have hnot : ∀ x : Char, Strict.isNameChar x = false → isSpace x = false → x ∉ content := by
        intro x hname hspace hmem
        rw [← List.takeWhile_append_dropWhile (p := Strict.isNameChar) (l := content), hrest,
          List.mem_append] at hmem
        rcases hmem with hmem | hmem
        · exact Strict.not_mem_of_isNameChar hname Strict.forall_isNameChar_takeWhile hmem
        · exact Strict.not_mem_of_isSpace hspace hspaces hmem
      intro c hc
      refine ⟨?_, ?_, ?_⟩
      · rintro rfl
        exact hnot _ (by decide) (by decide) hc
      · rintro rfl
        exact hnot _ (by decide) (by decide) hc
      · rintro rfl
        exact hnot _ (by decide) (by decide) hc
    have hcontent : tagContent? none cs = some content := by
      rw [Text.eq_of_cut? hcut, List.append_assoc, List.singleton_append]
      exact tagContent?_append_of_not_mem hplain
    rw [readEnd, hcontent] at h
    cases names with
    | none => cases h
    | some expected =>
      simp only at h
      split at h
      · cases h
        exact ⟨rfl, trivial⟩
      · cases h
  · cases hstrict

/-- Both readers take the same characters for a token. -/
theorem legible_of_next {c : Char} (hstrict : Strict.next? c cs = some (read, n))
    (h : next names c cs = .ok (token, n')) : n' = n ∧ token.Legible := by
  have hmap : ∀ {r : Except Breach (Token × ℕ)},
      (r.map fun x => (x.1, x.2 + 1)) = .ok (token, n') →
        ∃ m, r = .ok (token, m) ∧ n' = m + 1 := by
    intro r hr
    cases r with
    | error e => cases hr
    | ok x =>
      cases hr
      exact ⟨x.2, rfl, rfl⟩
  unfold Strict.next? at hstrict
  unfold next at h
  split at hstrict
  · next hopen =>
    rw [if_pos hopen] at h
    split at hstrict
    · cases hstrict
    · obtain ⟨⟨read', m⟩, hread, heq⟩ := Option.map_eq_some_iff.mp hstrict
      cases heq
      obtain ⟨m', hr, rfl⟩ := hmap h
      obtain ⟨rfl, hlegible⟩ := legible_of_readBang hread hr
      exact ⟨rfl, hlegible⟩
    · obtain ⟨⟨read', m⟩, hread, heq⟩ := Option.map_eq_some_iff.mp hstrict
      cases heq
      obtain ⟨m', hr, rfl⟩ := hmap h
      obtain ⟨rfl, hlegible⟩ := legible_of_readInstruction hread hr
      exact ⟨rfl, hlegible⟩
    · obtain ⟨⟨content, after⟩, hcut, hsome⟩ := Option.bind_eq_some_iff.mp hstrict
      obtain ⟨read', hread, heq⟩ := Option.map_eq_some_iff.mp hsome
      cases heq
      obtain ⟨m', hr, rfl⟩ := hmap h
      obtain ⟨rfl, hlegible⟩ := legible_of_readEnd hcut hread hr
      exact ⟨rfl, hlegible⟩
    · next hbang hquestion hslash =>
      obtain ⟨content, hcontent, hsome⟩ := Option.bind_eq_some_iff.mp hstrict
      obtain ⟨read', hread, heq⟩ := Option.map_eq_some_iff.mp hsome
      cases heq
      obtain ⟨rest, hcs⟩ := eq_of_tagContent? hcontent
      split at h
      · cases h
      · exact absurd rfl (hbang _)
      · exact absurd rfl (hquestion _)
      · exact absurd rfl (hslash _)
      · rw [hcontent] at h
        cases h
        exact ⟨rfl, legible_ofTagContent (hcs ▸ hcontent) hread⟩
  · next hopen =>
    rw [if_neg hopen] at h
    obtain ⟨text, htext, heq⟩ := Option.map_eq_some_iff.mp hstrict
    cases heq
    cases h
    refine ⟨rfl, ?_, ?_⟩
    · simp
    · rw [String.toList_ofList]
      intro hmem
      rcases List.mem_cons.mp hmem with heq | hmem
      · exact hopen heq.symm
      · have := List.mem_takeWhile_imp hmem
        simp at this

end Token

end MavenPom.Markup
