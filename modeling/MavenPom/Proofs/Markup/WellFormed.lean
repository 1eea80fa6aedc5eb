import MavenPom.Proofs.Markup.Strict

/-!
# Well-formed documents to the lenient reader

The lenient reading of a well-formed document goes the same steps as the strict one, and meets
legible tokens only. Just the declaration may be longer than the lenient reader takes it to be.
-/

namespace MavenPom.Markup

open Strict

namespace Token

/-! ## All tokens -/

/-- The characters are read as legible tokens, wherever they stand. -/
def AllLegible (cs : List Char) : Prop :=
  ∀ names position, ∀ l ∈ (scanFrom names position cs).lexemes, l.token.Legible

theorem allLegible_cons {c : Char} {cs : List Char}
    (h : ∀ names token n, next names c cs = .ok (token, n) →
      token.Legible ∧ AllLegible (cs.drop n)) : AllLegible (c :: cs) := by
  intro names position l hl
  rw [scanFrom] at hl
  split at hl
  · cases hl
  · next token n hnext =>
    obtain ⟨htoken, hrest⟩ := h _ _ _ hnext
    rcases List.mem_cons.mp hl with rfl | hl
    · exact htoken
    · exact hrest _ _ l hl

theorem allLegible_of_tokens? {cs : List Char} {tokens : List Strict.Token}
    (h : Strict.tokens? cs = some tokens) : AllLegible cs := by
  induction hn : cs.length using Nat.strongRecOn generalizing cs tokens with
  | ind n ih =>
    cases cs with
    | nil =>
      intro names position l hl
      rw [scanFrom] at hl
      cases hl
    | cons c cs =>
      rw [Strict.tokens?] at h
      obtain ⟨⟨read, m⟩, hread, hmore⟩ := Option.bind_eq_some_iff.mp h
      obtain ⟨more, hrest, -⟩ := Option.map_eq_some_iff.mp hmore
      refine allLegible_cons fun names token m' hnext => ?_
      obtain ⟨rfl, htoken⟩ := legible_of_next hread hnext
      refine ⟨htoken, ih _ ?_ hrest rfl⟩
      rw [← hn, List.length_drop, List.length_cons]
      omega

/-- Characters that open nothing are a text, and run into the text that follows. -/
theorem allLegible_append {front cs : List Char} {tokens : List Strict.Token} (hfront : '<' ∉ front)
    (h : Strict.tokens? cs = some tokens) : AllLegible (front ++ cs) := by
  cases front with
  | nil => exact allLegible_of_tokens? h
  | cons c front =>
    obtain ⟨hc, hfront⟩ := not_or.mp fun h => hfront (List.mem_cons.mpr h)
    have hall : ∀ x ∈ front, (x != '<') = true := by
      intro x hx
      refine bne_iff_ne.mpr ?_
      rintro rfl
      exact hfront hx
    have htext : (front ++ cs).takeWhile (· != '<') = front ++ cs.takeWhile (· != '<') :=
      List.takeWhile_append_of_pos hall
    rw [List.cons_append]
    refine allLegible_cons fun names token n hnext => ?_
    unfold next at hnext
    rw [if_neg (Ne.symm hc)] at hnext
    cases hnext
    refine ⟨⟨by simp, ?_⟩, ?_⟩
    · rw [String.toList_ofList]
      intro hmem
      rcases List.mem_cons.mp hmem with heq | hmem
      · exact hc heq
      · have hne := List.mem_takeWhile_imp hmem
        simp at hne
    · rw [htext, List.length_append, ← List.drop_drop, List.drop_left]
      cases cs with
      | nil => exact allLegible_of_tokens? h
      | cons d ds =>
        by_cases hd : d = '<'
        · rw [hd, List.takeWhile_cons_of_neg (by simp), ← hd]
          exact allLegible_of_tokens? h
        · rw [Strict.tokens?] at h
          obtain ⟨⟨read, m⟩, hread, hmore⟩ := Option.bind_eq_some_iff.mp h
          obtain ⟨more, hrest, -⟩ := Option.map_eq_some_iff.mp hmore
          unfold Strict.next? at hread
          rw [if_neg hd] at hread
          obtain ⟨text, -, heq⟩ := Option.map_eq_some_iff.mp hread
          cases heq
          rw [List.takeWhile_cons_of_pos (by simpa using hd)]
          exact allLegible_of_tokens? hrest

end Token

/-! ## The declaration -/

namespace Strict

/-- `rest` follows characters in `cs` that open nothing. -/
def Follows (rest cs : List Char) : Prop := ∃ front, '<' ∉ front ∧ cs = front ++ rest

theorem Follows.refl (cs : List Char) : Follows cs cs := ⟨[], by simp, rfl⟩

theorem Follows.trans {cs rest rest' : List Char} (h : Follows rest cs) (h' : Follows rest' rest) :
    Follows rest' cs := by
  obtain ⟨front, hfront, rfl⟩ := h
  obtain ⟨more, hmore, rfl⟩ := h'
  refine ⟨front ++ more, ?_, (List.append_assoc ..).symm⟩
  rw [List.mem_append, not_or]
  exact ⟨hfront, hmore⟩

theorem follows_skipSpaces (cs : List Char) : Follows (skipSpaces cs) cs := by
  obtain ⟨spaces, hspaces, hcs⟩ := exists_spaces cs
  exact ⟨spaces, not_mem_of_isSpace (by decide) hspaces, hcs⟩

theorem follows_afterPseudoAttribute? {cs rest : List Char}
    (h : afterPseudoAttribute? cs = some rest) : Follows rest cs := by
  obtain ⟨⟨⟨name, value⟩, rest'⟩, hread, hsome⟩ := Option.bind_eq_some_iff.mp h
  obtain ⟨front, quote, hquote, hfront, rfl⟩ := eq_of_attribute? hread
  dsimp only at hsome
  split at hsome
  · next hvalue =>
    cases hsome
    have hopen : '<' ∉ value := by
      simp only [Bool.and_eq_true, Bool.not_eq_true', List.contains_eq_mem,
        decide_eq_false_iff_not] at hvalue
      exact hvalue.2
    refine ⟨front ++ quote :: (value ++ [quote]), ?_, by simp⟩
    simp only [List.mem_append, List.mem_cons, List.not_mem_nil, or_false, not_or]
    rcases hquote with rfl | rfl
    · exact ⟨hfront, by decide, hopen, by decide⟩
    · exact ⟨hfront, by decide, hopen, by decide⟩
  · cases hsome

theorem follows_afterGap? {cs rest : List Char} (h : afterGap? cs = some rest) :
    Follows rest cs := by
  unfold afterGap? at h
  split at h
  · cases h
    exact follows_skipSpaces cs
  · cases h

theorem follows_bind {cs rest : List Char}
    (h : (afterPseudoAttribute? cs).bind afterGap? = some rest) : Follows rest cs := by
  obtain ⟨more, hmore, hgap⟩ := Option.bind_eq_some_iff.mp h
  exact (follows_afterPseudoAttribute? hmore).trans (follows_afterGap? hgap)

/-- Nothing is opened in the declaration but the declaration itself. -/
theorem eq_of_afterDeclaration? {cs body : List Char} (h : afterDeclaration? cs = some body) :
    cs = body ∨ ∃ inside, '<' ∉ inside ∧
      cs = "<?xml ".toList ++ inside ++ "?>".toList ++ body := by
  unfold afterDeclaration? at h
  cases hopen : Text.strip? "<?xml ".toList cs with
  | none =>
    rw [hopen] at h
    cases h
    exact .inl rfl
  | some rest =>
    rw [hopen] at h
    obtain ⟨_, -, h⟩ := Option.bind_eq_some_iff.mp h
    obtain ⟨afterVersion, hversion, h⟩ := Option.bind_eq_some_iff.mp h
    obtain ⟨afterEncoding, hsecond, h⟩ : ∃ afterEncoding, Follows afterEncoding afterVersion ∧
        ((afterOptional? "standalone" afterEncoding).bind fun more =>
          Text.strip? "?>".toList (skipSpaces more)) = some body := by
      dsimp only at h
      split at h
      · obtain ⟨afterEncoding, hencoding, h⟩ := Option.bind_eq_some_iff.mp h
        exact ⟨afterEncoding, follows_bind hencoding, h⟩
      · exact ⟨afterVersion, .refl _, h⟩
    obtain ⟨afterStandalone, hstandalone, h⟩ := Option.bind_eq_some_iff.mp h
    have hfirst : Follows afterVersion rest :=
      (follows_skipSpaces rest).trans (follows_bind hversion)
    have hthird : Follows afterStandalone afterEncoding := by
      unfold afterOptional? at hstandalone
      split at hstandalone
      · exact follows_afterPseudoAttribute? hstandalone
      · cases hstandalone
        exact .refl _
    obtain ⟨inside, hinside, heq⟩ :=
      ((hfirst.trans hsecond).trans hthird).trans (follows_skipSpaces afterStandalone)
    refine .inr ⟨inside, hinside, ?_⟩
    rw [Text.strip?_eq_some_iff.mp hopen, heq, Text.strip?_eq_some_iff.mp h]
    simp only [List.append_assoc]

/-- A declaration may hold what ends it for the lenient reader. The rest of it is then a text. -/
theorem allLegible_declaration {inside body : List Char} {tokens : List Strict.Token}
    (hinside : '<' ∉ inside) (h : tokens? body = some tokens) :
    Token.AllLegible ("<?xml ".toList ++ inside ++ "?>".toList ++ body) := by
  have hopen : "<?xml ".toList ++ inside ++ "?>".toList ++ body =
      '<' :: '?' :: (("xml ".toList ++ inside) ++ "?>".toList ++ body) := rfl
  rw [hopen]
  refine Token.allLegible_cons fun names token n hnext => ?_
  obtain ⟨m, hread, rfl⟩ : ∃ m, Token.readInstruction
      (("xml ".toList ++ inside) ++ "?>".toList ++ body) = .ok (token, m) ∧ n = m + 1 := by
    rw [Token.next, if_pos rfl] at hnext
    revert hnext
    cases Token.readInstruction (("xml ".toList ++ inside) ++ "?>".toList ++ body) with
    | error e =>
      intro hnext
      cases hnext
    | ok x =>
      intro hnext
      cases hnext
      exact ⟨x.2, rfl, rfl⟩
  unfold Token.readInstruction at hread
  rw [if_neg (by simp)] at hread
  split at hread
  · cases hread
  · next content after hcut =>
    obtain ⟨more, hmore, hafter⟩ := Text.cut?_le (by decide) hcut
    have hlength : m = content.length + 2 := by
      cases hread
      rfl
    have hclosed : '<' ∉ more := by
      have hall : '<' ∉ ("xml ".toList ++ inside) ++ "?>".toList := by
        simp only [List.mem_append, not_or]
        exact ⟨⟨by decide, hinside⟩, by decide⟩
      rw [hmore] at hall
      exact fun hmem => hall (List.mem_append_right _ hmem)
    have hends := Text.endsAt_of_cut? (by decide) hcut
    refine ⟨?_, ?_⟩
    · have hhead : content.head? ≠ some '>' := by
        intro heq
        cases content with
        | nil => cases heq
        | cons c content =>
          have hfirst := congrArg List.head? hmore
          rw [Option.some.inj heq] at hfirst
          simp at hfirst
      cases hread
      exact Token.legible_instruction hhead hends
    · have hdrop : ('?' :: (("xml ".toList ++ inside) ++ "?>".toList ++ body)).drop (m + 1) =
          more ++ body := by
        rw [hlength, List.drop_succ_cons, Text.eq_of_cut? hcut, hafter, List.append_assoc]
        have htwo : content.length + 2 = (content ++ "?>".toList).length := by simp
        rw [← List.append_assoc, htwo, List.drop_left]
      rw [hdrop]
      exact Token.allLegible_append hclosed h

/-- Behind a byte order mark, a well-formed document begins with markup or white space. -/
theorem head_of_parseChars? {cs rest : List Char} {c : Char} {root : Node}
    (h : parseChars? cs = some root) (hcs : (Text.strip? ['\uFEFF'] cs).getD cs = c :: rest) :
    c = '<' ∨ isSpace c = true := by
  unfold parseChars? at h
  rw [hcs] at h
  obtain ⟨body, hbody, h⟩ := Option.bind_eq_some_iff.mp h
  obtain ⟨tokens, htokens, h⟩ := Option.bind_eq_some_iff.mp h
  obtain ⟨d, hd, -⟩ := Option.bind_eq_some_iff.mp h
  rcases eq_of_afterDeclaration? hbody with rfl | ⟨inside, hinside, hdeclaration⟩
  · rw [tokens?] at htokens
    obtain ⟨⟨read, m⟩, hread, hmore⟩ := Option.bind_eq_some_iff.mp htokens
    obtain ⟨more, -, rfl⟩ := Option.map_eq_some_iff.mp hmore
    unfold next? at hread
    by_cases hmarkup : c = '<'
    · exact .inl hmarkup
    · -- characters outside of all elements are white space
      rw [if_neg hmarkup] at hread
      obtain ⟨text, -, heq⟩ := Option.map_eq_some_iff.mp hread
      cases heq
      rw [List.foldlM_cons] at hd
      obtain ⟨d', hd', -⟩ := Option.bind_eq_some_iff.mp hd
      rw [Draft.take?] at hd'
      split at hd'
      · next hblank =>
        simp only [List.isEmpty_nil, Bool.true_and, String.toList_ofList, List.all_cons,
          Bool.and_eq_true] at hblank
        exact .inr hblank.1
      · simp [Draft.add?] at hd'
  · exact .inl (by simpa using congrArg List.head? hdeclaration)

/-- All tokens of a well-formed document are legible, and it does not begin with a second byte
    order mark. -/
theorem legible_of_parseChars? {cs : List Char} {root : Node} (h : parseChars? cs = some root) :
    Token.AllLegible ((Text.strip? ['\uFEFF'] cs).getD cs) ∧
      ((Text.strip? ['\uFEFF'] cs).getD cs).head? ≠ some '\uFEFF' := by
  refine ⟨?_, fun hmark => ?_⟩
  · unfold parseChars? at h
    generalize (Text.strip? ['\uFEFF'] cs).getD cs = cs at h ⊢
    obtain ⟨body, hbody, h⟩ := Option.bind_eq_some_iff.mp h
    obtain ⟨tokens, htokens, -⟩ := Option.bind_eq_some_iff.mp h
    rcases eq_of_afterDeclaration? hbody with rfl | ⟨inside, hinside, rfl⟩
    · exact Token.allLegible_of_tokens? htokens
    · exact allLegible_declaration hinside htokens
  · obtain ⟨rest, hrest⟩ := List.head?_eq_some_iff.mp hmark
    rcases head_of_parseChars? h hrest with hmarkup | hspace
    · exact absurd hmarkup (by decide)
    · exact absurd hspace (by decide)

end Strict

end MavenPom.Markup
