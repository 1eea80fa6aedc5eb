import MavenPom.Proofs.Markup.Outline

/-!
# Texts that run together

Texts of a tree that follow one another are read as one when the tree has been written. Where at
most one of them holds a reference, or all references have a meaning, the element around them keeps
its text.
-/

namespace MavenPom.Markup

/-! ## Texts without references -/

/-- The text stands for itself, and so it does in front of other texts and behind them. -/
def Plain (raw : String) : Prop := ∀ c ∈ raw.toList, isReferenceChar c = true

theorem Plain.append {raw more : String} (h : Plain raw) (h' : Plain more) :
    Plain (raw ++ more) := by
  intro c hc
  rw [String.toList_append] at hc
  rcases List.mem_append.mp hc with hc | hc
  · exact h c hc
  · exact h' c hc

section Expand

variable {rule : List Char → Option Char} {plain : List Char}

theorem expand_cons {c : Char} (hc : isReferenceChar c = true) (cs : List Char) :
    expand rule (c :: cs) = (expand rule cs).map ((c, false) :: ·) := by
  have hne : c ≠ '&' := by
    rintro rfl
    cases hc
  rw [expand, if_neg hne]

theorem expand_of_plain (hplain : ∀ c ∈ plain, isReferenceChar c = true) :
    expand rule plain = some (plain.map (·, false)) := by
  induction plain with
  | nil => rw [expand]; rfl
  | cons c plain ih =>
    obtain ⟨hc, hplain⟩ := List.forall_mem_cons.mp hplain
    rw [expand_cons hc, ih hplain]
    rfl

/-- A reference that ends is read in the same way, whatever follows. -/
theorem span_append {p : Char → Bool} {cs rest : List Char} {d : Char}
    (h : cs.dropWhile p = d :: rest) (more : List Char) :
    (cs ++ more).takeWhile p = cs.takeWhile p ∧ (cs ++ more).dropWhile p = d :: rest ++ more := by
  constructor
  · rw [List.takeWhile_append, if_neg]
    intro hall
    have heq := List.Sublist.eq_of_length (List.takeWhile_sublist _) hall
    rw [List.takeWhile_eq_self_iff] at heq
    rw [List.dropWhile_eq_nil_iff.mpr heq] at h
    cases h
  · rw [List.dropWhile_append, h]
    rfl

/-- A text whose references have a meaning keeps it in front of other texts. -/
theorem expand_append {cs : List Char} {marked : List (Char × Bool)}
    (h : expand rule cs = some marked)
    (more : List Char) : expand rule (cs ++ more) = (expand rule more).map (marked ++ ·) := by
  induction hn : cs.length using Nat.strongRecOn generalizing cs marked with
  | ind n ih =>
    cases cs with
    | nil =>
      rw [expand] at h
      cases h
      simp
    | cons c cs =>
      rw [List.length_cons] at hn
      rw [expand] at h
      rw [List.cons_append, expand]
      split at h
      · next hc =>
        rw [if_pos hc]
        split at h
        · next r rest hrule hrest =>
          obtain ⟨tail, htail, rfl⟩ := Option.map_eq_some_iff.mp h
          obtain ⟨htake, hdrop⟩ := span_append hrest more
          have hshort := (List.dropWhile_sublist isReferenceChar (l := cs)).length_le
          rw [hrest, List.length_cons] at hshort
          rw [hrest, List.drop_succ_cons, List.drop_zero] at htail
          simp only [htake, hdrop, hrule, List.cons_append, List.drop_succ_cons, List.drop_zero,
            ih _ (by omega) htail rfl, Option.map_map]
          rfl
        · cases h
      · next hc =>
        obtain ⟨tail, htail, rfl⟩ := Option.map_eq_some_iff.mp h
        rw [if_neg hc, ih _ (by omega) htail rfl, Option.map_map]
        rfl

theorem expand_append_plain (hplain : ∀ c ∈ plain, isReferenceChar c = true) (cs : List Char) :
    expand rule (cs ++ plain) = (expand rule cs).map (· ++ plain.map (·, false)) := by
  induction hn : cs.length using Nat.strongRecOn generalizing cs with
  | ind n ih =>
    cases cs with
    | nil => simp [expand_of_plain hplain, expand]
    | cons c cs =>
      have hlength : cs.length < n := by rw [← hn, List.length_cons]; exact Nat.lt_succ_self _
      by_cases hc : c = '&'
      · -- The reference ends within `cs`, or it has no end at all.
        rw [List.cons_append, expand, expand, if_pos hc, if_pos hc]
        cases hrest : cs.dropWhile isReferenceChar with
        | nil =>
          have hall := List.dropWhile_eq_nil_iff.mp hrest
          have hnil : (cs ++ plain).dropWhile isReferenceChar = [] := by
            rw [List.dropWhile_append_of_pos hall]
            exact List.dropWhile_eq_nil_iff.mpr hplain
          rw [hnil]
          cases rule (cs.takeWhile isReferenceChar) <;>
            cases rule ((cs ++ plain).takeWhile isReferenceChar) <;> rfl
        | cons d rest =>
          obtain ⟨htake, hdrop⟩ := span_append hrest plain
          have hshort : rest.length < n := by
            have := (List.dropWhile_sublist isReferenceChar (l := cs)).length_le
            rw [hrest, List.length_cons] at this
            omega
          rw [htake, hdrop]
          cases rule (cs.takeWhile isReferenceChar) with
          | none => rfl
          | some r =>
            by_cases hd : d = ';'
            · subst hd
              simp only [List.cons_append, List.drop_succ_cons, List.drop_zero,
                ih _ hshort rest rfl, Option.map_map]
              rfl
            · simp only [List.cons_append]
              split
              · next heq => exact absurd (List.cons.inj heq).1 hd
              · split
                · next heq => exact absurd (List.cons.inj heq).1 hd
                · rfl
      · rw [List.cons_append, expand, expand, if_neg hc, if_neg hc, ih _ hlength cs rfl,
          Option.map_map, Option.map_map]
        rfl

end Expand

theorem Plain.unescape_eq {raw : String} (h : Plain raw) : unescape raw = some raw := by
  rw [unescape, expand_of_plain h]
  simp [Function.comp_def]

theorem unescape_append {raw read : String} (h : unescape raw = some read) (more : String) :
    unescape (raw ++ more) = (unescape more).map (read ++ ·) := by
  obtain ⟨marked, hmarked, rfl⟩ := Option.map_eq_some_iff.mp h
  rw [unescape, String.toList_append, expand_append hmarked, unescape, Option.map_map,
    Option.map_map]
  congr 1
  funext marked'
  apply String.toList_injective
  simp

/-- Texts whose references all have a meaning mean the same as one text. -/
theorem ownText_append_of_isSome {raw more : String} (h : (unescape raw).isSome = true)
    (h' : (unescape more).isSome = true) :
    Tree.ownText (.text (raw ++ more)) = Tree.ownText (.text raw) ++ Tree.ownText (.text more) := by
  obtain ⟨read, hread⟩ := Option.isSome_iff_exists.mp h
  obtain ⟨read', hread'⟩ := Option.isSome_iff_exists.mp h'
  simp [Tree.ownText, unescape_append hread, hread, hread']

theorem ownText_append {raw more : String} (h : Plain raw ∨ Plain more) :
    Tree.ownText (.text (raw ++ more)) = Tree.ownText (.text raw) ++ Tree.ownText (.text more) := by
  rw [Tree.ownText, Tree.ownText, Tree.ownText]
  rcases h with h | h
  · rw [unescape_append h.unescape_eq, h.unescape_eq]
    cases unescape more <;> rfl
  · rw [h.unescape_eq, unescape, unescape, String.toList_append, expand_append_plain h]
    cases expand referent? raw.toList with
    | none => rfl
    | some marked =>
      apply String.toList_injective
      simp [Function.comp_def]

/-! ## Joining texts -/

/-- The token is legible, but for a text that may be empty. -/
def Token.Rough : Token → Prop
  | .text raw => '<' ∉ raw.toList
  | token => token.Legible

theorem Token.Legible.rough {token : Token} (h : token.Legible) : token.Rough := by
  cases token with
  | text raw => exact h.2
  | _ => exact h

namespace Writing

/-- The writing behind a text, which runs into a text that comes first. -/
def afterText (raw : String) : Writing → Writing
  | .leaf (.text more) rest => .leaf (.text (raw ++ more)) rest
  | w => if raw = "" then w else .leaf (.text raw) w

/-- The writing with each run of texts as one. -/
def joined : Writing → Writing
  | .nil => .nil
  | .leaf (.text raw) rest => rest.joined.afterText raw
  | .leaf token rest => .leaf token rest.joined
  | .empty tag rest => .empty tag rest.joined
  | .pair tag inside gap rest => .pair tag inside.joined gap rest.joined

/-- A writing that is not legible only where texts are empty or follow one another. -/
def Rough : Writing → Prop
  | .nil => True
  | .leaf token rest => token.isLeaf = true ∧ token.Rough ∧ rest.Rough
  | .empty tag rest => tag.Legible ∧ rest.Rough
  | .pair tag inside gap rest =>
    tag.Legible ∧ inside.Rough ∧ (∀ c ∈ gap, isSpace c = true) ∧ rest.Rough

/-- All texts in a writing before other markup hold no references. -/
def StartsPlain : Writing → Prop
  | .leaf (.text raw) rest => Plain raw ∧ rest.StartsPlain
  | _ => True

/-- Of texts that follow one another, at most one holds references. -/
def Sparse : Writing → Prop
  | .nil => True
  | .leaf (.text raw) rest => (Plain raw ∨ rest.StartsPlain) ∧ rest.Sparse
  | .leaf _ rest => rest.Sparse
  | .empty _ rest => rest.Sparse
  | .pair _ inside _ rest => inside.Sparse ∧ rest.Sparse

/-- All references in texts have a meaning. -/
def Resolves : Writing → Prop
  | .nil => True
  | .leaf (.text raw) rest => (unescape raw).isSome = true ∧ rest.Resolves
  | .leaf _ rest => rest.Resolves
  | .empty _ rest => rest.Resolves
  | .pair _ inside _ rest => inside.Resolves ∧ rest.Resolves

/-- Each text means the same when it runs into the texts behind it. -/
def Seamless : Writing → Prop
  | .nil => True
  | .leaf (.text raw) rest =>
    (∀ more tail, rest.joined = .leaf (.text more) tail →
      Tree.ownText (.text (raw ++ more)) = Tree.ownText (.text raw) ++ Tree.ownText (.text more)) ∧
      rest.Seamless
  | .leaf _ rest => rest.Seamless
  | .empty _ rest => rest.Seamless
  | .pair _ inside _ rest => inside.Seamless ∧ rest.Seamless

variable {w : Writing}

theorem chars_afterText (raw : String) (w : Writing) :
    (w.afterText raw).chars = raw.toList ++ w.chars := by
  unfold afterText
  split
  · simp [chars, Token.spelling, Tree.leafText]
  · split
    · next hempty => rw [hempty]; rfl
    · rfl

theorem joined_leaf {token : Token} (h : token.isText = false) (rest : Writing) :
    (leaf token rest).joined = .leaf token rest.joined := by
  cases token with
  | text raw => cases h
  | _ => rfl

/-- Joining texts does not show in what is written. -/
theorem chars_joined (w : Writing) : w.joined.chars = w.chars := by
  induction w with
  | nil => rfl
  | leaf token rest ih =>
    cases token with
    | text raw => rw [joined, chars_afterText, ih]; rfl
    | _ => rw [joined_leaf rfl, chars, ih]; rfl
  | empty tag rest ih => rw [joined, chars, ih, chars]
  | pair tag inside gap rest ihinside ihrest => rw [joined, chars, ihinside, ihrest, chars]

theorem legible_afterText {raw : String} (hw : w.Legible) (hraw : '<' ∉ raw.toList) :
    (w.afterText raw).Legible := by
  unfold afterText
  split
  · next more rest =>
    obtain ⟨hleaf, ⟨hne, hopen⟩, htext, hrest⟩ := hw
    refine ⟨rfl, ⟨?_, ?_⟩, fun _ => htext rfl, hrest⟩
    · rw [String.toList_append]
      exact fun heq => hne (List.append_eq_nil_iff.mp heq).2
    · rw [String.toList_append, List.mem_append, not_or]
      exact ⟨hraw, hopen⟩
  · next hnot =>
    split
    · exact hw
    · next hne =>
      refine ⟨rfl, ⟨fun heq => hne (String.toList_injective heq), hraw⟩, fun _ => ?_, hw⟩
      cases w with
      | leaf token rest =>
        cases token with
        | text more => exact absurd rfl (hnot more rest)
        | _ => rfl
      | _ => rfl

/-- Once texts are joined, a rough writing is legible. -/
theorem Rough.legible_joined (h : w.Rough) : w.joined.Legible := by
  induction w with
  | nil => trivial
  | leaf token rest ih =>
    obtain ⟨hleaf, htoken, hrest⟩ := h
    cases token with
    | text raw => exact legible_afterText (ih hrest) htoken
    | _ => exact ⟨hleaf, htoken, fun h => (nomatch h), ih hrest⟩
  | empty tag rest ih => exact ⟨h.1, ih h.2⟩
  | pair tag inside gap rest ihinside ihrest =>
    obtain ⟨htag, hinside, hgap, hrest⟩ := h
    exact ⟨htag, ihinside hinside, hgap, ihrest hrest⟩

/-! ## The outline of joined texts -/

theorem outline_afterText (raw : String) (w : Writing) : (w.afterText raw).outline = w.outline := by
  unfold afterText
  split
  · rfl
  · split <;> rfl

theorem text_afterText {raw : String} (h : ∀ more tail, w = .leaf (.text more) tail →
      Tree.ownText (.text (raw ++ more)) = Tree.ownText (.text raw) ++ Tree.ownText (.text more)) :
    (w.afterText raw).text = Tree.ownText (.text raw) ++ w.text := by
  unfold afterText
  split
  · next more tail =>
    rw [text, text, Token.ownText, Token.ownText, h more tail rfl, String.append_assoc]
  · split
    · next hempty => simp [hempty, Tree.ownText, unescape, expand]
    · rfl

theorem Seamless.text_joined (h : w.Seamless) : w.joined.text = w.text := by
  induction w with
  | nil => rfl
  | leaf token rest ih =>
    cases token with
    | text raw =>
      obtain ⟨hraw, hrest⟩ := h
      rw [joined, text_afterText hraw, ih hrest]
      rfl
    | _ => rw [joined_leaf rfl, text, text, ih h]
  | empty tag rest ih => exact ih h
  | pair tag inside gap rest _ ih => exact ih h.2

/-- Where texts mean the same as one, joining them does not change what counts. -/
theorem Seamless.outline_joined (h : w.Seamless) : w.joined.outline = w.outline := by
  induction w with
  | nil => rfl
  | leaf token rest ih =>
    cases token with
    | text raw => rw [joined, outline_afterText, ih h.2, outline]
    | _ => rw [joined_leaf rfl, outline, outline, ih h]
  | empty tag rest ih => rw [joined, outline, outline, ih h]
  | pair tag inside gap rest ihinside ihrest =>
    rw [joined, outline, outline, ihinside h.1, ihrest h.2, h.1.text_joined]

/-! ## Texts with few references -/

theorem StartsPlain.joined (h : w.StartsPlain) {more : String} {rest : Writing}
    (heq : w.joined = .leaf (.text more) rest) : Plain more := by
  induction w generalizing more rest with
  | nil => cases heq
  | leaf token tail ih =>
    cases token with
    | text raw =>
      obtain ⟨hraw, htail⟩ := h
      rw [Writing.joined] at heq
      unfold afterText at heq
      split at heq
      · next htext =>
        injection heq with htoken _
        injection htoken with hraws
        exact hraws ▸ hraw.append (ih htail htext)
      · split at heq
        · exact ih htail heq
        · cases heq
          exact hraw
    | _ => cases heq
  | empty tag rest => cases heq
  | pair tag inside gap rest => cases heq

theorem Sparse.seamless (h : w.Sparse) : w.Seamless := by
  induction w with
  | nil => trivial
  | leaf token rest ih =>
    cases token with
    | text raw =>
      obtain ⟨hplain, hrest⟩ := h
      exact ⟨fun more tail heq => ownText_append (hplain.imp_right (·.joined heq)), ih hrest⟩
    | _ => exact ih h
  | empty tag rest ih => exact ih h
  | pair tag inside gap rest ihinside ihrest => exact ⟨ihinside h.1, ihrest h.2⟩

/-! ## Texts whose references have a meaning -/

theorem Resolves.afterText (h : w.Resolves) {raw : String} (hraw : (unescape raw).isSome = true) :
    (w.afterText raw).Resolves := by
  unfold Writing.afterText
  split
  · next more rest =>
    obtain ⟨read, hread⟩ := Option.isSome_iff_exists.mp hraw
    exact ⟨by rw [unescape_append hread, Option.isSome_map]; exact h.1, h.2⟩
  · split
    · exact h
    · exact ⟨hraw, h⟩

theorem Resolves.joined (h : w.Resolves) : w.joined.Resolves := by
  induction w with
  | nil => trivial
  | leaf token rest ih =>
    cases token with
    | text raw => exact (ih h.2).afterText h.1
    | _ => exact ih h
  | empty tag rest ih => exact ih h
  | pair tag inside gap rest ihinside ihrest => exact ⟨ihinside h.1, ihrest h.2⟩

theorem Resolves.seamless (h : w.Resolves) : w.Seamless := by
  induction w with
  | nil => trivial
  | leaf token rest ih =>
    cases token with
    | text raw =>
      refine ⟨fun more tail heq => ownText_append_of_isSome h.1 ?_, ih h.2⟩
      have hjoined := h.2.joined
      rw [heq] at hjoined
      exact hjoined.1
    | _ => exact ih h
  | empty tag rest ih => exact ih h
  | pair tag inside gap rest ihinside ihrest => exact ⟨ihinside h.1, ihrest h.2⟩

end Writing

end MavenPom.Markup
