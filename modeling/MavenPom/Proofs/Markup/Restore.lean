import MavenPom.Proofs.Markup.Passage

/-!
# Putting layouts back

A layout can be captured of every document that can be read. It can be put back into the spelling
of every tree that has grown from it: the root element's start tag stays what is read first of all
tags, and respelling empty elements leaves it alone.
-/

namespace MavenPom.Markup

/-! ## Spelling of trees -/

namespace Tree

variable {t t' : Tree} {r id : NodeId}

theorem renderChars_leaf (height : ℕ) (hdocument : t.content id ≠ .document)
    (helement : t.isElement id = false) :
    t.renderChars (height + 1) id = (leafText (t.content id)).toList := by
  have hne : ∀ e, t.content id ≠ .element e := by
    intro e he
    rw [isElement, element?_eq_some_iff.mpr he] at helement
    cases helement
  rw [renderChars]
  cases hcontent : t.content id with
  | document => exact absurd hcontent hdocument
  | element e => exact absurd hcontent (hne e)
  | _ => rfl

/-- Markup that is not a tag opens with a bracket, and with no slash after it. -/
theorem exists_leafText {c : Content} (hopens : Opens c) (helement : ∀ e, c ≠ .element e)
    (htext : ∀ raw, c ≠ .text raw) : ∃ d ds, (leafText c).toList = '<' :: d :: ds ∧ d ≠ '/' := by
  have hbang : '!' ≠ '/' := by decide
  have hquestion : '?' ≠ '/' := by decide
  cases c with
  | document => exact hopens.elim
  | element e => exact absurd rfl (helement e)
  | text raw => exact absurd rfl (htext raw)
  | cdata content =>
    exact ⟨'!', "[CDATA[".toList ++ content.toList ++ "]]>".toList, by simp [leafText], hbang⟩
  | comment content =>
    exact ⟨'!', "--".toList ++ content.toList ++ "-->".toList, by simp [leafText], hbang⟩
  | declaration content =>
    exact ⟨'?', content.toList ++ "?>".toList, by simp [leafText], hquestion⟩
  | instruction content =>
    exact ⟨'?', content.toList ++ "?>".toList, by simp [leafText], hquestion⟩
  | doctype content =>
    refine ⟨'!', "DOCTYPE".toList ++ (if content.toList.head?.any Text.isBlank then "" else
      " ").toList ++ content.toList ++ ">".toList, ?_, hbang⟩
    simp [leafText]

/-- Content that opens does not look like an end tag. -/
theorem renderChars_opens (height : ℕ) (h : Opens (t.content id)) :
    ∃ c more, t.renderChars (height + 1) id = c :: more ∧
      (c = '<' → ∃ d ds, more = d :: ds ∧ d ≠ '/') := by
  rw [renderChars]
  cases hcontent : t.content id with
  | document => exact (hcontent ▸ h : Opens .document).elim
  | element e =>
    obtain ⟨d, ds, hname, hslash⟩ := (hcontent ▸ h : Opens (.element e))
    dsimp only
    rw [hname]
    split
    · exact ⟨_, _, rfl, fun _ => ⟨d, _, rfl, hslash⟩⟩
    · exact ⟨_, _, rfl, fun _ => ⟨d, _, rfl, hslash⟩⟩
  | text raw =>
    obtain ⟨c, cs, hraw, hne⟩ := (hcontent ▸ h : Opens (.text raw))
    exact ⟨c, cs, hraw, fun heq => absurd heq hne⟩
  | _ =>
    obtain ⟨d, ds, htext, hslash⟩ := exists_leafText (hcontent ▸ h) (by simp) (by simp)
    exact ⟨'<', d :: ds, htext, fun _ => ⟨d, ds, rfl, hslash⟩⟩

theorem passed_flatMap (height : ℕ) {ids : List NodeId}
    (hlegible : ∀ x ∈ ids, (t.content x).Legible) (hleaf : ∀ x ∈ ids, t.isElement x = false) :
    Token.Passed (ids.flatMap (t.renderChars (height + 1))) := by
  induction ids with
  | nil => exact Token.passed_nil
  | cons x ids ih =>
    obtain ⟨hx, hlegible⟩ := List.forall_mem_cons.mp hlegible
    obtain ⟨hxleaf, hleaf⟩ := List.forall_mem_cons.mp hleaf
    have hdocument : t.content x ≠ .document := by
      intro heq
      rw [heq] at hx
      exact hx
    have helement : ∀ e, t.content x ≠ .element e := by
      intro e he
      rw [isElement, element?_eq_some_iff.mpr he] at hxleaf
      cases hxleaf
    rw [List.flatMap_cons, renderChars_leaf height hdocument hxleaf]
    exact Token.passed_leafText hx helement (ih hlegible hleaf)

/-- What a grown tree is written as: markup and texts, the root element's start tag, and then no
    end tag. -/
structure Opening (cs front : List Char) (tag : Tag) (rest : List Char) : Prop where
  eq : cs = front ++ ('<' :: tag.inside ++ ['>']) ++ rest
  passed : Token.Passed front
  legible : tag.Legible
  rest_ne : ∀ more, rest ≠ '<' :: '/' :: more
  front_ne : front.head? ≠ some '\uFEFF'

theorem Grown.opening (h : Grown r t t') (ht : t.Spelled) (hne : t'.children r ≠ []) :
    ∃ front tag rest, Opening (t'.renderChars t'.size root) front tag rest := by
  obtain ⟨first, others, hchildren⟩ := List.exists_cons_of_ne_nil hne
  have hrooted := h.rooted
  have hfirst : first ∈ t'.children r := hchildren ▸ List.mem_cons_self ..
  have hlt := hrooted.wellFormed.lt_child hfirst
  have hlt' := hrooted.wellFormed.child_lt hfirst
  have hroot := hrooted.wellFormed.lt_child hrooted.mem_children
  obtain ⟨height, hsize⟩ : ∃ height, t'.size = height + 3 :=
    ⟨t'.size - 3, by simp only [NodeId] at *; omega⟩
  obtain ⟨helement, before, after, hsplit, hbefore⟩ :=
    List.find?_eq_some_iff_append.mp hrooted.rootElement?
  obtain ⟨e, he⟩ := Option.isSome_iff_exists.mp helement
  have hcontent := element?_eq_some_iff.mp he
  have hold : ∀ x ∈ t'.children root, x < t.size ∧ (t'.content x).Legible := by
    intro x hx
    have hpos := hrooted.wellFormed.lt_child hx
    rw [h.children_root] at hx
    have hxlt := ht.wellFormed.child_lt hx
    rw [h.content_eq x hxlt]
    exact ⟨hxlt, ht.legible x hpos hxlt⟩
  have hmem : ∀ x ∈ before, x ∈ t'.children root := fun x hx =>
    hsplit ▸ List.mem_append_left _ hx
  have hleaf : ∀ x ∈ before, t'.isElement x = false := by
    intro x hx
    simpa using hbefore x hx
  have hlegible : Tag.Legible ⟨e.name, e.attributeText⟩ := by
    have hr := (hold r hrooted.mem_children).2
    rw [hcontent] at hr
    exact hr
  obtain ⟨c, more, hinside, hends⟩ :=
    renderChars_opens height (hrooted.opens first hfirst)
  have hr : t'.renderChars (height + 2) r =
      ('<' :: Tag.inside ⟨e.name, e.attributeText⟩ ++ ['>']) ++
        ((c :: more) ++ others.flatMap (t'.renderChars (height + 1)) ++
          '<' :: '/' :: e.name.toList ++ ['>']) := by
    rw [renderChars, hcontent]
    simp [hchildren, hinside, Tag.inside]
  refine ⟨before.flatMap (t'.renderChars (height + 2)), ⟨e.name, e.attributeText⟩,
    (c :: more) ++ others.flatMap (t'.renderChars (height + 1)) ++
      '<' :: '/' :: e.name.toList ++ ['>'] ++ after.flatMap (t'.renderChars (height + 2)), ?_,
    passed_flatMap _ (fun x hx => (hold x (hmem x hx)).2) hleaf, hlegible, ?_, ?_⟩
  · rw [hsize, renderChars, hrooted.document]
    dsimp only
    rw [hsplit, List.flatMap_append, List.flatMap_cons, hr]
    simp only [List.append_assoc]
  · intro rest heq
    rw [List.cons_append, List.cons_append, List.cons_append, List.cons_append] at heq
    obtain ⟨hc, heq⟩ := List.cons.inj heq
    obtain ⟨d, ds, rfl, hslash⟩ := hends hc
    exact hslash (List.cons.inj heq).1
  · cases before with
    | nil => simp
    | cons x before =>
      have hx := hmem x (List.mem_cons_self ..)
      have hxleaf := hleaf x (List.mem_cons_self ..)
      obtain ⟨hxlt, hxlegible⟩ := hold x hx
      have hdocument : t'.content x ≠ .document := by
        intro heq
        rw [heq] at hxlegible
        exact hxlegible
      have hopens := opens_of_legible hxlegible
      rw [List.flatMap_cons, renderChars_leaf _ hdocument hxleaf]
      by_cases htext : ∃ raw, t'.content x = .text raw
      · obtain ⟨raw, hraw⟩ := htext
        have hfirst := ht.first x (before ++ r :: after) raw
          (h.children_root.symm.trans hsplit) ((h.content_eq x hxlt).symm.trans hraw)
        rw [hraw] at hopens ⊢
        obtain ⟨c, cs, hcs, -⟩ := hopens
        rw [hcs] at hfirst
        rw [leafText, hcs]
        exact hfirst
      · have hne : ∀ e, t'.content x ≠ .element e := by
          intro e he
          rw [isElement, element?_eq_some_iff.mpr he] at hxleaf
          cases hxleaf
        obtain ⟨d, ds, heq, -⟩ := exists_leafText hopens hne fun raw hraw => htext ⟨raw, hraw⟩
        rw [heq]
        simp

end Tree

/-! ## Capturing and restoring -/

theorem exists_rootTagSpanIn {s : Scan} {l : Lexeme} (hl : l ∈ s.lexemes) {tag : Tag}
    (htag : l.token = .startTag tag ∨ l.token = .emptyTag tag) :
    ∃ span, rootTagSpanIn s = .ok span := by
  unfold rootTagSpanIn
  dsimp only
  split
  · exact ⟨_, rfl⟩
  all_goals
    next hnone _ =>
      have hl' := List.find?_eq_none.mp hnone l hl
      rcases htag with htag | htag
      · rw [htag] at hl'
        exact absurd rfl hl'
      · rw [htag] at hl'
        exact absurd rfl hl'

/-- What opens with a legible tag is read as that tag after the markup and texts before it. -/
theorem Tree.Opening.scanChars {cs front : List Char} {tag : Tag} {rest : List Char}
    (h : Tree.Opening cs front tag rest) (more : List Char) :
    ∃ leaves : List Lexeme, (∀ l ∈ leaves, l.token.isLeaf = true) ∧
      (Token.scanChars (front ++ ('<' :: tag.inside ++ ['>']) ++ more)).lexemes =
        leaves ++ ⟨.startTag (Token.tagOf tag.inside), Utf8.size front,
          Utf8.size (front ++ ('<' :: tag.inside ++ ['>']))⟩ ::
          (Token.scanFrom [(Token.tagOf tag.inside).name]
            (Utf8.size (front ++ ('<' :: tag.inside ++ ['>']))) more).lexemes := by
  have hmark : Token.scanChars (front ++ ('<' :: tag.inside ++ ['>']) ++ more) =
      Token.scanFrom [] 0 (front ++ ('<' :: tag.inside ++ ['>']) ++ more) := by
    unfold Token.scanChars
    split
    · next heq =>
      have hfront := h.front_ne
      cases front with
      | nil => simp at heq
      | cons c front =>
        obtain rfl := (List.cons.inj heq).1
        exact absurd rfl hfront
    · rfl
  obtain ⟨leaves, hleaves, hscan⟩ :=
    h.passed [] ('<' :: tag.inside ++ ['>'] ++ more) 0 (by simp) rfl
  refine ⟨leaves, hleaves, ?_⟩
  have hnext : Token.next none '<' (tag.inside ++ '>' :: more) =
      .ok (.startTag (Token.tagOf tag.inside), tag.inside.length + 1) :=
    Token.next_inside h.legible none more
  have htake : (tag.inside ++ '>' :: more).take (tag.inside.length + 1) = tag.inside ++ ['>'] := by
    rw [List.take_length_add_append]
    rfl
  have hdrop : (tag.inside ++ '>' :: more).drop (tag.inside.length + 1) = more := by
    rw [List.drop_length_add_append]
    rfl
  have hstep : ∀ position,
      (Token.scanFrom [] position ('<' :: tag.inside ++ ['>'] ++ more)).lexemes =
      ⟨.startTag (Token.tagOf tag.inside), position,
        position + Utf8.size ('<' :: tag.inside ++ ['>'])⟩ ::
        (Token.scanFrom [(Token.tagOf tag.inside).name]
          (position + Utf8.size ('<' :: tag.inside ++ ['>'])) more).lexemes := by
    intro position
    rw [List.cons_append, List.cons_append, List.append_assoc, List.singleton_append,
      Token.scanFrom, List.head?_nil, hnext]
    simp only [htake, hdrop, Token.openAfter]
  rw [hmark, List.append_assoc, ← List.nil_append front, hscan, hstep]
  simp only [List.nil_append, Nat.zero_add, Utf8.size_append]

namespace Layout

/-- With its empty elements respelled by any layout, the spelling of a tree that has grown still
    opens with the root element's start tag. -/
theorem exists_respellChars {t t' : Tree} {r : NodeId} (ht : t.Spelled) (h : Tree.Grown r t t')
    (hne : t'.children r ≠ []) (l : Layout) : ∃ front tag rest more,
      Tree.Opening (t'.renderChars t'.size Tree.root) front tag rest ∧
      l.respellChars (t'.renderChars t'.size Tree.root) 0
        (EmptyElement.findChars (t'.renderChars t'.size Tree.root)) =
          front ++ ('<' :: tag.inside ++ ['>']) ++ more := by
  obtain ⟨front, tag, rest, hopening⟩ := h.opening ht hne
  obtain ⟨leaves, hleaves, hscan⟩ := hopening.scanChars rest
  rw [← hopening.eq] at hscan
  -- The root element is not empty, so that all empty elements stand behind its start tag.
  have hempties : ∀ e ∈ EmptyElement.findChars (t'.renderChars t'.size Tree.root),
      Utf8.size (front ++ ('<' :: tag.inside ++ ['>'])) ≤ e.start := by
    rw [EmptyElement.findChars, hscan, EmptyElement.among_leaves _ hleaves, EmptyElement.among]
    dsimp only
    rw [EmptyElement.among_of_head_ne_endTag (Token.head_ne_endTag hopening.rest_ne)]
    intro e he
    exact ((EmptyElement.consecutive_among_none (Token.consecutive_scanFrom _ rest)).of_mem e.span
      (List.mem_map_of_mem he)).1
  obtain ⟨more, hrespelled⟩ := l.respellChars_append hempties rest
  rw [← hopening.eq] at hrespelled
  exact ⟨front, tag, rest, more, hopening, hrespelled⟩

/-- Any layout can be put back into the spelling of a tree that has grown. -/
theorem exists_restoreText {t t' : Tree} {r : NodeId} (ht : t.Spelled) (h : Tree.Grown r t t')
    (hne : t'.children r ≠ []) (l : Layout) : ∃ text, l.restoreText t'.render = .ok text := by
  obtain ⟨front, tag, rest, more, hopening, hrespelled⟩ := exists_respellChars ht h hne l
  obtain ⟨leaves, -, hscan⟩ := hopening.scanChars more
  obtain ⟨span, hspan⟩ := exists_rootTagSpanIn
    (hscan ▸ List.mem_append_right _ (List.mem_cons_self ..)) (.inl rfl)
  rw [Tree.render_eq, restoreText_ofList, restoreChars]
  dsimp only
  rw [hrespelled, hspan]
  exact ⟨_, rfl⟩

/-- A layout can be captured of what can be read, as only tags add elements. -/
theorem exists_capture {text : String} {t : Tree} (h : Tree.parse text = .ok t)
    (charset : Charset) : ∃ layout, capture text charset = .ok layout := by
  obtain ⟨d, hdraft, rfl, hroot⟩ := Tree.exists_draft_of_parse h
  obtain ⟨l, hl, tag, htag⟩ : ∃ l ∈ (Token.scan text).lexemes, ∃ tag,
      l.token = .startTag tag ∨ l.token = .emptyTag tag := by
    by_contra hnone
    have hadds : ∀ l ∈ (Token.scan text).lexemes, ∀ c, Tree.Adds l.token c →
        ∀ e, c ≠ .element e := by
      intro l hl c hc e he
      cases htoken : l.token with
      | startTag tag => exact hnone ⟨l, hl, tag, .inl htoken⟩
      | emptyTag tag => exact hnone ⟨l, hl, tag, .inr htoken⟩
      | endTag name => exact (htoken ▸ hc : Tree.Adds (.endTag name) c).elim
      | _ =>
        rw [htoken] at hc
        cases hc
        cases he
    have hholds := Tree.Draft.Holds.start.foldlM hadds hdraft
    obtain ⟨r, hr⟩ := Option.isSome_iff_exists.mp hroot
    have hmem := List.mem_of_find?_eq_some hr
    have helement : d.tree.isElement r = true := List.find?_some hr
    obtain ⟨e, he⟩ := Option.isSome_iff_exists.mp helement
    exact hholds.content r (hholds.wellFormed.lt_child hmem) (hholds.wellFormed.child_lt hmem) e
      (Tree.element?_eq_some_iff.mp he)
  obtain ⟨span, hspan⟩ := exists_rootTagSpanIn hl htag
  have hspan' : rootTagSpan text = .ok span := hspan
  rw [capture, hspan']
  exact ⟨_, rfl⟩

end Layout

/-! ## Slices -/

theorem Slice.isClean_iff {s : Slice} : s.isClean = true ↔ s.start ≤ s.stop ∧
    Utf8.isBoundary s.start s.text.toList = true ∧
    Utf8.isBoundary s.stop s.text.toList = true := by
  rw [isClean, Bool.and_eq_true, Bool.and_eq_true, decide_eq_true_iff]

theorem ok_of_mem_toOption {ε α : Type} {r : Except ε α} {x : α} (h : x ∈ r.toOption.toList) :
    r = .ok x := by
  cases r with
  | error e => cases h
  | ok y => rw [List.mem_singleton.mp h]

section Slices

variable {text : String}

/-- The tokens of a text without a byte order mark stand between its characters. -/
theorem consecutive_scan (hmark : text.toList.head? ≠ some '\uFEFF') :
    Consecutive (fun n => Utf8.isBoundary n text.toList = true) 0
      ((Token.scan text).lexemes.map (·.span)) := by
  have hscan : Token.scan text = Token.scanFrom [] 0 text.toList :=
    Token.scanChars_of_head?_ne hmark
  rw [hscan]
  exact Token.consecutive_scanFrom [] text.toList

theorem EmptyElement.consecutive_find (hmark : text.toList.head? ≠ some '\uFEFF') :
    Consecutive (fun n => Utf8.isBoundary n text.toList = true) 0 ((find text).map (·.span)) :=
  consecutive_among_none (consecutive_scan hmark)

theorem isClean_rootTagSpan (hmark : text.toList.head? ≠ some '\uFEFF') {start stop : ℕ}
    (h : rootTagSpan text = .ok (start, stop)) : Slice.isClean ⟨text, start, stop⟩ = true := by
  unfold rootTagSpan at h
  dsimp only at h
  split at h
  · next _ lexeme hfind =>
    cases h
    obtain ⟨-, hstart, hle, hstop⟩ := (consecutive_scan hmark).of_mem lexeme.span
      (List.mem_map_of_mem (List.mem_of_find?_eq_some hfind))
    exact Slice.isClean_iff.mpr ⟨hle, hstart, hstop⟩
  · cases h
  · cases h

namespace Layout

theorem isClean_sliceBefore {n : ℕ} (h : Utf8.isBoundary n text.toList = true) :
    (sliceBefore text n).isClean = true :=
  Slice.isClean_iff.mpr ⟨Nat.zero_le n, Utf8.isBoundary_zero _, h⟩

theorem isClean_sliceFrom {n : ℕ} (h : Utf8.isBoundary n text.toList = true) :
    (sliceFrom text n).isClean = true := by
  have hend := Utf8.isBoundary_size text.toList []
  rw [List.append_nil] at hend
  exact Slice.isClean_iff.mpr ⟨Utf8.le_size_of_isBoundary h, h, hend⟩

/-- No character of a text without a byte order mark is sliced apart where its layout is
    captured. -/
theorem capturesCleanly_of_head?_ne (hmark : text.toList.head? ≠ some '\uFEFF') :
    capturesCleanly text = true := by
  refine List.all_eq_true.mpr fun s hs => ?_
  rcases List.mem_append.mp hs with hs | hs
  · obtain ⟨⟨start, stop⟩, hspan, rfl⟩ := List.mem_map.mp hs
    have hclean := Slice.isClean_iff.mp (isClean_rootTagSpan hmark (ok_of_mem_toOption hspan))
    exact isClean_sliceBefore hclean.2.2
  · obtain ⟨e, he, rfl⟩ := List.mem_map.mp hs
    obtain ⟨-, hstart, hle, hstop⟩ := (EmptyElement.consecutive_find hmark).of_mem e.span
      (List.mem_map_of_mem he)
    exact Slice.isClean_iff.mpr ⟨hle, hstart, hstop⟩

theorem isClean_respellSlices {l : Layout} {elements : List EmptyElement} {position k : ℕ}
    (h : Consecutive (fun n => Utf8.isBoundary n text.toList = true) k (elements.map (·.span)))
    (hle : position ≤ k) (hposition : Utf8.isBoundary position text.toList = true) :
    ∀ s ∈ l.respellSlices text position elements, s.isClean = true := by
  induction elements generalizing position k with
  | nil => exact List.forall_mem_singleton.mpr (isClean_sliceFrom hposition)
  | cons e elements ih =>
    obtain ⟨hk, hstart, hspan, hstop, h⟩ := consecutive_cons_iff.mp h
    rw [respellSlices]
    cases l.spelling? e with
    | none => exact ih h (hle.trans (hk.trans hspan)) hposition
    | some raw =>
      refine List.forall_mem_cons.mpr ⟨?_, ih h (Nat.le_refl _) hstop⟩
      exact Slice.isClean_iff.mpr ⟨hle.trans hk, hposition, hstart⟩

/-- The start tag of a captured root element begins at a boundary of the preamble. -/
theorem isClean_preamble {charset : Charset} {l : Layout} (hcapture : capture text charset = .ok l)
    (hmark : text.toList.head? ≠ some '\uFEFF') :
    (sliceBefore l.preamble l.rootStart).isClean = true := by
  cases hspan : rootTagSpan text with
  | error e =>
    rw [capture, hspan] at hcapture
    cases hcapture
  | ok span =>
    rw [capture, hspan] at hcapture
    cases hcapture
    obtain ⟨hle, hstart, -⟩ := Slice.isClean_iff.mp (isClean_rootTagSpan hmark hspan)
    have hboundary := Utf8.isBoundary_take hstart hle
    rw [← String.toList_ofList (l := Utf8.take ..)] at hboundary
    exact isClean_sliceBefore hboundary

/-- No character is sliced apart where a layout is put back into the spelling of a tree that has
    grown, if it has been captured of a text without a byte order mark. -/
theorem restoresCleanly_of_grown {t t' : Tree} {r : NodeId} (ht : t.Spelled)
    (h : Tree.Grown r t t') (hne : t'.children r ≠ []) {charset : Charset} {l : Layout}
    (hcapture : capture text charset = .ok l) (hmark : text.toList.head? ≠ some '\uFEFF') :
    l.restoresCleanly t'.render = true := by
  obtain ⟨front, tag, rest, more, hopening, hrespelled⟩ := exists_respellChars ht h hne l
  -- Neither the spelling nor what comes of it begins with a mark, as the document's nodes do not.
  have hfirst : ∀ cs, (front ++ ('<' :: tag.inside ++ ['>']) ++ cs).head? ≠ some '\uFEFF' := by
    intro cs
    cases hfront : front with
    | nil => simp
    | cons c front => simpa [hfront] using hopening.front_ne
  have hserialized : t'.render.toList.head? ≠ some '\uFEFF' := by
    rw [Tree.render_eq, String.toList_ofList, hopening.eq]
    exact hfirst rest
  have hrestored : (l.restoreEmpties t'.render).toList.head? ≠ some '\uFEFF' := by
    rw [restoreEmpties, Tree.render_eq, EmptyElement.find_ofList, respell_ofList,
      String.toList_ofList, hrespelled]
    exact hfirst more
  refine List.all_eq_true.mpr fun s hs => ?_
  rcases List.mem_append.mp hs with hs | hs
  · exact isClean_respellSlices (EmptyElement.consecutive_find hserialized) (Nat.le_refl _)
      (Utf8.isBoundary_zero _) s hs
  · obtain ⟨⟨start, stop⟩, hspan, hs⟩ := List.mem_flatMap.mp hs
    obtain ⟨-, hstart, hstop⟩ := Slice.isClean_iff.mp
      (isClean_rootTagSpan hrestored (ok_of_mem_toOption hspan))
    rcases List.mem_cons.mp hs with rfl | hs
    · exact isClean_sliceBefore hstop
    · split at hs
      · obtain rfl := List.mem_singleton.mp hs
        exact isClean_sliceFrom hstop
      · simp only [List.mem_cons, List.not_mem_nil, or_false] at hs
        rcases hs with rfl | rfl
        · exact isClean_preamble hcapture hmark
        · exact isClean_sliceFrom hstart

end Layout

end Slices

end MavenPom.Markup
