import MavenPom.Proofs.Markup.Noise

/-!
# Documents as they are written

A document with a byte order mark or none, and with a document type declaration or none. Changes of
formatting leave its content, where blank text is put in, or taken out, at an edge of the text
around it.
-/

namespace MavenPom.Markup

/-! ## Document type declarations -/

/-- What follows the keyword of a document type declaration up to its end: there is a name in it,
    and its angle brackets pair up. -/
structure IsDoctype (content : List Char) : Prop where
  name : skipSpaces content ≠ []
  brackets : Token.doctypeContent? 0 (content ++ ['>']) = some content

def doctypeChars (content : List Char) : List Char := "<!DOCTYPE".toList ++ (content ++ ['>'])

/-- The declaration as a token. -/
def doctypeToken (content : List Char) : Token := .doctype (String.ofList (skipSpaces content))

namespace Token

theorem doctypeContent?_append {depth : ℕ} {cs : List Char}
    (h : doctypeContent? depth (cs ++ ['>']) = some cs) (rest : List Char) :
    doctypeContent? depth (cs ++ '>' :: rest) = some cs := by
  induction cs generalizing depth with
  | nil =>
    cases depth with
    | zero => rfl
    | succ depth =>
      rw [List.nil_append, doctypeContent?, doctypeContent?, Option.map_none] at h
      cases h
  | cons c cs ih =>
    cases depth with
    | zero =>
      rw [List.cons_append, doctypeContent?] at h ⊢
      split at h
      · cases h
      · next hc =>
        obtain ⟨more, hmore, heq⟩ := Option.map_eq_some_iff.mp h
        obtain rfl := (List.cons.inj heq).2
        rw [if_neg hc, ih hmore]
        rfl
    | succ depth =>
      rw [List.cons_append, doctypeContent?] at h ⊢
      obtain ⟨more, hmore, heq⟩ := Option.map_eq_some_iff.mp h
      obtain rfl := (List.cons.inj heq).2
      rw [ih hmore]
      rfl

theorem readBang_doctype {content : List Char} (h : IsDoctype content) (rest : List Char) :
    readBang ("DOCTYPE".toList ++ (content ++ '>' :: rest)) =
      .ok (doctypeToken content, content.length + 8) := by
  have hbrackets := doctypeContent?_append h.brackets rest
  have hchars : "DOCTYPE".toList ++ (content ++ '>' :: rest) =
      'D' :: ("OCTYPE".toList ++ (content ++ '>' :: rest)) := rfl
  rw [hchars]
  simp [readBang, doctypeContent?, hbrackets, h.name, doctypeToken]

theorem scanFrom_doctype {content : List Char} (h : IsDoctype content) (names : List String)
    (position : ℕ) (rest : List Char) : ∃ stop,
      scanFrom names position (doctypeChars content ++ rest) =
        (scanFrom names stop rest).behind [⟨doctypeToken content, position, stop⟩] := by
  have hnext : next names.head? '<' (("!DOCTYPE".toList ++ (content ++ ['>'])) ++ rest) =
      .ok (doctypeToken content, ("!DOCTYPE".toList ++ (content ++ ['>'])).length) := by
    have hchars : ("!DOCTYPE".toList ++ (content ++ ['>'])) ++ rest =
        '!' :: ("DOCTYPE".toList ++ (content ++ '>' :: rest)) := by simp
    rw [hchars, next, if_pos rfl]
    change (readBang ("DOCTYPE".toList ++ (content ++ '>' :: rest))).map _ = _
    rw [readBang_doctype h]
    simp [Except.map]
  exact ⟨_, scanFrom_next hnext position⟩

end Token

/-! ## Writings one after another -/

namespace Writing

def append : Writing → Writing → Writing
  | .nil, v => v
  | .leaf token rest, v => .leaf token (rest.append v)
  | .empty tag rest, v => .empty tag (rest.append v)
  | .pair tag inside gap rest, v => .pair tag inside gap (rest.append v)

variable {w v : Writing}

theorem tokens_append (w v : Writing) : (w.append v).tokens = w.tokens ++ v.tokens := by
  induction w with
  | nil => rfl
  | leaf token rest ih => simp [append, tokens, ih]
  | empty tag rest ih => simp [append, tokens, ih]
  | pair tag inside gap rest _ ih => simp [append, tokens, ih]

theorem Leaves.append (hw : w.Leaves) (hv : v.Leaves) : (w.append v).Leaves := by
  induction w with
  | nil => exact hv
  | leaf token rest ih => exact ⟨hw.1, ih hw.2⟩
  | empty tag rest ih => exact ih hw
  | pair tag inside gap rest _ ih => exact ⟨hw.1, ih hw.2⟩

theorem Tags.append {p : Tag → Prop} (hw : w.Tags p) (hv : v.Tags p) : (w.append v).Tags p := by
  induction w with
  | nil => exact hv
  | leaf token rest ih => exact ih hw
  | empty tag rest ih => exact ⟨hw.1, ih hw.2⟩
  | pair tag inside gap rest _ ih => exact ⟨hw.1, hw.2.1, ih hw.2.2⟩

/-- What holds no elements adds none. -/
theorem outline_append (h : w.outline = .nil) (v : Writing) : (w.append v).outline = v.outline := by
  induction w with
  | nil => rfl
  | leaf token rest ih => exact ih h
  | empty tag rest => cases h
  | pair tag inside gap rest => cases h

theorem exists_firstTag?_of_outline (h : w.outline ≠ .nil) : ∃ token, w.firstTag? = some token := by
  induction w with
  | nil => exact absurd rfl h
  | leaf token rest ih => exact ih h
  | empty tag rest => exact ⟨_, rfl⟩
  | pair tag inside gap rest => exact ⟨_, rfl⟩

/-- A text that is blank, references and all, begins with no byte order mark. -/
theorem head?_ne_of_isAllBlank {raw : String} (hread : (unescape raw).isSome = true)
    (hblank : Text.isAllBlank (Token.text raw).ownText = true) :
    raw.toList.head? ≠ some '\uFEFF' := by
  intro hhead
  obtain ⟨cs, hcs⟩ := List.head?_eq_some_iff.mp hhead
  obtain ⟨read, hread⟩ := Option.isSome_iff_exists.mp hread
  have hexpand := hread
  rw [unescape, hcs, expand_cons (by decide), Option.map_map] at hexpand
  obtain ⟨marked, -, rfl⟩ := Option.map_eq_some_iff.mp hexpand
  have hmark : '\uFEFF' ∈ (Token.text raw).ownText.toList := by
    simp [Token.ownText, Tree.ownText, hread]
  exact absurd (List.all_eq_true.mp hblank _ hmark) (by decide)

/-- A document whose text outside of all elements is blank begins with no byte order mark. -/
theorem WellFormed.head?_chars_ne (h : w.WellFormed) (hblank : Text.isAllBlank w.text = true)
    {tail : List Char} (htail : tail.head? ≠ some '\uFEFF') :
    (w.chars ++ tail).head? ≠ some '\uFEFF' := by
  induction w with
  | nil => exact htail
  | leaf token rest ih =>
    obtain ⟨hleaf, -, hresolves, hrest⟩ := h
    rw [text, Text.isAllBlank_append, Bool.and_eq_true] at hblank
    cases token with
    | text raw =>
      have hhead := head?_ne_of_isAllBlank hresolves hblank.1
      have hspelling : (Token.text raw).spelling = raw.toList := rfl
      rw [chars, hspelling]
      cases hraw : raw.toList with
      | nil => exact ih hrest hblank.2
      | cons c cs => rwa [hraw] at hhead
    | _ =>
      rw [chars, Token.eq_cons_spelling rfl]
      exact fun heq => absurd (Option.some.inj heq) (by decide)
  | empty tag rest => exact fun heq => absurd (Option.some.inj heq) (by decide)
  | pair tag inside gap rest => exact fun heq => absurd (Option.some.inj heq) (by decide)

end Writing

/-! ## Documents -/

/-- What stands in front of the root element up to the document type declaration, and what follows
    the declaration's keyword. -/
structure Preface where
  front : Writing
  doctype : List Char

namespace Preface

def chars (p : Preface) : List Char := p.front.chars ++ doctypeChars p.doctype

structure WellFormed (p : Preface) : Prop where
  front : p.front.WellFormed
  blank : Text.isAllBlank p.front.text = true
  outline : p.front.outline = .nil
  doctype : IsDoctype p.doctype

/-- Changes of formatting in front of the declaration. -/
structure Noise (allowed : String → String → Prop) (p p' : Preface) : Prop where
  front : Markup.Noise allowed p.front p'.front
  doctype : p'.doctype = p.doctype

theorem Noise.wellFormed {p p' : Preface} (hnoise : p.Noise AtEdge p') (h : p.WellFormed) :
    p'.WellFormed :=
  ⟨hnoise.front.wellFormed_iff.mp h.front, hnoise.front.isAllBlank_text h.blank,
    hnoise.front.alike.1.eq_nil_iff.mp h.outline, hnoise.doctype ▸ h.doctype⟩

end Preface

/-- A document as it is written: whether a byte order mark is in front, what comes up to the
    document type declaration, if it has one, and the rest. -/
structure Script where
  marked : Bool
  preface : Option Preface
  body : Writing

namespace Script

/-- The document without a byte order mark. -/
def bareChars (s : Script) : List Char := (s.preface.elim [] (·.chars)) ++ s.body.chars

def text (s : Script) : String :=
  String.ofList ((if s.marked then ['\uFEFF'] else []) ++ s.bareChars)

structure WellFormed (s : Script) : Prop where
  body : s.body.WellFormed
  blank : Text.isAllBlank s.body.text = true
  root : s.body.outline.IsSingle
  preface : ∀ p ∈ s.preface, p.WellFormed

/-- Any number of changes of formatting anywhere in a document. -/
structure Noise (allowed : String → String → Prop) (s s' : Script) : Prop where
  marked : s'.marked = s.marked
  preface : Option.Rel (Preface.Noise allowed) s.preface s'.preface
  body : Markup.Noise allowed s.body s'.body

variable {s s' : Script}

theorem Noise.wellFormed (hnoise : s.Noise AtEdge s') (h : s.WellFormed) : s'.WellFormed := by
  refine ⟨hnoise.body.wellFormed_iff.mp h.body, hnoise.body.isAllBlank_text h.blank,
    hnoise.body.alike.1.isSingle h.root, fun p' hp' => ?_⟩
  have hpreface := hnoise.preface
  rw [Option.mem_def.mp hp'] at hpreface
  generalize hs : s.preface = before at hpreface
  cases hpreface with
  | some hp => exact hp.wellFormed (h.preface _ hs)

theorem head?_doctypeChars (content tail : List Char) :
    (doctypeChars content ++ tail).head? = some '<' := rfl

theorem WellFormed.scan_text (h : s.WellFormed) :
    Token.scan s.text = Token.scanFrom [] 0 s.bareChars := by
  have hbody : s.body.chars.head? ≠ some '\uFEFF' := by
    rw [← List.append_nil s.body.chars]
    exact h.body.head?_chars_ne h.blank (by simp)
  have hhead : s.bareChars.head? ≠ some '\uFEFF' := by
    rw [bareChars]
    cases hpreface : s.preface with
    | none => exact hbody
    | some p =>
      have hp := h.preface p hpreface
      rw [Option.elim, Preface.chars, List.append_assoc]
      refine hp.front.head?_chars_ne hp.blank ?_
      rw [head?_doctypeChars]
      exact fun heq => absurd (Option.some.inj heq) (by decide)
  rw [text, Token.scan_ofList]
  cases s.marked with
  | true => rfl
  | false => exact Token.scanChars_of_head?_ne hhead

/-- A well-formed document has the tokens of a writing with the elements of its body. -/
theorem WellFormed.exists_tokens (h : s.WellFormed) : ∃ w : Writing, w.Leaves ∧
    w.Tags (·.attributes?.isSome) ∧ w.outline = s.body.outline ∧ ∃ ls,
      Token.scan s.text = ⟨ls, none⟩ ∧ ls.map (·.token) = w.tokens := by
  have hlegible := h.body.rough.legible_joined
  have houtline := h.body.resolves.seamless.outline_joined
  rw [h.scan_text, bareChars, ← s.body.chars_joined]
  cases hpreface : s.preface with
  | none =>
    exact ⟨s.body.joined, hlegible.leaves, h.body.readable.joined, houtline, _,
      Writing.scanFrom_self hlegible [] 0, s.body.joined.map_token_lexemes 0⟩
  | some p =>
    have hp := h.preface p hpreface
    have hfront := hp.front.rough.legible_joined
    have hnil : p.front.joined.outline = .nil := by
      rw [hp.front.resolves.seamless.outline_joined, hp.outline]
    obtain ⟨stop, hdoctype⟩ := Token.scanFrom_doctype hp.doctype []
      (0 + Utf8.size p.front.joined.chars) s.body.joined.chars
    refine ⟨p.front.joined.append (.leaf (doctypeToken p.doctype) s.body.joined),
      hfront.leaves.append ⟨rfl, hlegible.leaves⟩,
      hp.front.readable.joined.append h.body.readable.joined, ?_,
      p.front.joined.lexemes 0 ++
        ⟨doctypeToken p.doctype, 0 + Utf8.size p.front.joined.chars, stop⟩ ::
          s.body.joined.lexemes stop, ?_, ?_⟩
    · rw [Writing.outline_append hnil, Writing.outline, houtline]
    · have hopen (c : Char) (hc : c ∈ (doctypeChars p.doctype ++ s.body.joined.chars).head?) :
          c = '<' := by
        rw [head?_doctypeChars] at hc
        exact (Option.some.inj hc).symm
      rw [Option.elim, Preface.chars, ← p.front.chars_joined, List.append_assoc,
        Writing.scanFrom_chars hfront [] 0 hopen, hdoctype, Writing.scanFrom_self hlegible]
      rfl
    · rw [List.map_append, List.map_cons, Writing.map_token_lexemes, Writing.map_token_lexemes,
        Writing.tokens_append, Writing.tokens]

/-- A well-formed document is read, as a tree with the elements of its body. -/
theorem WellFormed.exists_parse (h : s.WellFormed) : ∃ t, Tree.parse s.text = .ok t ∧
    t.WellFormed ∧ t.content Tree.root = .document ∧
      t.Outlines s.body.outline (t.childElements Tree.root) := by
  obtain ⟨w, hleaves, htags, hw, ls, hscan, hls⟩ := h.exists_tokens
  obtain ⟨token, hfirst⟩ := Writing.exists_firstTag?_of_outline (hw ▸ h.root.ne_nil)
  obtain ⟨t, hparse, hwell, hdocument, hstand⟩ :=
    Tree.exists_parse_of_scan hleaves htags hfirst hscan hls
  exact ⟨t, hparse, hwell, hdocument, hw ▸ hstand.outlines⟩

/-- Documents that differ in their formatting only carry the same content, where blank text is put
    in or taken out before or behind all the text of the element that it is in. -/
theorem sameContent_of_noise (h : s.WellFormed) (hnoise : s.Noise AtEdge s') :
    ∃ t t', Tree.parse s.text = .ok t ∧ Tree.parse s'.text = .ok t' ∧ t.sameContent t' = true ∧
      t'.sameContent t = true := by
  obtain ⟨t, hparse, hwell, hdocument, houtlines⟩ := h.exists_parse
  obtain ⟨t', hparse', hwell', hdocument', houtlines'⟩ := (hnoise.wellFormed h).exists_parse
  have halike := hnoise.body.alike.1
  exact ⟨t, t', hparse, hparse',
    Tree.sameContent_of_alike hwell hwell' hdocument hdocument' halike houtlines houtlines',
    Tree.sameContent_of_alike hwell' hwell hdocument' hdocument halike.symm houtlines' houtlines⟩

/-- Two attributes, one with a reference in its value. -/
def attributeX : SpelledAttribute := ⟨[' '], ['x'], [], [], '\'', ['1']⟩

def attributeY : SpelledAttribute := ⟨[' '], ['y'], [], [], '"', "&lt;".toList⟩

/-- The document `<!DOCTYPE a><a x='1' y="&lt;"><b/>v</a>`. -/
def plain : Script :=
  ⟨false, some ⟨.nil, [' ', 'a']⟩,
    .pair (.ofSpelled "a" [attributeX, attributeY])
      (.empty (.ofSpelled "b" []) (.leaf (.text "v") .nil)) [] .nil⟩

/-- That document with its attributes in another order and between other quotes, comments in front
    and behind a text, blank text in front, and the empty element as two tags. -/
def noisy : Script :=
  ⟨false, some ⟨.leaf (.comment "c") .nil, [' ', 'a']⟩,
    .pair (.ofSpelled "a" [{ attributeY with quote := '\'' }, { attributeX with quote := '"' }])
      (.leaf (.text "\n") (.pair (.ofSpelled "b" []) .nil []
        (.leaf (.text "v") (.leaf (.comment "c") .nil)))) [] .nil⟩

theorem wellFormed_ofSpelled_b : (Tag.ofSpelled "b" []).WellFormed :=
  ⟨_, Tag.spells_ofSpelled (by decide) (by decide) (by simp), by simp⟩

theorem legible_comment_c : (Token.comment "c").Legible :=
  Text.endsAt_of_cut? (by decide)
    (show Text.cut? "-->".toList "c-->".toList = some ("c".toList, []) by decide)

theorem sameContent_of_noise_plain :
    plain.WellFormed ∧ plain.Noise AtEdge noisy ∧ ∃ t t', Tree.parse plain.text = .ok t ∧
      Tree.parse noisy.text = .ok t' ∧ t.sameContent t' = true ∧ t'.sameContent t = true := by
  have hkeys : ([attributeX, attributeY].map (·.pair.1)).Nodup := by decide +kernel
  have has : (Tag.ofSpelled "a" [attributeX, attributeY]).Spells _ :=
    Tag.spells_ofSpelled (by decide) (by decide) (by decide +kernel)
  have hbs : (Tag.ofSpelled "a"
      [{ attributeY with quote := '\'' }, { attributeX with quote := '"' }]).Spells _ :=
    Tag.spells_ofSpelled (by decide) (by decide) (by decide +kernel)
  have hrespells : (Tag.ofSpelled "a" [attributeX, attributeY]).Respells
      (.ofSpelled "a" [{ attributeY with quote := '\'' }, { attributeX with quote := '"' }]) :=
    ⟨rfl, _, _, has, hbs, .swap .., hkeys⟩
  have htext : '<' ∉ "v".toList := by decide
  have hread : (unescape "v").isSome = true := by decide +kernel
  have hblank : IsBlank "\n" := ⟨by decide, by decide +kernel, by decide +kernel⟩
  have hgap : ∀ c ∈ ([] : List Char), isSpace c = true := by simp
  have hplain : plain.WellFormed := by
    refine ⟨⟨⟨_, has, hkeys⟩, ⟨wellFormed_ofSpelled_b, rfl, htext, hread, trivial⟩, by simp,
      trivial⟩, rfl, trivial, fun p hp => ?_⟩
    obtain rfl := Option.some.inj hp
    exact ⟨trivial, rfl, rfl, by decide, by decide⟩
  have hnoise : plain.Noise AtEdge noisy := by
    refine ⟨rfl, .some ⟨.rel _ _ (.here (.comment legible_comment_c)), rfl⟩, ?_⟩
    refine .trans _ _ _ (.rel _ _ (.here (.startTag hrespells))) ?_
    refine .trans _ _ _ (.rel _ _ (.inside (.here (.blank hblank (.inl rfl))))) ?_
    refine .trans _ _ _ (.rel _ _ (.inside (.leaf (.here (.spread hgap))))) ?_
    exact .rel _ _ (.inside (.leaf (.rest (.leaf (.here (.comment legible_comment_c))))))
  exact ⟨hplain, hnoise, sameContent_of_noise hplain hnoise⟩

/-- Blank text between texts of an element that are not blank does change a document's content. -/
theorem not_sameContent_of_separates (h : s.WellFormed) (h' : s'.WellFormed)
    (hbody : Within Separates "" s.body s'.body) :
    ∃ t t', Tree.parse s.text = .ok t ∧ Tree.parse s'.text = .ok t' ∧ t.sameContent t' = false ∧
      t'.sameContent t = false := by
  obtain ⟨t, hparse, -, -, houtlines⟩ := h.exists_parse
  obtain ⟨t', hparse', -, -, houtlines'⟩ := h'.exists_parse
  have hnot : ¬s.body.outline.SameTexts s'.body.outline := by
    refine hbody.not_sameTexts.resolve_right fun htext => ?_
    rw [String.empty_append, h.blank] at htext
    cases htext.1
  refine ⟨t, t', hparse, hparse', ?_, ?_⟩
  · refine Bool.eq_false_iff.mpr fun hsame => hnot ?_
    exact Tree.sameTexts_of_sameContent houtlines houtlines' h.root h'.root hsame
  · refine Bool.eq_false_iff.mpr fun hsame => hnot (.symm ?_)
    exact Tree.sameTexts_of_sameContent houtlines' houtlines h'.root h.root hsame

/-- The document `<a>x<b/><b/>y</a>`, with what is between the two elements. -/
def divided (between : Writing → Writing) : Script :=
  ⟨false, none, .pair (.ofSpelled "a" []) (.leaf (.text "x") (.empty (.ofSpelled "b" [])
    (between (.empty (.ofSpelled "b" []) (.leaf (.text "y") .nil))))) [] .nil⟩

/-- Blank text between two elements that stand between texts is no noise. -/
theorem not_sameContent_divided :
    (divided id).WellFormed ∧ (divided id).Noise (fun _ _ => True) (divided (.leaf (.text " "))) ∧
    (divided id).text = "<a>x<b/><b/>y</a>" ∧
    (divided (.leaf (.text " "))).text = "<a>x<b/> <b/>y</a>" ∧
    ∃ t t', Tree.parse (divided id).text = .ok t ∧
      Tree.parse (divided (.leaf (.text " "))).text = .ok t' ∧
      t.sameContent t' = false ∧ t'.sameContent t = false := by
  have ha : (Tag.ofSpelled "a" []).WellFormed :=
    ⟨_, Tag.spells_ofSpelled (by decide) (by decide) (by simp), by simp⟩
  have hx : '<' ∉ "x".toList := by decide
  have hreadx : (unescape "x").isSome = true := by decide +kernel
  have hy : '<' ∉ "y".toList := by decide
  have hready : (unescape "y").isSome = true := by decide +kernel
  have hblank : IsBlank " " := ⟨by decide, by decide +kernel, by decide +kernel⟩
  have hmeans : (Token.text " ").ownText ≠ "" := by decide +kernel
  have hmiddle : ¬AtEdge ("" ++ (Token.text "x").ownText)
      (Writing.empty (.ofSpelled "b" []) (.leaf (.text "y") .nil)).text := by
    rintro (h | h) <;> revert h <;> decide +kernel
  have hwell : (divided id).WellFormed :=
    ⟨⟨ha, ⟨rfl, hx, hreadx, wellFormed_ofSpelled_b, wellFormed_ofSpelled_b, rfl, hy, hready,
      trivial⟩, by simp, trivial⟩, rfl, trivial, by simp [divided]⟩
  have hseparates : Within Separates "" (divided id).body (divided (.leaf (.text " "))).body :=
    .inside (.leaf (.empty (.here (.blank hblank hmeans hmiddle))))
  have hnoise :
      Markup.Noise (fun _ _ => True) (divided id).body (divided (.leaf (.text " "))).body :=
    .rel _ _ (hseparates.mono Separates.reformats)
  have hwell' : (divided (.leaf (.text " "))).WellFormed :=
    ⟨hnoise.wellFormed_iff.mp hwell.body, rfl, trivial, by simp [divided]⟩
  exact ⟨hwell, ⟨rfl, .none, hnoise⟩, by decide +kernel, by decide +kernel,
    not_sameContent_of_separates hwell hwell' hseparates⟩

end Script

end MavenPom.Markup
