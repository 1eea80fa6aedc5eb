import MavenPom.Proofs.Markup.Capture
import MavenPom.Proofs.Markup.Joined

/-!
# Tags of a writing

What holds of the tags in a writing, and that a writing whose attributes can be read is read as a
tree.
-/

namespace MavenPom.Markup

theorem Tag.Legible.attributes?_trimmed {tag : Tag} (h : tag.Legible) :
    tag.trimmed.attributes? = tag.attributes? := by
  rw [Tag.attributes?, h.elementOf?_trimmed, Option.map_map, Tag.attributes?]
  rfl

namespace Writing

/-- All elements in a writing have tags of a kind. -/
def Tags (p : Tag → Prop) : Writing → Prop
  | .nil => True
  | .leaf _ rest => rest.Tags p
  | .empty tag rest => p tag ∧ rest.Tags p
  | .pair tag inside _ rest => p tag ∧ inside.Tags p ∧ rest.Tags p

variable {p q : Tag → Prop} {w : Writing}

theorem Tags.mono (h : w.Tags p) (himp : ∀ tag, p tag → q tag) : w.Tags q := by
  induction w with
  | nil => trivial
  | leaf token rest ih => exact ih h
  | empty tag rest ih => exact ⟨himp _ h.1, ih h.2⟩
  | pair tag inside gap rest ihinside ihrest =>
    exact ⟨himp _ h.1, ihinside h.2.1, ihrest h.2.2⟩

theorem Tags.and (h : w.Tags p) (h' : w.Tags q) : w.Tags fun tag => p tag ∧ q tag := by
  induction w with
  | nil => trivial
  | leaf token rest ih => exact ih h h'
  | empty tag rest ih => exact ⟨⟨h.1, h'.1⟩, ih h.2 h'.2⟩
  | pair tag inside gap rest ihinside ihrest =>
    exact ⟨⟨h.1, h'.1⟩, ihinside h.2.1 h'.2.1, ihrest h.2.2 h'.2.2⟩

theorem Rough.tags (h : w.Rough) : w.Tags Tag.Legible := by
  induction w with
  | nil => trivial
  | leaf token rest ih => exact ih h.2.2
  | empty tag rest ih => exact ⟨h.1, ih h.2⟩
  | pair tag inside gap rest ihinside ihrest => exact ⟨h.1, ihinside h.2.1, ihrest h.2.2.2⟩

theorem Rough.collapse (h : w.Rough) : w.collapse.Rough := by
  induction w with
  | nil => trivial
  | leaf token rest ih => exact ⟨h.1, h.2.1, ih h.2.2⟩
  | empty tag rest ih => exact ⟨h.1.trimmed, ih h.2⟩
  | pair tag inside gap rest ihinside ihrest =>
    obtain ⟨htag, hinside, -, hrest⟩ := h
    rw [Writing.collapse]
    split
    · exact ⟨htag.trimmed, ihrest hrest⟩
    · exact ⟨htag, ihinside hinside, by simp, ihrest hrest⟩

theorem StartsPlain.collapse (h : w.StartsPlain) : w.collapse.StartsPlain := by
  induction w with
  | leaf token rest ih =>
    cases token with
    | text raw => exact ⟨h.1, ih h.2⟩
    | _ => trivial
  | pair tag inside gap rest =>
    rw [Writing.collapse]
    split <;> trivial
  | _ => trivial

theorem Sparse.collapse (h : w.Sparse) : w.collapse.Sparse := by
  induction w with
  | nil => trivial
  | leaf token rest ih =>
    cases token with
    | text raw => exact ⟨h.1.imp_right StartsPlain.collapse, ih h.2⟩
    | _ => exact ih h
  | empty tag rest ih => exact ih h
  | pair tag inside gap rest ihinside ihrest =>
    rw [Writing.collapse]
    split
    · exact ihrest h.2
    · exact ⟨ihinside h.1, ihrest h.2⟩

theorem text_collapse (w : Writing) : w.collapse.text = w.text := by
  induction w with
  | nil => rfl
  | leaf token rest ih => rw [Writing.collapse, text, ih, text]
  | empty tag rest ih => exact ih
  | pair tag inside gap rest _ ih =>
    rw [Writing.collapse]
    split <;> exact ih

/-- As a tree writes it, a writing has the same outline. -/
theorem outline_collapse (h : w.Tags Tag.Legible) : w.collapse.outline = w.outline := by
  induction w with
  | nil => rfl
  | leaf token rest ih => exact ih h
  | empty tag rest ih =>
    rw [Writing.collapse, outline, outline, h.1.attributes?_trimmed, ih h.2]
    rfl
  | pair tag inside gap rest ihinside ihrest =>
    obtain ⟨htag, hinside, hrest⟩ := h
    rw [Writing.collapse]
    split
    · next hnil =>
      obtain rfl := eq_nil_of_isNil hnil
      rw [outline, outline, htag.attributes?_trimmed, ihrest hrest]
      rfl
    · rw [outline, outline, ihinside hinside, ihrest hrest, text_collapse]

theorem Tags.collapse (h : w.Tags p) (htrimmed : ∀ tag, p tag → p tag.trimmed) :
    w.collapse.Tags p := by
  induction w with
  | nil => trivial
  | leaf token rest ih => exact ih h
  | empty tag rest ih => exact ⟨htrimmed _ h.1, ih h.2⟩
  | pair tag inside gap rest ihinside ihrest =>
    rw [Writing.collapse]
    split
    · exact ⟨htrimmed _ h.1, ihrest h.2.2⟩
    · exact ⟨h.1, ihinside h.2.1, ihrest h.2.2⟩

theorem Tags.afterText (h : w.Tags p) (raw : String) : (w.afterText raw).Tags p := by
  unfold Writing.afterText
  split
  · exact h
  · split <;> exact h

theorem Tags.joined (h : w.Tags p) : w.joined.Tags p := by
  induction w with
  | nil => trivial
  | leaf token rest ih =>
    cases token with
    | text raw => exact (ih h).afterText raw
    | _ =>
      rw [joined_leaf rfl]
      exact ih h
  | empty tag rest ih => exact ⟨h.1, ih h.2⟩
  | pair tag inside gap rest ihinside ihrest => exact ⟨h.1, ihinside h.2.1, ihrest h.2.2⟩

end Writing

namespace Tree

/-- The tags of nodes that a writing stands for are of a kind that all elements are of. -/
theorem StandFor.tags {t : Tree} (ht : t.WellFormed) {p : Tag → Prop}
    (hp : ∀ id e tag, id < t.size → t.content id = .element e → elementOf? tag = some e → p tag)
    {w : Writing} {ids : List NodeId} (h : t.StandFor w ids) (hids : ∀ id ∈ ids, id < t.size) :
    w.Tags p := by
  induction w generalizing ids with
  | nil => trivial
  | leaf token rest ih =>
    obtain ⟨id, more, rfl, -, -, hrest⟩ := h
    exact ih hrest (List.forall_mem_cons.mp hids).2
  | empty tag rest ih =>
    obtain ⟨id, more, e, rfl, htag, hcontent, -, hrest⟩ := h
    obtain ⟨hid, hmore⟩ := List.forall_mem_cons.mp hids
    exact ⟨hp id e tag hid hcontent htag, ih hrest hmore⟩
  | pair tag inside gap rest ihinside ihrest =>
    obtain ⟨id, more, e, rfl, htag, hcontent, hinside, hrest⟩ := h
    obtain ⟨hid, hmore⟩ := List.forall_mem_cons.mp hids
    exact ⟨hp id e tag hid hcontent htag, ihinside hinside fun c hc => ht.child_lt hc,
      ihrest hrest hmore⟩

theorem Outlines.tags {t : Tree} {w : Writing} {ids : List NodeId} (h : t.Outlines w.outline ids) :
    w.Tags (·.attributes?.isSome) := by
  induction w generalizing ids with
  | nil => trivial
  | leaf token rest ih => exact ih h
  | empty tag rest ih =>
    obtain ⟨_, _, _, -, -, -, hattributes, -, -, hrest⟩ := h
    exact ⟨Option.isSome_iff_exists.mpr ⟨_, hattributes.symm⟩, ih hrest⟩
  | pair tag inside gap rest ihinside ihrest =>
    obtain ⟨_, _, _, -, -, -, hattributes, -, hinside, hrest⟩ := h
    exact ⟨Option.isSome_iff_exists.mpr ⟨_, hattributes.symm⟩, ihinside hinside, ihrest hrest⟩

/-! ## Reading a writing -/

theorem Draft.exists_foldlM {w : Writing} (hw : w.Leaves) (h : w.Tags (·.attributes?.isSome))
    (position : ℕ) (d : Draft) (more : List Lexeme) :
    ∃ next : Draft, next.opened = d.opened ∧
      (w.lexemes position ++ more).foldlM Draft.take d = more.foldlM Draft.take next := by
  have helement : ∀ {tag : Tag}, tag.attributes?.isSome = true → ∃ e, elementOf? tag = some e := by
    intro tag htag
    rw [Tag.attributes?, Option.isSome_map] at htag
    exact Option.isSome_iff_exists.mp htag
  induction w generalizing position d more with
  | nil => exact ⟨d, rfl, rfl⟩
  | leaf token rest ih =>
    obtain ⟨c, htake⟩ : ∃ c, ∀ start stop, d.take ⟨token, start, stop⟩ = .ok (d.add c) := by
      have hleaf := hw.1
      cases token with
      | startTag tag => cases hleaf
      | emptyTag tag => cases hleaf
      | endTag name => cases hleaf
      | _ => exact ⟨_, fun _ _ => rfl⟩
    obtain ⟨next, hopened, hnext⟩ := ih hw.2 h (position + Utf8.size token.spelling) (d.add c)
      more
    refine ⟨next, hopened, ?_⟩
    rw [Writing.lexemes, List.cons_append, List.foldlM_cons, htake]
    exact hnext
  | empty tag rest ih =>
    obtain ⟨e, he⟩ := helement h.1
    obtain ⟨next, hopened, hnext⟩ := ih hw h.2
      (position + Utf8.size (Token.emptyTag tag).spelling) (d.add (.element e)) more
    refine ⟨next, hopened, ?_⟩
    rw [Writing.lexemes, List.cons_append, List.foldlM_cons, Draft.take]
    simp only [he]
    exact hnext
  | pair tag inside gap rest ihinside ihrest =>
    obtain ⟨htag, htagsinside, htagsrest⟩ := h
    obtain ⟨hinside, hrest⟩ := hw
    obtain ⟨e, he⟩ := helement htag
    rw [Writing.lexemes]
    obtain ⟨inner, hinner, hfold⟩ := ihinside hinside htagsinside
      (position + Utf8.size (Token.startTag tag).spelling)
      ⟨d.tree.pushChild d.current (.element e), d.tree.size :: d.opened⟩ _
    obtain ⟨next, hopened, hnext⟩ := ihrest hrest htagsrest _
      { inner with opened := inner.opened.tail } more
    refine ⟨next, hopened.trans (by simp only [hinner, List.tail_cons]), ?_⟩
    rw [List.append_assoc, List.cons_append, List.foldlM_cons, Draft.take]
    simp only [he]
    refine hfold.trans ?_
    rw [List.cons_append, List.foldlM_cons, Draft.take]
    exact hnext

theorem exists_firstTag? {t : Tree} {w : Writing} {ids : List NodeId} (h : t.StandFor w ids)
    {r : NodeId} (hr : ids.find? t.isElement = some r) : ∃ token, w.firstTag? = some token := by
  induction w generalizing ids with
  | nil =>
    obtain rfl : ids = [] := h
    cases hr
  | leaf token rest ih =>
    obtain ⟨id, more, rfl, hleaf, hadds, hrest⟩ := h
    obtain ⟨-, helement, -⟩ := spelling_of_adds hleaf hadds
    rw [List.find?_cons_of_neg (by simp [isElement, element?])] at hr
    exact ih hrest hr
  | empty tag rest => exact ⟨_, rfl⟩
  | pair tag inside gap rest => exact ⟨_, rfl⟩

theorem exists_root_of_firstTag? {t : Tree} {w : Writing} {token : Token}
    (hfirst : w.firstTag? = some token) {ids : List NodeId} (h : t.StandFor w ids) :
    (ids.find? t.isElement).isSome = true := by
  induction w generalizing ids with
  | nil => cases hfirst
  | leaf token rest ih =>
    obtain ⟨id, more, rfl, -, -, hrest⟩ := h
    obtain ⟨r, hr⟩ := Option.isSome_iff_exists.mp (ih hfirst hrest)
    rw [List.find?_isSome]
    exact ⟨r, .tail _ (List.mem_of_find?_eq_some hr), List.find?_some hr⟩
  | empty tag rest =>
    obtain ⟨id, more, e, rfl, -, hcontent, -⟩ := h
    rw [List.find?_cons_of_pos (by simp [isElement, element?, hcontent])]
    rfl
  | pair tag inside gap rest =>
    obtain ⟨id, more, e, rfl, -, hcontent, -⟩ := h
    rw [List.find?_cons_of_pos (by simp [isElement, element?, hcontent])]
    rfl

/-- Where tokens stand does not matter, unless reading fails. -/
theorem Draft.take_congr {d d' : Draft} {l l' : Lexeme} (htoken : l.token = l'.token)
    (h : d.take l = .ok d') : d.take l' = .ok d' := by
  unfold take at h ⊢
  rw [← htoken]
  cases hl : l.token with
  | startTag tag =>
    simp only [hl] at h ⊢
    cases he : elementOf? tag with
    | none => rw [he] at h; cases h
    | some e => rw [he] at h; exact h
  | emptyTag tag =>
    simp only [hl] at h ⊢
    cases he : elementOf? tag with
    | none => rw [he] at h; cases h
    | some e => rw [he] at h; exact h
  | _ =>
    simp only [hl] at h ⊢
    exact h

theorem Draft.foldlM_take_congr {ls ls' : List Lexeme}
    (htokens : ls.map (·.token) = ls'.map (·.token)) {d d' : Draft}
    (h : ls.foldlM Draft.take d = .ok d') : ls'.foldlM Draft.take d = .ok d' := by
  induction ls generalizing ls' d with
  | nil =>
    rw [List.map_nil, eq_comm, List.map_eq_nil_iff] at htokens
    rw [htokens]
    exact h
  | cons l ls ih =>
    cases ls' with
    | nil => cases htokens
    | cons l' ls' =>
      obtain ⟨htoken, hmore⟩ := List.cons.inj htokens
      obtain ⟨next, htake, hrest⟩ := exists_of_foldlM_cons h
      rw [List.foldlM_cons, take_congr htoken htake]
      exact ih hmore hrest

/-- A text with the tokens of a writing, with attributes that can be read, is read as a tree that
    stands for the writing. -/
theorem exists_parse_of_scan {text : String} {w : Writing} (hw : w.Leaves)
    (htags : w.Tags (·.attributes?.isSome)) {token : Token} (hfirst : w.firstTag? = some token)
    {ls : List Lexeme} (hscan : Token.scan text = ⟨ls, none⟩)
    (htokens : ls.map (·.token) = w.tokens) :
    ∃ t, parse text = .ok t ∧ t.WellFormed ∧ t.content root = .document ∧
      t.StandFor w (t.children root) := by
  obtain ⟨⟨t, opened⟩, hopened, hdraft⟩ := Draft.exists_foldlM hw htags 0 ⟨empty, []⟩ []
  obtain rfl : opened = [] := hopened
  rw [List.append_nil] at hdraft
  obtain ⟨hwell, hdocument, -, hchildren, hrecords⟩ := records_of_foldlM hw hdraft
  have hstand := hrecords.standFor
  rw [← hchildren] at hstand
  refine ⟨t, ?_, hwell, hdocument, hstand⟩
  obtain ⟨r, hr⟩ := Option.isSome_iff_exists.mp (exists_root_of_firstTag? hfirst hstand)
  have hroot : t.rootElement? = some r := hr
  have hread : ls.foldlM Draft.take ⟨empty, []⟩ = .ok ⟨t, []⟩ :=
    Draft.foldlM_take_congr ((w.map_token_lexemes 0).trans htokens.symm) hdraft
  unfold parse
  simp only [hscan, hread, bind, Except.bind, pure, Except.pure, List.head?_nil, hroot,
    Option.isNone_some, Bool.false_eq_true, if_false]

/-- A legible writing with attributes that can be read is read as a tree that stands for it. -/
theorem exists_parse_chars {w : Writing} (hw : w.Legible) (htags : w.Tags (·.attributes?.isSome))
    {token : Token} (hfirst : w.firstTag? = some token)
    (hmark : w.chars.head? ≠ some '\uFEFF') :
    ∃ t, parse (String.ofList w.chars) = .ok t ∧ t.WellFormed ∧ t.content root = .document ∧
      t.StandFor w (t.children root) := by
  refine exists_parse_of_scan hw.leaves htags hfirst ?_ (w.map_token_lexemes 0)
  rw [Token.scan_ofList, Token.scanChars_of_head?_ne hmark, Writing.scanFrom_self hw]

end Tree

end MavenPom.Markup
