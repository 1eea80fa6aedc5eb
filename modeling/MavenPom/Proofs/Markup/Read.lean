import MavenPom.Proofs.Markup.Edit

/-!
# Trees as they are read

Reading a document keeps the arena a tree, whatever its tokens are.
-/

namespace MavenPom.Markup.Tree

/-- The content of the node that a token adds to a tree. -/
def Adds : Token → Content → Prop
  | .startTag tag, c => ∃ attributes, c = .element ⟨tag.name, tag.attributeText, attributes⟩
  | .emptyTag tag, c => ∃ attributes, c = .element ⟨tag.name, tag.attributeText, attributes⟩
  | .endTag _, _ => False
  | .text raw, c => c = .text raw
  | .cdata content, c => c = .cdata content
  | .comment content, c => c = .comment content
  | .declaration content, c => c = .declaration content
  | .instruction content, c => c = .instruction content
  | .doctype content, c => c = .doctype content

theorem exists_attributes_of_elementOf? {tag : Tag} {e : Element} (h : elementOf? tag = some e) :
    ∃ attributes, e = ⟨tag.name, tag.attributeText, attributes⟩ := by
  obtain ⟨attributes, -, rfl⟩ := Option.map_eq_some_iff.mp h
  exact ⟨attributes, rfl⟩

theorem Draft.exists_of_take_startTag {d d' : Draft} {tag : Tag} {start stop : ℕ}
    (h : d.take ⟨.startTag tag, start, stop⟩ = .ok d') :
    ∃ e, elementOf? tag = some e ∧
      d' = ⟨d.tree.pushChild d.current (.element e), d.tree.size :: d.opened⟩ := by
  simp only [take] at h
  cases helement : elementOf? tag with
  | none => rw [helement] at h; cases h
  | some e =>
    rw [helement] at h
    cases h
    exact ⟨e, rfl, rfl⟩

theorem Draft.exists_of_take_emptyTag {d d' : Draft} {tag : Tag} {start stop : ℕ}
    (h : d.take ⟨.emptyTag tag, start, stop⟩ = .ok d') :
    ∃ e, elementOf? tag = some e ∧ d' = d.add (.element e) := by
  simp only [take] at h
  cases helement : elementOf? tag with
  | none => rw [helement] at h; cases h
  | some e =>
    rw [helement] at h
    cases h
    exact ⟨e, rfl, rfl⟩

/-- A token adds a node, and may leave it open, or it is an end tag. -/
theorem Draft.take_cases {d d' : Draft} {lexeme : Lexeme} (h : d.take lexeme = .ok d') :
    (∃ c, Adds lexeme.token c ∧
      (d' = ⟨d.tree.pushChild d.current c, d.tree.size :: d.opened⟩ ∨ d' = d.add c)) ∨
    ((∃ name, lexeme.token = .endTag name) ∧ d' = { d with opened := d.opened.tail }) := by
  obtain ⟨token, start, stop⟩ := lexeme
  cases token with
  | startTag tag =>
    obtain ⟨e, helement, rfl⟩ := exists_of_take_startTag h
    obtain ⟨attributes, rfl⟩ := exists_attributes_of_elementOf? helement
    exact .inl ⟨_, ⟨attributes, rfl⟩, .inl rfl⟩
  | emptyTag tag =>
    obtain ⟨e, helement, rfl⟩ := exists_of_take_emptyTag h
    obtain ⟨attributes, rfl⟩ := exists_attributes_of_elementOf? helement
    exact .inl ⟨_, ⟨attributes, rfl⟩, .inr rfl⟩
  | endTag name =>
    cases h
    exact .inr ⟨⟨name, rfl⟩, rfl⟩
  | _ =>
    cases h
    exact .inl ⟨_, rfl, .inr rfl⟩

theorem Draft.exists_of_foldlM_cons {d d' : Draft} {lexeme : Lexeme} {rest : List Lexeme}
    (h : (lexeme :: rest).foldlM Draft.take d = .ok d') :
    ∃ next, d.take lexeme = .ok next ∧ rest.foldlM Draft.take next = .ok d' := by
  rw [List.foldlM_cons] at h
  cases htake : d.take lexeme with
  | error e => simp [htake, bind, Except.bind] at h
  | ok next =>
    rw [htake] at h
    exact ⟨next, rfl, h⟩

theorem Draft.exists_of_foldlM_append {d d' : Draft} {before after : List Lexeme}
    (h : (before ++ after).foldlM Draft.take d = .ok d') :
    ∃ next, before.foldlM Draft.take d = .ok next ∧ after.foldlM Draft.take next = .ok d' := by
  induction before generalizing d with
  | nil => exact ⟨d, rfl, h⟩
  | cons lexeme before ih =>
    obtain ⟨first, htake, h⟩ := exists_of_foldlM_cons h
    obtain ⟨next, hbefore, hafter⟩ := ih h
    exact ⟨next, by rw [List.foldlM_cons, htake]; exact hbefore, hafter⟩

/-- A draft whose open nodes are nodes of its tree. -/
structure Draft.Sound (d : Draft) : Prop where
  wellFormed : d.tree.WellFormed
  nonempty : 0 < d.tree.size
  opened_lt : ∀ id ∈ d.opened, id < d.tree.size

namespace Draft.Sound

variable {d : Draft}

theorem current_lt (h : d.Sound) : d.current < d.tree.size := by
  unfold Draft.current
  cases hopened : d.opened with
  | nil => exact h.nonempty
  | cons id rest => exact h.opened_lt id (by simp [hopened])

theorem add (h : d.Sound) (c : Content) : (d.add c).Sound where
  wellFormed := h.wellFormed.pushChild c h.current_lt
  nonempty := by simp [Draft.add]
  opened_lt id hid := by
    simpa [Draft.add] using Nat.lt_succ_of_lt (h.opened_lt id hid)

theorem enter (h : d.Sound) (c : Content) :
    (⟨d.tree.pushChild d.current c, d.tree.size :: d.opened⟩ : Draft).Sound where
  wellFormed := h.wellFormed.pushChild c h.current_lt
  nonempty := by simp
  opened_lt id hid := by
    rcases List.mem_cons.mp hid with rfl | hid
    · simp
    · simpa using Nat.lt_succ_of_lt (h.opened_lt id hid)

theorem leave (h : d.Sound) : ({ d with opened := d.opened.tail } : Draft).Sound :=
  ⟨h.wellFormed, h.nonempty, fun id hid => h.opened_lt id (List.mem_of_mem_tail hid)⟩

theorem take (h : d.Sound) {lexeme : Lexeme} {d' : Draft} (ht : d.take lexeme = .ok d') :
    d'.Sound := by
  rcases Draft.take_cases ht with ⟨c, -, rfl | rfl⟩ | ⟨-, rfl⟩
  · exact h.enter c
  · exact h.add c
  · exact h.leave

theorem foldlM (h : d.Sound) {lexemes : List Lexeme} {d' : Draft}
    (ht : lexemes.foldlM Draft.take d = .ok d') : d'.Sound := by
  induction lexemes generalizing d with
  | nil =>
    cases ht
    exact h
  | cons lexeme rest ih =>
    obtain ⟨next, htake, hrest⟩ := Draft.exists_of_foldlM_cons ht
    exact ih (h.take htake) hrest

end Draft.Sound

/-- A document is read without a fault, all of its tokens are taken in, and no element stays
    open. -/
theorem foldlM_of_parse {text : String} {t : Tree} (h : parse text = .ok t) :
    (Token.scan text).fault = none ∧
      (Token.scan text).lexemes.foldlM Draft.take ⟨empty, []⟩ = .ok ⟨t, []⟩ ∧
        t.rootElement?.isSome := by
  unfold parse at h
  dsimp only at h
  cases hdraft : (Token.scan text).lexemes.foldlM Draft.take ⟨empty, []⟩ with
  | error e => simp [hdraft, bind, Except.bind] at h
  | ok d =>
    obtain ⟨tree, opened⟩ := d
    cases hfault : (Token.scan text).fault with
    | some fault => simp [hdraft, hfault, bind, Except.bind, throw, throwThe,
        MonadExceptOf.throw] at h
    | none =>
      cases opened with
      | cons id rest => simp [hdraft, hfault, bind, Except.bind, throw, throwThe,
          MonadExceptOf.throw] at h
      | nil =>
        cases hroot : tree.rootElement? with
        | none => simp [hdraft, hfault, hroot, bind, Except.bind, throw, throwThe,
            MonadExceptOf.throw] at h
        | some r =>
          simp only [hdraft, hfault, hroot, bind, Except.bind, pure, Except.pure] at h
          cases h
          exact ⟨rfl, rfl, by rw [hroot]; rfl⟩

/-- The draft that a document is read from, once all of it has been taken in. -/
theorem exists_draft_of_parse {text : String} {t : Tree} (h : parse text = .ok t) :
    ∃ d, (Token.scan text).lexemes.foldlM Draft.take ⟨empty, []⟩ = .ok d ∧ t = d.tree ∧
      t.rootElement?.isSome :=
  ⟨⟨t, []⟩, (foldlM_of_parse h).2.1, rfl, (foldlM_of_parse h).2.2⟩

theorem Draft.Sound.start : (⟨empty, []⟩ : Draft).Sound :=
  ⟨WellFormed.empty, by simp [empty, size], by simp⟩

/-- Every document that can be read is a tree. -/
theorem wellFormed_of_parse {text : String} {t : Tree} (h : parse text = .ok t) :
    t.WellFormed := by
  obtain ⟨d, hdraft, rfl, -⟩ := exists_draft_of_parse h
  exact (Draft.Sound.start.foldlM hdraft).wellFormed

end MavenPom.Markup.Tree
