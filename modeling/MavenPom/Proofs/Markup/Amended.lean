import MavenPom.Proofs.Markup.Composed

/-!
# Amended trees

What every sequence of edits keeps of a tree: its nodes and their content, the top of the document,
that elements with content have some, and that texts run together only with line breaks.
-/

namespace MavenPom.Markup

/-! ## Content that edits add -/

theorem lt_not_mem_escape (text : String) : '<' ∉ (escape text).toList := by
  rw [escape, String.toList_ofList, List.mem_flatMap]
  rintro ⟨c, -, hc⟩
  unfold escapeChar at hc
  split at hc
  · revert hc
    decide
  · revert hc
    decide
  · revert hc
    decide
  · next hne _ _ =>
    exact hne (List.mem_singleton.mp hc).symm

namespace Indent

/-- Lines are indented by white space. -/
def IsBlank (style : Indent) : Prop := Text.isAllBlank style.unit = true

instance (style : Indent) : Decidable style.IsBlank := inferInstanceAs (Decidable (_ = true))

theorem isBlank_of_mem_newline {style : Indent} (h : style.IsBlank) {depth : ℕ} {c : Char}
    (hc : c ∈ (style.newline depth).toList) : Text.isBlank c = true := by
  rw [newline, String.toList_append] at hc
  rcases List.mem_append.mp hc with hc | hc
  · cases hbreak : style.lineBreak with
    | lf =>
      rw [hbreak] at hc
      rw [List.mem_singleton.mp hc]
      decide
    | crlf =>
      rw [hbreak] at hc
      have hmem : c = '\r' ∨ c = '\n' := by simpa [LineBreak.text] using hc
      rcases hmem with rfl | rfl <;> decide
  · rw [String.toList_join, List.mem_flatMap] at hc
    obtain ⟨unit, hunit, hc⟩ := hc
    rw [List.eq_of_mem_replicate hunit] at hc
    exact List.all_eq_true.mp h c hc

theorem plain_newline {style : Indent} (h : style.IsBlank) (depth : ℕ) :
    Plain (style.newline depth) := by
  intro c hc
  have hblank := isBlank_of_mem_newline h hc
  simp only [isReferenceChar, Bool.and_eq_true, bne_iff_ne]
  constructor <;>
  · rintro rfl
    revert hblank
    decide

theorem lt_not_mem_newline {style : Indent} (h : style.IsBlank) (depth : ℕ) :
    '<' ∉ (style.newline depth).toList := fun hc => by
  have hblank := isBlank_of_mem_newline h hc
  revert hblank
  decide

end Indent

/-- A name that an added element can have. -/
structure IsName (name : String) : Prop where
  nonempty : name.toList ≠ []
  chars : ∀ c ∈ name.toList, Strict.isNameChar c = true

instance (name : String) : Decidable (IsName name) :=
  decidable_of_iff (name.toList ≠ [] ∧ name.toList.all Strict.isNameChar = true)
    ⟨fun h => ⟨h.1, List.all_eq_true.mp h.2⟩, fun h => ⟨h.nonempty, List.all_eq_true.mpr h.chars⟩⟩

theorem IsName.legible {name : String} (h : IsName name) : Tag.Legible ⟨name, ""⟩ := by
  have hnot : ∀ {c : Char}, Strict.isNameChar c = false → c ∉ name.toList := fun hc =>
    Strict.not_mem_of_isNameChar hc h.chars
  have hinside : Tag.inside ⟨name, ""⟩ = name.toList := List.append_nil _
  obtain ⟨c, cs, hname⟩ := List.exists_cons_of_ne_nil h.nonempty
  have hmem : c ∈ name.toList := hname ▸ List.mem_cons_self ..
  refine ⟨⟨c, cs, hname, ?_, ?_, ?_⟩, h.chars, by simp, ⟨[], [], rfl, by simp, by simp⟩,
    fun rest => ?_, ?_⟩
  · rintro rfl
    exact hnot (by decide) hmem
  · rintro rfl
    exact hnot (by decide) hmem
  · rintro rfl
    exact hnot (by decide) hmem
  · rw [hinside]
    refine Token.tagContent?_append_of_not_mem fun d hd => ⟨?_, ?_, ?_⟩
    · rintro rfl
      exact hnot (by decide) hd
    · rintro rfl
      exact hnot (by decide) hd
    · rintro rfl
      exact hnot (by decide) hd
  · rw [hinside]
    intro hlast
    exact hnot (by decide) (List.mem_of_getLast? hlast)

namespace Tree

variable {t t' : Tree} {parent : NodeId} {name : String}

theorem exists_isName_elementUnder (h : IsName name)
    (hparent : ∀ e, t.content parent = .element e →
      ∀ c ∈ e.name.toList, Strict.isNameChar c = true) :
    ∃ full, t.elementUnder parent name = ⟨full, "", []⟩ ∧ IsName full := by
  unfold elementUnder
  cases hp : (t.element? parent).bind (·.nsPrefix) with
  | none => exact ⟨name, rfl, h⟩
  | some p =>
    obtain ⟨e, he, hprefix⟩ := Option.bind_eq_some_iff.mp hp
    obtain ⟨parts, hparts, rfl⟩ := Option.map_eq_some_iff.mp hprefix
    obtain ⟨⟨before, after⟩, hcut, rfl⟩ := Option.map_eq_some_iff.mp hparts
    refine ⟨_, rfl, ?_, fun c hc => ?_⟩
    · simp
    · simp only [String.toList_append, String.toList_ofList, List.mem_append] at hc
      rcases hc with (hc | hc) | hc
      · refine hparent e (element?_eq_some_iff.mp he) c ?_
        rw [Text.eq_of_cut? hcut]
        simp [hc]
      · obtain rfl : c = ':' := by simpa using hc
        decide
      · exact h.chars c hc

theorem rough_element (h : IsName name) : Content.Rough (.element ⟨name, "", []⟩) := by
  refine ⟨h.legible, ?_⟩
  rw [elementOf?]
  simp only [String.toList_empty]
  rw [Attribute.readAll_of_nil rfl]
  rfl

/-- All nodes that appending adds after the element are line breaks. -/
theorem content_appendElement (style : Indent) (x : ℕ) (hx : t.size < x)
    (hlt : x < (t.appendElement parent name style).1.size) :
    ∃ depth, (t.appendElement parent name style).1.content x = .text (style.newline depth) := by
  unfold appendElement at hlt ⊢
  simp only at hlt ⊢
  split
  · next hlast =>
    rw [if_pos hlast] at hlt
    simp only [insertBlank, size_attachAt, size_alloc] at hlt
    refine ⟨t.depth parent + 1, ?_⟩
    rw [content_attachAt, insertBlank, content_attachAt, content_alloc, if_pos]
    rw [size_alloc]
    exact Nat.le_antisymm (Nat.le_of_lt_succ hlt) hx
  · next hlast =>
    rw [if_neg hlast] at hlt
    simp only [insertBlank, attach, size_attachAt, size_alloc] at hlt
    rw [insertBlank, content_attachAt, content_alloc]
    split
    · exact ⟨_, rfl⟩
    · next hne =>
      simp only [insertBlank, attach, size_attachAt, size_alloc] at hne
      refine ⟨t.depth parent + 1, ?_⟩
      rw [attach, content_attachAt, insertBlank, content_attachAt, content_alloc, if_pos]
      rw [size_alloc]
      simp only [NodeId] at *
      omega

theorem content_insertElementBefore (before : NodeId) (style : Indent) (x : ℕ) (hx : t.size < x)
    (hlt : x < (t.insertElementBefore parent before name style).1.size) :
    ∃ depth, (t.insertElementBefore parent before name style).1.content x =
      .text (style.newline depth) := by
  unfold insertElementBefore at hlt ⊢
  split
  · next hnone =>
    rw [hnone] at hlt
    exact content_appendElement style x hx hlt
  · next index hindex =>
    rw [hindex] at hlt
    simp only [size_attachAt, size_alloc] at hlt
    refine ⟨t.depth parent + 1, ?_⟩
    simp only
    rw [content_attachAt, content_attachAt, content_alloc, if_pos]
    rw [size_alloc]
    exact Nat.le_antisymm (Nat.le_of_lt_succ hlt) hx

end Tree

/-! ## Texts between elements -/

namespace Content

variable {α : Type} {keep : α → Bool} {c : α → Content}

theorem startPlain_of_filter {l : List α}
    (hnew : ∀ x ∈ l, keep x = false →
      (∃ raw, c x = .text raw ∧ Plain raw) ∨ ∃ e, c x = .element e)
    (h : StartPlain ((l.filter keep).map c)) : StartPlain (l.map c) := by
  induction l with
  | nil => trivial
  | cons x l ih =>
    obtain ⟨hx, hnew⟩ := List.forall_mem_cons.mp hnew
    rw [List.map_cons]
    cases hkeep : keep x with
    | true =>
      rw [List.filter_cons_of_pos hkeep, List.map_cons] at h
      cases hcontent : c x with
      | text raw =>
        rw [hcontent] at h
        exact ⟨h.1, ih hnew h.2⟩
      | _ => trivial
    | false =>
      rw [List.filter_cons_of_neg (by simp [hkeep])] at h
      rcases hx hkeep with ⟨raw, hraw, hplain⟩ | ⟨e, he⟩
      · rw [hraw]
        exact ⟨hplain, ih hnew h⟩
      · rw [he]
        trivial

/-- Adding elements and texts without references anywhere brings no texts with references
    together. -/
theorem sparse_of_filter (keep : α → Bool) {l : List α}
    (hnew : ∀ x ∈ l, keep x = false →
      (∃ raw, c x = .text raw ∧ Plain raw) ∨ ∃ e, c x = .element e)
    (h : Sparse ((l.filter keep).map c)) : Sparse (l.map c) := by
  induction l with
  | nil => trivial
  | cons x l ih =>
    obtain ⟨hx, hnew⟩ := List.forall_mem_cons.mp hnew
    rw [List.map_cons]
    cases hkeep : keep x with
    | true =>
      rw [List.filter_cons_of_pos hkeep, List.map_cons] at h
      cases hcontent : c x with
      | text raw =>
        rw [hcontent] at h
        exact ⟨h.1.imp_right (startPlain_of_filter hnew), ih hnew h.2⟩
      | _ =>
        rw [hcontent] at h
        exact ih hnew h
    | false =>
      rw [List.filter_cons_of_neg (by simp [hkeep])] at h
      rcases hx hkeep with ⟨raw, hraw, hplain⟩ | ⟨e, he⟩
      · rw [hraw]
        exact ⟨.inl hplain, ih hnew h⟩
      · rw [he]
        exact ih hnew h

/-- Texts that stand apart do not follow one another at all. -/
theorem sparse_of_apart {cs : List Content} (h : Writing.Apart (cs.map Content.token?)) :
    Sparse cs := by
  induction cs with
  | nil => trivial
  | cons c cs ih =>
    cases c with
    | document => exact ih h
    | element e => exact ih h
    | text raw =>
      obtain ⟨htext, hrest⟩ := h
      refine ⟨.inr ?_, ih hrest⟩
      cases cs with
      | nil => trivial
      | cons next cs =>
        cases next with
        | text more => cases (htext rfl).2 (.text more) rfl
        | _ => trivial
    | _ => exact ih h.2

end Content

/-! ## Amended trees -/

namespace Tree

variable {t t' t'' : Tree} {parent x : NodeId} {name : String} {front back : List NodeId}

/-- `t'` is `t` after edits of its elements, and it can be written. -/
structure Amended (t t' : Tree) : Prop where
  wellFormed : t'.WellFormed
  size_le : t.size ≤ t'.size
  document : t'.content root = .document
  content : ∀ x < t.size, t'.content x = t.content x
  children_root : t'.children root = t.children root
  nonempty : ∀ x < t.size, t'.children x = [] → t.children x = []
  rough : ∀ x : ℕ, 0 < x → x < t'.size → (t'.content x).Rough
  bare : ∀ x e, t.size ≤ x → t'.content x = .element e → e.attributeText = ""
  sparse : ∀ x e, t'.content x = .element e → Content.Sparse ((t'.children x).map t'.content)

theorem lt_size_of_element {t : Tree} {id : NodeId} {e : Element} (h : t.content id = .element e) :
    id < t.size :=
  lt_size_of_element? (element?_eq_some_iff.mpr h)

theorem Amended.setText (h : Amended t t') {e : Element} (hx : t'.content x = .element e)
    (text : String) : Amended t (t'.setText x text) := by
  have hlt : x < t'.size := lt_size_of_element hx
  have hne : x ≠ root := by
    rintro rfl
    rw [h.document] at hx
    cases hx
  have hold : ∀ y < t'.size, (t'.setText x text).content y = t'.content y := fun y hy => by
    rw [content_setText, if_neg (Nat.ne_of_lt hy)]
  have hpos : 0 < t'.size := Nat.zero_lt_of_lt hlt
  refine ⟨h.wellFormed.setText text hlt, ?_, (hold root hpos).trans h.document, fun y hy => ?_, ?_,
    fun y hy hnil => ?_, fun y hy hsize => ?_, fun y e hy he => ?_, fun y e he => ?_⟩
  · rw [size_setText]
    exact Nat.le_succ_of_le h.size_le
  · rw [hold y (Nat.lt_of_lt_of_le hy h.size_le), h.content y hy]
  · rw [children_setText text hlt, if_neg hne, h.children_root]
  · rw [children_setText text hlt] at hnil
    split at hnil
    · cases hnil
    · exact h.nonempty y hy hnil
  · rw [content_setText]
    split
    · exact lt_not_mem_escape text
    · next hne =>
      rw [size_setText] at hsize
      simp only [NodeId] at *
      exact h.rough y hy (by omega)
  · rw [content_setText] at he
    split at he
    · cases he
    · exact h.bare y e hy he
  · have hylt : y ≠ t'.size := by
      rintro rfl
      rw [content_setText, if_pos rfl] at he
      cases he
    rw [content_setText, if_neg hylt] at he
    rw [children_setText text hlt]
    split
    · rw [List.map_singleton, content_setText, if_pos rfl]
      exact ⟨.inr trivial, trivial⟩
    · rw [List.map_congr_left fun c hc => hold c (h.wellFormed.child_lt hc)]
      exact h.sparse y e he

theorem Amended.inserted (h : Amended t t') {e : Element} (hparent : t'.content parent = .element e)
    (hname : IsName name) {style : Indent} (hstyle : style.IsBlank)
    (hinserted : Inserted t' t'' parent name front back)
    (hnewline : ∀ y : ℕ, t'.size < y → y < t''.size →
      ∃ depth, t''.content y = .text (style.newline depth)) : Amended t t'' := by
  have hlt := lt_size_of_element hparent
  have hpos : 0 < t'.size := Nat.zero_lt_of_lt hlt
  have hne : parent ≠ root := by
    rintro rfl
    rw [h.document] at hparent
    cases hparent
  obtain ⟨full, hfull, hisName⟩ := exists_isName_elementUnder (t := t') hname
    fun e he => (by
      have hrough := h.rough parent (Nat.pos_of_ne_zero hne) hlt
      rw [he] at hrough
      exact hrough.1.name_chars)
  have hnew := hinserted.content_new
  rw [hfull] at hnew
  refine ⟨hinserted.wellFormed, Nat.le_trans h.size_le (Nat.le_of_lt hinserted.size_lt),
    (hinserted.content root hpos).trans h.document, fun y hy => ?_, ?_, fun y hy hnil => ?_,
    fun y hy hsize => ?_, fun y e' hy he => ?_, fun y e' he => ?_⟩
  · rw [hinserted.content y (Nat.lt_of_lt_of_le hy h.size_le), h.content y hy]
  · rw [hinserted.children root hpos (Ne.symm hne), h.children_root]
  · by_cases heq : y = parent
    · subst heq
      have hmem : t'.size ∈ t''.childElements y := by rw [hinserted.after]; simp
      rw [childElements, hnil] at hmem
      cases hmem
    · rw [hinserted.children y (Nat.lt_of_lt_of_le hy h.size_le) heq] at hnil
      exact h.nonempty y hy hnil
  · rcases Nat.lt_trichotomy y t'.size with hold | rfl | hafter
    · rw [hinserted.content y hold]
      exact h.rough y hy hold
    · rw [hnew]
      exact rough_element hisName
    · obtain ⟨depth, hdepth⟩ := hnewline y hafter hsize
      rw [hdepth]
      exact Indent.lt_not_mem_newline hstyle depth
  · rcases Nat.lt_trichotomy y t'.size with hold | rfl | hafter
    · rw [hinserted.content y hold] at he
      exact h.bare y e' hy he
    · rw [hnew] at he
      cases he
      rfl
    · obtain ⟨depth, hdepth⟩ := hnewline y hafter (lt_size_of_element he)
      rw [hdepth] at he
      cases he
  · rcases Nat.lt_trichotomy y t'.size with hold | rfl | hafter
    · rw [hinserted.content y hold] at he
      by_cases heq : y = parent
      · subst heq
        refine Content.sparse_of_filter (· < t'.size) (fun c hc hkeep => ?_) ?_
        · have hge : t'.size ≤ c := by simpa using hkeep
          rcases Nat.eq_or_lt_of_le hge with rfl | hafter
          · exact .inr ⟨_, hnew⟩
          · obtain ⟨depth, hdepth⟩ := hnewline c hafter (hinserted.wellFormed.child_lt hc)
            exact .inl ⟨_, hdepth, Indent.plain_newline hstyle depth⟩
        · rw [hinserted.kept, List.map_congr_left fun c hc =>
            hinserted.content c (h.wellFormed.child_lt hc)]
          exact h.sparse y e' he
      · rw [hinserted.children y hold heq, List.map_congr_left fun c hc =>
          hinserted.content c (h.wellFormed.child_lt hc)]
        exact h.sparse y e' he
    · rw [hinserted.children_new]
      trivial
    · obtain ⟨depth, hdepth⟩ := hnewline y hafter (lt_size_of_element he)
      rw [hdepth] at he
      cases he

/-! ## Documents as they are read -/

theorem rough_of_adds {token : Token} (hleaf : token.isLeaf = true) (htoken : token.Legible)
    {c : Content} (h : Adds token c) : c.Rough := by
  cases token with
  | startTag tag => cases hleaf
  | emptyTag tag => cases hleaf
  | endTag name => cases hleaf
  | text raw =>
    cases h
    exact htoken.2
  | _ =>
    cases h
    exact htoken

theorem rough_of_elementOf? {tag : Tag} (htag : tag.Legible) {e : Element}
    (h : elementOf? tag = some e) : Content.Rough (.element e) := by
  obtain ⟨attributes, rfl⟩ := exists_attributes_of_elementOf? h
  exact ⟨htag, h⟩

theorem StandFor.sparse_children {w : Writing} (hw : w.Legible) {ids : List NodeId}
    (h : t.StandFor w ids) : Content.Sparse (ids.map t.content) := by
  refine Content.sparse_of_apart ?_
  have happart := hw.apart
  rw [h.top_eq] at happart
  rwa [List.map_map]

/-- In a document as it was read, all content is legible, and texts stand apart. -/
theorem Records.rough_sparse {w : Writing} (hw : w.Legible) {n : ℕ} (h : t.Records w n) {x : ℕ}
    (hx : n ≤ x) (hlt : x < n + w.count) : (t.content x).Rough ∧
      ∀ e, t.content x = .element e → Content.Sparse ((t.children x).map t.content) := by
  induction w generalizing n with
  | nil => exact absurd hlt (Nat.not_lt.mpr hx)
  | leaf token rest ih =>
    obtain ⟨hleaf, htoken, -, hrest⟩ := hw
    obtain ⟨-, hadds, hrecords⟩ := h
    rcases Nat.eq_or_lt_of_le hx with rfl | hnext
    · exact ⟨rough_of_adds hleaf htoken hadds, fun e he =>
        absurd he ((spelling_of_adds hleaf hadds).2.1 e)⟩
    · simp only [Writing.count] at hlt
      exact ih hrest hrecords hnext (by omega)
  | empty tag rest ih =>
    obtain ⟨⟨e, he, hcontent⟩, hchildren, hrecords⟩ := h
    rcases Nat.eq_or_lt_of_le hx with rfl | hnext
    · rw [hcontent, hchildren]
      exact ⟨rough_of_elementOf? hw.1 he, fun _ _ => trivial⟩
    · simp only [Writing.count] at hlt
      exact ih hw.2 hrecords hnext (by omega)
  | pair tag inside gap rest ihinside ihrest =>
    obtain ⟨htag, hinside, -, hrest⟩ := hw
    obtain ⟨⟨e, he, hcontent⟩, hchildren, hinner, hrecords⟩ := h
    simp only [Writing.count] at hlt
    rcases Nat.eq_or_lt_of_le hx with rfl | hnext
    · rw [hcontent, hchildren]
      exact ⟨rough_of_elementOf? htag he, fun _ _ => hinner.standFor.sparse_children hinside⟩
    · by_cases hin : x < n + 1 + inside.count
      · exact ihinside hinside hinner hnext hin
      · exact ihrest hrest hrecords (by omega) (by omega)

/-- A document as it was read is amended by no edits. -/
theorem Records.amended {w : Writing} (hw : w.Legible) (ht : t.WellFormed)
    (hdocument : t.content root = .document) (hsize : t.size = w.count + 1)
    (h : t.Records w 1) : Amended t t where
  wellFormed := ht
  size_le := Nat.le_refl _
  document := hdocument
  content _ _ := rfl
  children_root := rfl
  nonempty _ _ := id
  rough x hx hlt := (h.rough_sparse hw hx (by omega)).1
  bare x e hx he := absurd (lt_size_of_element he) (Nat.not_lt.mpr hx)
  sparse x e he := by
    have hlt := lt_size_of_element he
    have hpos : x ≠ root := by
      rintro rfl
      rw [hdocument] at he
      cases he
    exact (h.rough_sparse hw (Nat.pos_of_ne_zero hpos) (by simp only [NodeId] at *; omega)).2 e he

end Tree

end MavenPom.Markup
