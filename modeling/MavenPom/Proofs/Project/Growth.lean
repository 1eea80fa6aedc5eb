import MavenPom.Edit.Formatting
import MavenPom.Proofs.Markup.Restore
import MavenPom.Proofs.Project.Edits

/-!
# Projects that grow

Documents that have been read, and edited below their root elements if at all, can have their
results written. Capturing layouts leaves everything else as it is.
-/

namespace MavenPom

open Markup MavenPom.Action

/-! ## Equality of content -/

theorem Markup.Tree.sameElement_self {t : Tree} (h : t.WellFormed) (height : ℕ) {id : NodeId}
    (hid : t.isElement id = true) (hheight : t.size ≤ id + height) :
    sameElement t t height id id = true := by
  induction height generalizing id with
  | zero =>
    exact absurd hheight (Nat.not_le.mpr (lt_of_isElement hid))
  | succ height ih =>
    obtain ⟨e, he⟩ := Option.isSome_iff_exists.mp hid
    have hchildren : ((t.childElements id).zip (t.childElements id)).all
        (fun pair => sameElement t t height pair.1 pair.2) = true := by
      rw [List.all_eq_true]
      intro pair hpair
      obtain ⟨child, hchild, rfl⟩ : ∃ child ∈ t.childElements id, pair = (child, child) := by
        rw [List.zip_eq_zipWith, List.zipWith_self] at hpair
        obtain ⟨child, hchild, rfl⟩ := List.mem_map.mp hpair
        exact ⟨child, hchild, rfl⟩
      obtain ⟨hmem, helement⟩ := List.mem_filter.mp hchild
      have hbelow : id + (height + 1) ≤ child + height := by
        rw [← Nat.add_assoc, Nat.add_right_comm]
        exact Nat.add_le_add_right (h.lt_child hmem) height
      exact ih helement (Nat.le_trans hheight hbelow)
    rw [sameElement]
    simp only [he, beq_self_eq_true, Bool.true_and]
    exact hchildren

theorem Markup.Tree.sameContent_self {t : Tree} (h : t.WellFormed) : t.sameContent t = true := by
  unfold sameContent
  cases hroot : t.rootElement? with
  | none => rfl
  | some r => exact sameElement_self h _ (List.find?_some hroot) (Nat.le_add_left ..)

namespace Document

variable {d d' d'' : Document}

/-- A document that a result can be written of: it is well-formed, and edited below its root element
    if at all. -/
structure Tended (d : Document) : Prop where
  spelled : d.tree.Spelled
  capture : ∃ layout, Layout.capture d.text d.charset = .ok layout
  edited : ∃ r, Tree.Grown r d.tree d.edited

/-- A document that has been read has the charset that was detected, the text that was decoded, and
    a tree and a POM of this text, each from its own reader. -/
theorem read_of_ofBytes {bytes : Bytes} {source : DocumentSource}
    (h : ofBytes bytes source = .ok d) :
    Charset.detect bytes = .ok d.charset ∧ d.charset.decode bytes = .ok d.text ∧
      Tree.parse d.text = .ok d.tree ∧ Pom.parse d.text source.text = .ok d.pom := by
  unfold ofBytes at h
  dsimp only at h
  obtain ⟨charset, hcharset, h⟩ := bind_eq_ok.mp h
  obtain ⟨text, htext, h⟩ := bind_eq_ok.mp h
  obtain ⟨tree, htree, h⟩ := bind_eq_ok.mp h
  obtain ⟨pom, hpom, h⟩ := bind_eq_ok.mp h
  cases h
  exact ⟨ok_of_mapError hcharset, ok_of_mapError htext, ok_of_mapError htree, hpom⟩

/-- Both readers accept the text of a document that has been read, and the document has its tree
    from one and its POM from the other. -/
theorem exists_node_of_ofBytes {bytes : Bytes} {source : DocumentSource}
    (h : ofBytes bytes source = .ok d) :
    Tree.parse d.text = .ok d.tree ∧
      ∃ node, Strict.parse? d.text = some node ∧ d.pom = Pom.ofNode node := by
  obtain ⟨-, -, htree, hpom⟩ := read_of_ofBytes h
  unfold Pom.parse at hpom
  split at hpom
  · next node hnode => exact ⟨htree, node, hnode, (Except.ok.inj hpom).symm⟩
  · cases hpom

theorem parse_of_ofBytes {bytes : Bytes} {source : DocumentSource}
    (h : ofBytes bytes source = .ok d) :
    Tree.parse d.text = .ok d.tree ∧ ∃ node, Strict.parse? d.text = some node := by
  obtain ⟨hparse, node, hnode, -⟩ := exists_node_of_ofBytes h
  exact ⟨hparse, node, hnode⟩

theorem tended_of_ofBytes {bytes : Bytes} {source : DocumentSource}
    (h : ofBytes bytes source = .ok d) : d.Tended := by
  obtain ⟨hparse, node, hnode⟩ := parse_of_ofBytes h
  obtain ⟨-, -, hedited, -⟩ := facts_of_ofBytes h
  have hspelled := Tree.spelled_of_parse hparse hnode
  obtain ⟨_, -, -, hroot⟩ := Tree.exists_draft_of_parse hparse
  obtain ⟨r, hr⟩ := Option.isSome_iff_exists.mp hroot
  refine ⟨hspelled, Layout.exists_capture hparse d.charset, r, ?_⟩
  rw [hedited]
  exact .refl (hspelled.rooted hr)

theorem Tended.exists_capture (h : d.Tended) : ∃ layout, d.capture = .ok layout := by
  unfold Document.capture
  cases d.layout with
  | some layout => exact ⟨layout, rfl⟩
  | none =>
    obtain ⟨layout, hlayout⟩ := h.capture
    exact ⟨layout, by simp only [hlayout]; rfl⟩

/-- A layout that has not been captured yet is that of the text. -/
theorem capture_of_fresh (hfresh : d.layout = none) {layout : Layout}
    (h : d.capture = .ok layout) : Layout.capture d.text d.charset = .ok layout := by
  rw [Document.capture, hfresh] at h
  exact ok_of_mapError h

/-- Where the edited tree differs, it has grown below its root element. -/
theorem Tended.exists_grown (h : d.Tended) (hchanges : d.hasChanges = true) :
    ∃ r, Tree.Grown r d.tree d.edited ∧ d.edited.children r ≠ [] := by
  obtain ⟨r, hgrown⟩ := h.edited
  refine ⟨r, hgrown, ?_⟩
  rcases hgrown.grown with heq | hne
  · rw [hasChanges, heq, Tree.sameContent_self h.spelled.wellFormed] at hchanges
    cases hchanges
  · exact hne

/-- Any layout can be put back into what has grown. -/
theorem Tended.exists_writeResult (h : d.Tended) : ∃ d', Formatting.writeResult d = .ok d' := by
  unfold Formatting.writeResult
  cases hchanges : d.hasChanges with
  | false => exact ⟨_, rfl⟩
  | true =>
    obtain ⟨r, hgrown, hne⟩ := h.exists_grown hchanges
    obtain ⟨layout, hlayout⟩ := h.exists_capture
    obtain ⟨text, htext⟩ := layout.exists_restoreText h.spelled hgrown hne
    have hrestore : layout.restore d.editedText = .ok (layout.charset.encode text) := by
      rw [Layout.restore, editedText, htext]
      rfl
    refine ⟨{ d with
      layout := some layout, result := some (layout.charset.encode text), dirty := true }, ?_⟩
    simp only [Bool.not_true, Bool.false_eq_true, if_false, hlayout, hrestore, Except.mapError,
      bind, Except.bind]
    rfl

theorem Tended.discardUnchanged (h : d.Tended) : (Formatting.discardUnchanged d).Tended := by
  unfold Formatting.discardUnchanged
  split
  · exact h
  · exact ⟨h.spelled, h.capture, h.edited⟩

/-- `d'` is `d`, but for the layout that may have been captured. -/
def Untouched (d d' : Document) : Prop := d' = { d with layout := d'.layout }

theorem Untouched.refl (d : Document) : Untouched d d := rfl

theorem Untouched.trans (h : Untouched d d') (h' : Untouched d' d'') : Untouched d d'' := by
  unfold Untouched at *
  rw [h', h]

theorem Untouched.tended (h : Untouched d d') (hd : d.Tended) : d'.Tended := by
  unfold Untouched at h
  rw [h]
  exact ⟨hd.spelled, hd.capture, hd.edited⟩

/-- Whether a layout can be captured does not depend on the charset. -/
theorem Tended.of_sameEdits (hd : d.Tended) (h : d.SameEdits d') : d'.Tended := by
  obtain ⟨layout, hlayout⟩ := hd.capture
  refine ⟨h.tree ▸ hd.spelled, ?_, by rw [h.tree, h.edited]; exact hd.edited⟩
  rw [h.text]
  unfold Layout.capture at hlayout ⊢
  cases hspan : rootTagSpan d.text with
  | error fault =>
    rw [hspan] at hlayout
    cases hlayout
  | ok span => exact ⟨_, rfl⟩

theorem untouched_of_capture (h : Formatting.capture d = .ok d') : Untouched d d' := by
  unfold Formatting.capture captureLayout at h
  cases hlayout : d.capture with
  | error fault =>
    rw [hlayout] at h
    cases h
  | ok layout =>
    rw [hlayout] at h
    cases h
    rfl

/-- `d'` is `d` with more below the root element of its edited tree. -/
structure Grows (d d' : Document) : Prop where
  tree : d'.tree = d.tree
  text : d'.text = d.text
  charset : d'.charset = d.charset
  edited : ∀ r, d.edited.Rooted r → Tree.Grown r d.edited d'.edited

theorem Grows.refl (d : Document) : Grows d d := ⟨rfl, rfl, rfl, fun _ hr => .refl hr⟩

theorem Grows.trans (h : Grows d d') (h' : Grows d' d'') : Grows d d'' where
  tree := h'.tree.trans h.tree
  text := h'.text.trans h.text
  charset := h'.charset.trans h.charset
  edited r hr := (h.edited r hr).trans (h'.edited r (h.edited r hr).rooted)

theorem Grows.tended (h : Grows d d') (hd : d.Tended) : d'.Tended := by
  obtain ⟨r, hr⟩ := hd.edited
  refine ⟨h.tree ▸ hd.spelled, h.text ▸ h.charset ▸ hd.capture, r, ?_⟩
  rw [h.tree]
  exact hr.trans (h.edited r hr.rooted)

theorem editor?_of_rooted {r : NodeId} (hr : d.edited.Rooted r) :
    ∃ e, d.editor? = some e ∧ e.tree = d.edited ∧ e.root = r := by
  refine ⟨_, by rw [editor?, hr.rootElement?]; rfl, rfl, rfl⟩

theorem grows_edit {f : Editor → Editor}
    (hf : ∀ e, d.editor? = some e → e.tree.Rooted e.root → e.Grown (f e)) :
    Grows d (d.edit f) := by
  unfold Document.edit
  cases he : d.editor? with
  | none => exact .refl d
  | some e =>
    refine ⟨rfl, rfl, rfl, fun r hr => ?_⟩
    obtain ⟨e', he', htree, hroot⟩ := editor?_of_rooted hr
    obtain rfl := Option.some.inj (he.symm.trans he')
    have hgrown := (hf e he (by rw [htree, hroot]; exact hr)).tree
    rw [htree, hroot] at hgrown
    exact hgrown

end Document

namespace Project

variable {p p' p'' : Project} {index : ℕ} {x : NodeId}

/-- Results can be written of all documents. -/
def Tended (p : Project) : Prop := ∀ d ∈ p.documents, d.Tended

/-- `p'` is `p`, but for the layouts that may have been captured. -/
structure Untouched (p p' : Project) : Prop where
  request : p'.request = p.request
  modified : p'.modified = p.modified
  documents : List.Forall₂ Document.Untouched p.documents p'.documents

theorem Untouched.refl (p : Project) : Untouched p p :=
  ⟨rfl, rfl, List.forall₂_same.mpr fun d _ => .refl d⟩

theorem Untouched.trans (h : Untouched p p') (h' : Untouched p' p'') : Untouched p p'' :=
  ⟨h'.request.trans h.request, h'.modified.trans h.modified,
    forall₂_trans (fun _ _ _ hd hd' => hd.trans hd') h.documents h'.documents⟩

theorem Untouched.tended (h : Untouched p p') (hp : p.Tended) : p'.Tended :=
  forall_mem_of_forall₂ h.documents (fun _ _ hd => hd.tended) hp

/-- `p'` is `p` with more in its documents. -/
structure Grows (p p' : Project) : Prop where
  request : p'.request = p.request
  documents : List.Forall₂ Document.Grows p.documents p'.documents

theorem Grows.refl (p : Project) : Grows p p :=
  ⟨rfl, List.forall₂_same.mpr fun d _ => .refl d⟩

theorem Grows.trans (h : Grows p p') (h' : Grows p' p'') : Grows p p'' :=
  ⟨h'.request.trans h.request,
    forall₂_trans (fun _ _ _ hd hd' => hd.trans hd') h.documents h'.documents⟩

theorem Grows.tended (h : Grows p p') (hp : p.Tended) : p'.Tended :=
  forall_mem_of_forall₂ h.documents (fun _ _ hd => hd.tended) hp

theorem grows_edit {f : Editor → Editor}
    (hf : ∀ d e, p.document? index = some d → d.editor? = some e → e.tree.Rooted e.root →
      e.Grown (f e)) : p.Grows (p.edit index f) := by
  refine ⟨request_modifyDocument .., ?_⟩
  rw [Project.edit, documents_modifyDocument]
  nth_rewrite 1 [← List.modify_id index p.documents]
  refine forall₂_modify (List.forall₂_same.mpr fun d _ => Document.Grows.refl d) index
    fun d d' hd hd' h => h.trans (Document.grows_edit fun e he hr => hf d' e hd' he hr)

theorem grows_noteHandled (c : Command Project RequestError) (p : Project) :
    p.Grows (Chain.noteHandled c p) := by
  unfold Chain.noteHandled
  split
  · exact ⟨rfl, List.forall₂_same.mpr fun d _ => .refl d⟩
  · exact .refl p

end Project

end MavenPom
