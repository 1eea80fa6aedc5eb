import MavenPom.Edit.Modification
import MavenPom.Proofs.Chain
import MavenPom.Proofs.Project.Growth
import MavenPom.Proofs.Upgrade

/-!
# Results of requests

What a request that has been carried out leaves of each document: the bytes that it was read from,
where its content has not changed, and else the edited tree in the layout that was captured.
-/

namespace MavenPom

open MavenPom.Action

namespace Document

variable {d d' d'' : Document}

/-- Both documents have been read from the same bytes, as the same tree, and in the same layout. -/
structure SameReading (d d' : Document) : Prop where
  bytes : d'.bytes = d.bytes
  tree : d'.tree = d.tree
  capture_eq : d'.capture = d.capture

theorem SameReading.refl (d : Document) : SameReading d d := ⟨rfl, rfl, rfl⟩

theorem SameReading.trans (h : SameReading d d') (h' : SameReading d' d'') : SameReading d d'' :=
  ⟨h'.bytes.trans h.bytes, h'.tree.trans h.tree, h'.capture_eq.trans h.capture_eq⟩

theorem sameReading_edit (f : Editor → Editor) (d : Document) : SameReading d (d.edit f) := by
  unfold Document.edit
  cases d.editor? with
  | none => exact .refl d
  | some e => exact ⟨rfl, rfl, rfl⟩

/-- A layout that has been captured stays the one that was captured first. -/
theorem sameReading_of_capture (h : Formatting.capture d = .ok d') : SameReading d d' := by
  unfold Formatting.capture captureLayout at h
  cases hlayout : d.capture with
  | error fault =>
    rw [hlayout] at h
    cases h
  | ok layout =>
    rw [hlayout] at h
    cases h
    exact ⟨rfl, rfl, hlayout.symm⟩

/-- A document that a request has been carried out for: it is marked as edited just where its
content has changed, and its result is its own bytes, or the edited tree in the captured layout. -/
structure Settled (d : Document) : Prop where
  dirty_eq : d.dirty = d.hasChanges
  unchanged : d.dirty = false → d.result = some d.bytes
  changed : d.dirty = true → ∃ layout text, d.capture = .ok layout ∧
    layout.restoreText d.editedText = .ok text ∧ d.result = some (layout.charset.encode text)

/-- A settled document whose content is as it was read results in its own bytes. -/
theorem Settled.result_eq (h : d'.Settled) (hread : SameReading d d') (hwell : d.tree.WellFormed)
    (hedited : d'.edited = d.tree) : d'.dirty = false ∧ d'.result = some d.bytes := by
  have hclean : d'.dirty = false := by
    rw [h.dirty_eq, hasChanges, hread.tree, hedited, Markup.Tree.sameContent_self hwell]
    rfl
  exact ⟨hclean, hread.bytes ▸ h.unchanged hclean⟩

theorem settled_discardChanges (h : d.hasChanges = false) : d.discardChanges.Settled where
  dirty_eq := h.symm
  unchanged _ := rfl
  changed hdirty := Bool.noConfusion hdirty

open Formatting in
/-- Writing the results settles the documents, once edits that change nothing have been dropped. -/
theorem settled_of_writeResult (h : writeResult (discardUnchanged d) = .ok d') :
    SameReading d d' ∧ d'.Settled := by
  unfold discardUnchanged at h
  cases hchanges : d.hasChanges with
  | false =>
    have hsame : d.discardChanges.hasChanges = false := hchanges
    rw [hchanges, if_neg (by simp), writeResult, hsame] at h
    cases h
    exact ⟨⟨rfl, rfl, rfl⟩, settled_discardChanges hchanges⟩
  | true =>
    rw [hchanges, if_pos rfl, writeResult, hchanges, if_neg (by simp)] at h
    cases hlayout : d.capture with
    | error fault =>
      rw [hlayout] at h
      cases h
    | ok layout =>
      cases htext : layout.restoreText d.editedText with
      | error fault =>
        have hrestore : layout.restore d.editedText = .error fault := by
          rw [Markup.Layout.restore, htext]
          rfl
        simp only [hlayout, Except.mapError, bind, Except.bind, hrestore] at h
        cases h
      | ok text =>
        have hrestore : layout.restore d.editedText = .ok (layout.charset.encode text) := by
          rw [Markup.Layout.restore, htext]
          rfl
        simp only [hlayout, Except.mapError, bind, Except.bind, hrestore] at h
        cases h
        refine ⟨⟨rfl, rfl, hlayout.symm⟩, hchanges.symm, fun hdirty => Bool.noConfusion hdirty, ?_⟩
        exact fun _ => ⟨layout, text, rfl, htext, rfl⟩

end Document

namespace Project

variable {p p' p'' : Project} {handled : Bool}

/-- The documents have been read alike, one by one. -/
structure SameReading (p p' : Project) : Prop where
  request : p'.request = p.request
  documents : List.Forall₂ Document.SameReading p.documents p'.documents

theorem SameReading.refl (p : Project) : SameReading p p :=
  ⟨rfl, List.forall₂_same.mpr fun d _ => .refl d⟩

theorem SameReading.trans (h : SameReading p p') (h' : SameReading p' p'') : SameReading p p'' :=
  ⟨h'.request.trans h.request,
    forall₂_trans (fun _ _ _ hd hd' => hd.trans hd') h.documents h'.documents⟩

theorem sameReading_edit (p : Project) (index : Nat) (f : Editor → Editor) :
    SameReading p (p.edit index f) := by
  refine ⟨request_modifyDocument .., ?_⟩
  rw [Project.edit, documents_modifyDocument]
  nth_rewrite 1 [← List.modify_id index p.documents]
  exact forall₂_modify (List.forall₂_same.mpr fun d _ => Document.SameReading.refl d) index
    fun d d' _ _ h => h.trans (Document.sameReading_edit f d')

/-- Bringing a dependency in leaves the documents read as they have been. -/
theorem sameReading_brought (p : Project) (d : Dependency) : SameReading p (p.brought d) :=
  brought_induction .refl .trans (fun _ _ _ => sameReading_edit p _ _)
    (fun _ _ _ => sameReading_edit _ _ _) fun q _ _ _ => sameReading_edit q _ _

theorem sameReading_noteHandled (command : Command Project RequestError) (p : Project) :
    SameReading p (Chain.noteHandled command p) := by
  unfold Chain.noteHandled
  split
  · exact ⟨rfl, List.forall₂_same.mpr fun d _ => .refl d⟩
  · exact .refl p

/-! ## Results -/

/-- The last turn on the way out, after unchanged documents have been discarded. -/
theorem settled_of_backward (h : Runs (Chain.backward supports.reverse) p () p') :
    List.Forall₂ (fun d d' => d.SameReading d' ∧ d'.Settled) p.documents p'.documents := by
  rw [show supports.reverse = Formatting.discardUnchangedAll :: Formatting.keepLayout ::
    [Guard.parentPackaging, Guard.dependencyPresent] from rfl, Chain.backward] at h
  obtain ⟨ends, p₁, hdiscard, h⟩ := runs_bind.mp h
  unfold Formatting.discardUnchangedAll at hdiscard
  rw [runs_get_bind, runs_set_bind] at hdiscard
  obtain ⟨hends, rfl⟩ := runs_pure.mp hdiscard
  have hdocuments : (p.mapDocuments Formatting.discardUnchanged).documents =
      p.documents.map Formatting.discardUnchanged := rfl
  cases ends with
  | true =>
    -- Nothing has changed anywhere, and all documents have been discarded.
    obtain ⟨-, rfl⟩ := runs_pure.mp h
    rw [hdocuments]
    refine List.forall₂_map_right_iff.mpr (List.forall₂_same.mpr fun d hd => ?_)
    have hall := List.all_eq_true.mp ((Bool.and_eq_true ..).mp hends.symm).2 d hd
    have hsame : d.hasChanges = false := by simpa using hall
    rw [Formatting.discardUnchanged, hsame, if_neg (by simp)]
    exact ⟨⟨rfl, rfl, rfl⟩, Document.settled_discardChanges hsame⟩
  | false =>
    rw [if_neg (by simp), Chain.backward] at h
    obtain ⟨ends, p₂, hkeep, h⟩ := runs_bind.mp h
    obtain ⟨_, p₃, hchange, hkept⟩ := runs_bind.mp hkeep
    obtain ⟨rfl, rfl⟩ := runs_pure.mp hkept
    obtain ⟨-, rfl⟩ := runs_pure.mp h
    obtain ⟨-, hwritten⟩ := Formatting.documents_of_changeDocuments hchange
    rw [hdocuments] at hwritten
    exact (List.forall₂_map_left_iff.mp hwritten).imp fun d d' => Document.settled_of_writeResult

/-- Results are settled by what the documents have been read as, whatever has been edited since. -/
theorem SameReading.settled {p₁ : Project} (h : SameReading p p₁)
    (hbackward : Runs (Chain.backward supports.reverse) p₁ () p') :
    List.Forall₂ (fun d d' => d.SameReading d' ∧ d'.Settled) p.documents p'.documents :=
  forall₂_trans (fun _ _ _ hd hd' => ⟨hd.trans hd'.1, hd'.2⟩) h.documents
    (settled_of_backward hbackward)

/-- A modification that is carried out ends with the supports' turn on the way out, after commands
that have left the documents read as they were. -/
theorem exists_backward_of_modify (h : Runs Project.modify p handled p') :
    ∃ p₁, SameReading p p₁ ∧ Runs (Chain.backward supports.reverse) p₁ () p' := by
  cases hd : p.request.dependency with
  | none =>
    obtain ⟨-, p₁, hrequest, hcaptured, hbackward⟩ := not_handled_of_modify hd h
    exact ⟨p₁, ⟨hrequest, hcaptured.imp fun _ _ => Document.sameReading_of_capture⟩, hbackward⟩
  | some d =>
    obtain ⟨-, -, p₁, command, hrequest, hcaptured, hbackward⟩ := brought_of_modify hd h
    have hcaptured : SameReading p p₁ :=
      ⟨hrequest, hcaptured.imp fun _ _ => Document.sameReading_of_capture⟩
    exact ⟨_,
      hcaptured.trans ((sameReading_brought p₁ d).trans (sameReading_noteHandled command _)),
      hbackward⟩

/-- A project that has been modified has settled documents, which have been read as they were. -/
theorem settled_of_modify (h : Runs Project.modify p handled p') :
    List.Forall₂ (fun d d' => d.SameReading d' ∧ d'.Settled) p.documents p'.documents := by
  obtain ⟨p₁, hread, hbackward⟩ := exists_backward_of_modify h
  exact hread.settled hbackward

theorem settled_listed : ∃ handled p', Runs Project.modify (listed "1") handled p' ∧
    List.Forall₂ (fun d d' => d.SameReading d' ∧ d'.Settled) (listed "1").documents
      p'.documents := by
  obtain ⟨handled, p', hruns, -⟩ := brings_listed.run
  exact ⟨handled, p', hruns, settled_of_modify hruns⟩

end Project

end MavenPom
