import MavenPom.Proofs.Edit.Order
import MavenPom.Proofs.Upgrade

/-!
# Documents in order

A modification leaves the elements of every document in order. Whatever it adds has its place among
the others there, and what has been there stays as it was arranged.
-/

namespace MavenPom

open MavenPom.Action VersionSlot Insertion

/-! ## Documents -/

namespace Document

variable {doc doc' doc'' : Document}

/-- `doc'` comes from `doc` by edits that keep the order of its elements. -/
def KeepsOrder (doc doc' : Document) : Prop :=
  doc.edited.WellFormed → doc.edited.KeepsOrder doc'.edited

theorem KeepsOrder.refl (doc : Document) : KeepsOrder doc doc := fun hwell => .refl hwell

theorem KeepsOrder.trans (h : KeepsOrder doc doc') (h' : KeepsOrder doc' doc'') :
    KeepsOrder doc doc'' :=
  fun hwell => (h hwell).trans (h' (h hwell).wellFormed)

theorem keepsOrder_edit {f : Editor → Editor} (hf : ∀ e, doc.editor? = some e → e.Sound →
    e.tree.KeepsOrder (f e).tree) : KeepsOrder doc (doc.edit f) := by
  intro hwell
  unfold Document.edit
  cases he : doc.editor? with
  | none => exact .refl hwell
  | some e =>
    have hkeeps := hf e he (sound_of_editor? hwell he)
    obtain ⟨root, hroot, rfl⟩ := Option.map_eq_some_iff.mp he
    exact hkeeps

end Document

/-! ## Commands -/

namespace Project

variable {p p' p'' : Project} {d : Dependency} {index : ℕ} {c : Container} {u : Unit}

/-- `p'` comes from `p` by edits that keep the order in its documents. -/
def KeepsOrder (p p' : Project) : Prop :=
  List.Forall₂ Document.KeepsOrder p.documents p'.documents

theorem KeepsOrder.refl (p : Project) : KeepsOrder p p :=
  List.forall₂_same.mpr fun doc _ => .refl doc

theorem KeepsOrder.trans (h : KeepsOrder p p') (h' : KeepsOrder p' p'') : KeepsOrder p p'' :=
  forall₂_trans (fun _ _ _ hdoc hdoc' => hdoc.trans hdoc') h h'

theorem keepsOrder_edit {f : Editor → Editor} (hf : ∀ doc e, p.document? index = some doc →
    doc.editor? = some e → e.Sound → e.tree.KeepsOrder (f e).tree) :
    KeepsOrder p (p.edit index f) := by
  rw [KeepsOrder, Project.edit, documents_modifyDocument]
  nth_rewrite 1 [← List.modify_id index p.documents]
  exact forall₂_modify (List.forall₂_same.mpr fun doc _ => Document.KeepsOrder.refl doc) index
    fun doc doc' _ hdoc h => h.trans (Document.keepsOrder_edit fun e he => hf doc' e hdoc he)

/-- A dependency is brought in with everything in order. -/
theorem keepsOrder_brought (hp : ∀ doc ∈ p.documents, doc.edited.WellFormed) (d : Dependency) :
    KeepsOrder p (p.brought d) := by
  refine brought_induction .refl .trans (fun v _ _ => ?_) (fun v _ _ => ?_) fun q _ c _ => ?_
  · exact keepsOrder_edit fun _ _ _ _ hsound => Editor.keepsOrder_setProperty hsound ..
  · refine keepsOrder_edit fun doc e hdoc he hsound => ?_
    rw [place_prepared hp hdoc he]
    exact Editor.keepsOrder_bring hsound _ d _
  · exact keepsOrder_edit fun _ _ _ _ hsound => Editor.keepsOrder_enlist hsound c d

/-! ## Requests -/

/-- A modification that is carried out keeps the order in every document: what is added to a root
    element, a profile or an entry has its place there, and all that has been in an element stays as
    it was arranged, unless the element is a version or a property that is given another text. -/
theorem keepsOrder_of_modify (hp : ∀ doc ∈ p.documents, doc.edited.WellFormed) {handled : Bool}
    (h : Runs modify p handled p') :
    List.Forall₂ (fun doc doc' => doc.edited.KeepsOrder doc'.edited) p.documents
      p'.documents := by
  obtain ⟨p₁, p₂, hrequest, hcaptured, hedits, hafter⟩ := phases_of_modify h
  have hbefore : p.SameEdits p₁ :=
    ⟨hrequest, hcaptured.imp fun _ _ => Formatting.sameEdits_capture⟩
  have hwell : ∀ doc ∈ p₁.documents, doc.edited.WellFormed :=
    hbefore.forall_documents (fun _ _ hsame hdoc => hsame.edited ▸ hdoc) hp
  have hkeeps : KeepsOrder p₁ p₂ := by
    rcases hedits with rfl | ⟨d, -, rfl⟩
    · exact .refl _
    · exact keepsOrder_brought hwell d
  have hfirst : List.Forall₂ Document.KeepsOrder p.documents p₂.documents :=
    forall₂_trans (fun _ _ _ hsame hdoc hwell => hsame.edited ▸ hdoc (hsame.edited ▸ hwell))
      hbefore.documents hkeeps
  have hall : List.Forall₂ Document.KeepsOrder p.documents p'.documents :=
    forall₂_trans (fun _ _ _ hdoc hsame hwell => hsame.edited ▸ hdoc hwell) hfirst
      hafter.documents
  exact ((List.forall₂_and_left _ _).mpr ⟨hp, hall⟩).imp fun _ _ hdoc => hdoc.2 hdoc.1

section Ordered

open Spelling

/-- A target that ends with its build, and a parent with a container for managed entries before one
    for others, and a request that writes properties. -/
def ordered : Project :=
  ofChars { plainRequest "2" with useProperties := true }
    (element "project" [parent, element "build" []])
    [element "project" [named, element "dependencyManagement" [element "dependencies" []],
      element "dependencies" []]]

/-- The target is given a container before its build, and the parent a block of properties before
    the managed entries. -/
theorem keepsOrder_of_modify_ordered :
    (∀ doc ∈ ordered.documents, doc.edited.WellFormed) ∧
    ∃ p', Runs modify ordered true p' ∧
      p'.documents.map (fun doc => doc.edited.rootElement?.map doc.edited.childNames) =
          [some ["parent", "dependencies", "build"],
            some ["groupId", "artifactId", "packaging", "properties", "dependencyManagement",
              "dependencies"]] ∧
      List.Forall₂ (fun doc doc' => doc.edited.KeepsOrder doc'.edited) ordered.documents
        p'.documents := by
  have hreadable : ∀ cs ∈ [element "project" [parent, element "build" []],
      element "project" [named, element "dependencyManagement" [element "dependencies" []],
        element "dependencies" []]], Document.Readable cs := by
    decide +kernel
  have hwell : ∀ doc ∈ ordered.documents, doc.edited.WellFormed := wellFormed_of_readable hreadable
  obtain ⟨p', hruns, hseen⟩ : ∃ p', Runs modify ordered true p' ∧
      p'.documents.map (fun doc => doc.edited.rootElement?.map doc.edited.childNames) =
          [some ["parent", "dependencies", "build"],
            some ["groupId", "artifactId", "packaging", "properties", "dependencyManagement",
              "dependencies"]] :=
    exists_of_seen? hreadable (by simp [plainRequest]) (by decide +kernel) (by decide +kernel)
      (by decide +kernel)
  exact ⟨hwell, p', hruns, hseen, keepsOrder_of_modify hwell hruns⟩

end Ordered

end Project

end MavenPom
