import MavenPom.Proofs.Upgrade

/-!
# Steps of a modification

All that a modification does to a document are the steps of editing that its dependency asks for. So
it adds each entry and each container at most once, and only where there has been none.
-/

namespace MavenPom

open Markup MavenPom.Action

/-! ## Documents -/

namespace Document

variable {doc doc' doc'' : Document} {d : Dependency}

/-- `doc'` comes from `doc` by edits that a request for a dependency makes. -/
structure Steps (d : Dependency) (doc doc' : Document) : Prop where
  wellFormed : doc.edited.WellFormed → doc'.edited.WellFormed
  editor? : doc.edited.WellFormed → Option.Rel (Editor.Steps d) doc.editor? doc'.editor?

theorem Steps.refl (d : Dependency) (doc : Document) : Steps d doc doc where
  wellFormed hwell := hwell
  editor? _ := by
    cases doc.editor? with
    | none => exact .none
    | some e => exact .some .refl

theorem Steps.trans (h : Steps d doc doc') (h' : Steps d doc' doc'') : Steps d doc doc'' where
  wellFormed hwell := h'.wellFormed (h.wellFormed hwell)
  editor? hwell := by
    have hfirst := h.editor? hwell
    have hsecond := h'.editor? (h.wellFormed hwell)
    generalize doc.editor? = before, doc'.editor? = between, doc''.editor? = after at hfirst hsecond
    cases hfirst with
    | none => exact hsecond
    | some hsteps =>
      cases hsecond with
      | some hsteps' => exact .some (hsteps.trans hsteps')

theorem steps_edit (hd : d.Proper) {f : Editor → Editor}
    (hf : ∀ e, doc.editor? = some e → Editor.Steps d e (f e)) : Steps d doc (doc.edit f) := by
  cases he : doc.editor? with
  | none =>
    rw [edit_of_none he]
    exact .refl d doc
  | some e =>
    have hafter : doc.edited.WellFormed → (f e).Sound ∧ (doc.edit f).editor? = some (f e) := by
      intro hwell
      obtain ⟨hsound, heq⟩ := (hf e he).sound hd (sound_of_editor? hwell he)
      exact ⟨hsound, editor?_edit_of_sound he heq hsound⟩
    refine ⟨fun hwell => ?_, fun hwell => ?_⟩
    · rw [Document.edit, he]
      exact (hafter hwell).1.wellFormed
    · rw [he, (hafter hwell).2]
      exact .some (hf e he)

/-- How many entries one of the containers has for an artifact. -/
def entryCount (doc : Document) (c : Container) (key : ArtifactKey) : ℕ :=
  doc.editor?.elim 0 (·.entryCount c key)

/-- How many children of a name the root element has in its own namespace. -/
def blockCount (doc : Document) (name : String) : ℕ := doc.editor?.elim 0 (·.blockCount name)

/-- `doc'` has the entries for an artifact that `doc` has, or else one at most, and as many as that
    for every other artifact. No child of the root element has been added beside one of its name. -/
structure Tallies (key : ArtifactKey) (doc doc' : Document) : Prop where
  own : ∀ c, AtMostOnce (doc.entryCount c key) (doc'.entryCount c key)
  others : ∀ c other, other ≠ key → doc'.entryCount c other = doc.entryCount c other
  blocks : ∀ name, doc'.blockCount name ≤ max 1 (doc.blockCount name)

theorem Steps.tallies (h : Steps d doc doc') (hd : d.Proper) (hwell : doc.edited.WellFormed) :
    Tallies d.key doc doc' := by
  have hrel := h.editor? hwell
  cases he : doc.editor? with
  | none =>
    rw [he] at hrel
    have he' : doc'.editor? = none := by
      generalize doc'.editor? = after at hrel
      cases hrel
      rfl
    have hentries : ∀ c key, doc'.entryCount c key = doc.entryCount c key := fun c key => by
      rw [entryCount, entryCount, he, he']
    have hblocks : ∀ name, doc'.blockCount name = doc.blockCount name := fun name => by
      rw [blockCount, blockCount, he, he']
    exact ⟨fun c => .inl (hentries c _), fun c other _ => hentries c other,
      fun name => AtMostOnce.le_max (.inl (hblocks name))⟩
  | some e =>
    rw [he] at hrel
    obtain ⟨e', he', hsteps⟩ : ∃ e', doc'.editor? = some e' ∧ Editor.Steps d e e' := by
      generalize doc'.editor? = after at hrel
      cases hrel with
      | some hsteps => exact ⟨_, rfl, hsteps⟩
    have htallies := hsteps.tallies hd (sound_of_editor? hwell he)
    have hentries : ∀ c key, doc.entryCount c key = e.entryCount c key ∧
        doc'.entryCount c key = e'.entryCount c key := fun c key => by
      rw [entryCount, entryCount, he, he']
      exact ⟨rfl, rfl⟩
    have hblocks : ∀ name, doc.blockCount name = e.blockCount name ∧
        doc'.blockCount name = e'.blockCount name := fun name => by
      rw [blockCount, blockCount, he, he']
      exact ⟨rfl, rfl⟩
    refine ⟨fun c => ?_, fun c other hother => ?_, fun name => ?_⟩
    · rw [(hentries c _).1, (hentries c _).2]
      exact htallies.own c
    · rw [(hentries c _).1, (hentries c _).2]
      exact htallies.others c other hother
    · rw [(hblocks name).1, (hblocks name).2]
      exact (htallies.blocks name).le_max

/-- What is counted is the edited tree, whatever becomes of the layout and the result. -/
theorem SameEdits.counts (h : doc.SameEdits doc') :
    doc'.entryCount = doc.entryCount ∧ doc'.blockCount = doc.blockCount := by
  have hcounts : ∀ {α : Type} (look : Editor → α) (x : α),
      (∀ e indent dirty, look { e with indent, dirty } = look e) →
        doc'.editor?.elim x look = doc.editor?.elim x look := by
    intro α look x hlook
    rw [Project.SameEdits.editor? h]
    cases doc.editor? with
    | none => rfl
    | some e => exact hlook e _ _
  exact ⟨funext fun c => funext fun key => hcounts _ 0 fun _ _ _ => rfl,
    funext fun name => hcounts _ 0 fun _ _ _ => rfl⟩

theorem Tallies.of_sameEdits {key : ArtifactKey} {doc₁ doc₂ : Document} (h : Tallies key doc₁ doc₂)
    (hbefore : doc.SameEdits doc₁) (hafter : doc₂.SameEdits doc') : Tallies key doc doc' := by
  obtain ⟨hentries, hblocks⟩ := hbefore.counts
  obtain ⟨hentries', hblocks'⟩ := hafter.counts
  refine ⟨?_, ?_, ?_⟩
  · rw [← hentries, hentries']
    exact h.own
  · rw [← hentries, hentries']
    exact h.others
  · rw [← hblocks, hblocks']
    exact h.blocks

end Document

/-! ## Commands -/

namespace Project

variable {p p' p'' : Project} {d : Dependency} {index : ℕ} {c : Container} {u : Unit}

/-- `p'` comes from `p` by edits that a request for a dependency makes of the documents. -/
structure Steps (d : Dependency) (p p' : Project) : Prop where
  request : p'.request = p.request
  documents : List.Forall₂ (Document.Steps d) p.documents p'.documents

theorem Steps.refl (d : Dependency) (p : Project) : Steps d p p :=
  ⟨rfl, List.forall₂_same.mpr fun doc _ => .refl d doc⟩

theorem Steps.trans (h : Steps d p p') (h' : Steps d p' p'') : Steps d p p'' :=
  ⟨h'.request.trans h.request,
    forall₂_trans (fun _ _ _ hdoc hdoc' => hdoc.trans hdoc') h.documents h'.documents⟩

theorem steps_edit (hd : d.Proper) {f : Editor → Editor}
    (hf : ∀ doc e, p.document? index = some doc → doc.editor? = some e → Editor.Steps d e (f e)) :
    Steps d p (p.edit index f) := by
  refine ⟨request_modifyDocument .., ?_⟩
  rw [Project.edit, documents_modifyDocument]
  nth_rewrite 1 [← List.modify_id index p.documents]
  exact forall₂_modify (List.forall₂_same.mpr fun doc _ => Document.Steps.refl d doc) index
    fun doc doc' _ hdoc h => h.trans (Document.steps_edit hd fun e he => hf doc' e hdoc he)

/-- A dependency is brought in step by step: its property is set, its entry is given a version, and
where there is none, an entry is added. -/
theorem steps_brought (hp : ∀ doc ∈ p.documents, doc.edited.WellFormed) (hd : d.Proper) :
    Steps d p (p.brought d) := by
  refine brought_induction (.refl d) .trans (fun v _ _ => ?_) (fun v hv _ => ?_)
    fun q _ c _ => ?_
  · exact steps_edit hd fun _ e _ _ => .single (.setProperty e _ _ v)
  · refine steps_edit hd fun doc e hdoc he => ?_
    rw [place_prepared hp hdoc he, Editor.bring]
    split
    · next hentry => exact .single (.addVersion hentry _)
    · next hnone =>
      refine .single (.addEntry hnone fun text htext => ?_)
      rw [← Option.some.inj htext]
      exact isTrimmed_versionText (hd.version v hv)
  · refine steps_edit hd fun _ e _ _ => ?_
    unfold Editor.enlist
    split
    · exact .refl
    · next hnone => exact .single (.addEntry (by simpa using hnone) (by simp))

/-! ## Requests -/

/-- A modification that is carried out takes every document, once its layout has been captured, to
    what it ends with by the steps that the dependency asks for. -/
theorem steps_of_modify (hp : ∀ doc ∈ p.documents, doc.edited.WellFormed) (hd : d.Proper)
    (hdependency : p.request.dependency = some d) {handled : Bool} (h : Runs modify p handled p') :
    ∃ p₁ p₂, p.SameEdits p₁ ∧ Steps d p₁ p₂ ∧ p₂.SameEdits p' := by
  obtain ⟨-, -, p₁, command, hrequest, hcaptured, hbackward⟩ := brought_of_modify hdependency h
  have hbefore : p.SameEdits p₁ :=
    ⟨hrequest, hcaptured.imp fun _ _ => Formatting.sameEdits_capture⟩
  have hwell : ∀ doc ∈ p₁.documents, doc.edited.WellFormed :=
    hbefore.forall_documents (fun _ _ hsame hdoc => hsame.edited ▸ hdoc) hp
  exact ⟨p₁, p₁.brought d, hbefore, steps_brought hwell hd,
    (sameEdits_noteHandled command _).trans (sameEdits_of_backward hbackward)⟩

/-- A modification that is carried out adds, in each document, at most one entry for its dependency
    to a container, and only where there is none. It adds no other entry, and no container beside
    one of the same name. -/
theorem tallies_of_modify (hp : ∀ doc ∈ p.documents, doc.edited.WellFormed) {text : String}
    (hparse : Dependency.parse text = .ok d) (hdependency : p.request.dependency = some d)
    {handled : Bool} (h : Runs modify p handled p') :
    List.Forall₂ (Document.Tallies d.key) p.documents p'.documents := by
  have hd := Dependency.proper_of_parse hparse
  obtain ⟨p₁, p₂, hbefore, hsteps, hafter⟩ := steps_of_modify hp hd hdependency h
  have hfirst : List.Forall₂ (fun doc doc₂ => ∃ doc₁, doc.SameEdits doc₁ ∧ doc₁.Steps d doc₂)
      p.documents p₂.documents :=
    forall₂_trans (fun _ doc₁ _ hsame hdoc => ⟨doc₁, hsame, hdoc⟩) hbefore.documents
      hsteps.documents
  have hall : List.Forall₂ (fun doc doc' => doc.edited.WellFormed →
      Document.Tallies d.key doc doc') p.documents p'.documents := by
    refine forall₂_trans (fun doc doc₂ doc' ⟨doc₁, hsame, hdoc⟩ hsame' hwell => ?_) hfirst
      hafter.documents
    exact (hdoc.tallies hd (hsame.edited ▸ hwell)).of_sameEdits hsame hsame'
  exact ((List.forall₂_and_left _ _).mpr ⟨hp, hall⟩).imp fun _ _ hdoc => hdoc.2 hdoc.1

section Bare

open Spelling

/-- A target without entries, whose parent has a container for managed ones, and a request that
    writes properties. -/
def bare : Project :=
  ofChars { plainRequest "2" with useProperties := true } (element "project" [parent])
    [element "project" [named, element "dependencyManagement" [element "dependencies" []]]]

/-- The parent is given a managed entry, and the target one that refers to it. -/
theorem tallies_of_modify_bare :
    (∀ doc ∈ bare.documents, doc.edited.WellFormed) ∧
    Dependency.parse "g:a:2" = .ok (Dependency.ofKey ⟨"g", "a"⟩ (some "2")) ∧
    bare.request.dependency = some (Dependency.ofKey ⟨"g", "a"⟩ (some "2")) ∧
    ∃ p', Runs modify bare true p' ∧
      p'.documents.map (fun doc => (doc.entryCount .dependencies ⟨"g", "a"⟩,
        doc.entryCount .managed ⟨"g", "a"⟩, doc.blockCount "properties")) =
          [(1, 0, 0), (0, 1, 1)] ∧
      List.Forall₂ (Document.Tallies ⟨"g", "a"⟩) bare.documents p'.documents := by
  have hreadable : ∀ cs ∈ [element "project" [parent], element "project" [named,
      element "dependencyManagement" [element "dependencies" []]]], Document.Readable cs := by
    decide +kernel
  have hwell : ∀ doc ∈ bare.documents, doc.edited.WellFormed := wellFormed_of_readable hreadable
  have hparse : Dependency.parse "g:a:2" = .ok (Dependency.ofKey ⟨"g", "a"⟩ (some "2")) := by
    decide +kernel
  obtain ⟨p', hruns, hseen⟩ : ∃ p', Runs modify bare true p' ∧
      p'.documents.map (fun doc => (doc.entryCount .dependencies ⟨"g", "a"⟩,
        doc.entryCount .managed ⟨"g", "a"⟩, doc.blockCount "properties")) =
          [(1, 0, 0), (0, 1, 1)] :=
    exists_of_seen? hreadable (by simp [plainRequest]) (by decide +kernel) (by decide +kernel)
      (by decide +kernel)
  exact ⟨hwell, hparse, rfl, p', hruns, hseen, tallies_of_modify hwell hparse rfl hruns⟩

end Bare

end Project

end MavenPom
