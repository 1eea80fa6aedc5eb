import MavenPom.Edit.Formatting
import MavenPom.Proofs.Action
import MavenPom.Proofs.Project.Shows

/-!
# Edits of projects

A project comes from another one by edits of its documents, and shows the POMs that these make.
Capturing layouts and writing results edits nothing.
-/

namespace MavenPom

theorem forall₂_modify {α β : Type} {R : α → β → Prop} {f : α → α} {g : β → β} {as : List α}
    {bs : List β} (h : List.Forall₂ R as bs) (index : Nat)
    (hstep : ∀ a b, as[index]? = some a → bs[index]? = some b → R a b → R (f a) (g b)) :
    List.Forall₂ R (as.modify index f) (bs.modify index g) := by
  induction h generalizing index with
  | nil => simp
  | @cons a b as bs hab h ih =>
    cases index with
    | zero => exact .cons (hstep a b rfl rfl hab) h
    | succ index => exact .cons hab (ih index fun a b ha hb => hstep a b ha hb)

theorem modify_congr {α : Type} {f g : α → α} {l : List α} {index : Nat}
    (h : ∀ a, l[index]? = some a → f a = g a) : l.modify index f = l.modify index g := by
  refine List.ext_getElem? fun i => ?_
  rw [List.getElem?_modify, List.getElem?_modify]
  by_cases hi : index = i
  · subst hi
    cases ha : l[index]? with
    | none => rfl
    | some a => simp [h a ha]
  · simp [hi]

theorem forall₂_trans {α β γ : Type} {R : α → β → Prop} {S : β → γ → Prop} {T : α → γ → Prop}
    (hRS : ∀ a b c, R a b → S b c → T a c) {as : List α} {bs : List β} {cs : List γ}
    (h : List.Forall₂ R as bs) (h' : List.Forall₂ S bs cs) : List.Forall₂ T as cs := by
  induction h generalizing cs with
  | nil =>
    cases h'
    exact .nil
  | cons hab _ ih =>
    cases h' with
    | cons hbc h' => exact .cons (hRS _ _ _ hab hbc) (ih h')

theorem forall₂_getElem? {α β : Type} {R : α → β → Prop} {as : List α} {bs : List β}
    (h : List.Forall₂ R as bs) (index : Nat) : Option.Rel R as[index]? bs[index]? := by
  induction h generalizing index with
  | nil => exact .none
  | cons hab _ ih =>
    cases index with
    | zero => exact .some hab
    | succ index => exact ih index

theorem forall_mem_of_forall₂ {α β : Type} {R : α → β → Prop} {P : α → Prop} {Q : β → Prop}
    {as : List α} {bs : List β} (h : List.Forall₂ R as bs) (hstep : ∀ a b, R a b → P a → Q b)
    (has : ∀ a ∈ as, P a) : ∀ b ∈ bs, Q b := by
  induction h with
  | nil => simp
  | cons hab _ ih =>
    obtain ⟨ha, has⟩ := List.forall_mem_cons.mp has
    exact List.forall_mem_cons.mpr ⟨hstep _ _ hab ha, ih has⟩

namespace Project

variable {p p' p'' : Project} {shown : List Pom} {index : Nat} {f : Editor → Editor}

theorem documents_modifyDocument (p : Project) (f : Document → Document) (index : Nat) :
    (p.modifyDocument f index).documents = p.documents.modify index f := by
  cases index <;> rfl

theorem request_modifyDocument (p : Project) (f : Document → Document) (index : Nat) :
    (p.modifyDocument f index).request = p.request := by
  cases index <;> rfl

/-- The project with the document at a place edited. -/
def edit (p : Project) (index : Nat) (f : Editor → Editor) : Project :=
  p.modifyDocument (·.edit f) index

/-- An edit does what another one does to the editor of the document at a place. -/
theorem edit_congr {g : Editor → Editor}
    (h : ∀ doc e, p.document? index = some doc → doc.editor? = some e → f e = g e) :
    p.edit index f = p.edit index g := by
  have hdoc : ∀ doc, p.documents[index]? = some doc → doc.edit f = doc.edit g := fun doc hdoc =>
    Document.edit_congr fun e he => h doc e hdoc he
  cases index with
  | zero => exact congrArg (fun target => { p with target }) (hdoc p.target rfl)
  | succ index =>
    have hancestors : p.ancestors.modify index (·.edit f) = p.ancestors.modify index (·.edit g) :=
      modify_congr fun doc => hdoc doc
    exact congrArg (fun ancestors => { p with ancestors }) hancestors

theorem edit_self (h : ∀ doc e, p.document? index = some doc → doc.editor? = some e → f e = e) :
    p.edit index f = p := by
  have hid : (fun doc : Document => doc.edit id) = id := funext fun doc => Document.edit_id doc
  refine (edit_congr (g := id) h).trans ?_
  cases index with
  | zero => exact congrArg (fun target => { p with target }) (Document.edit_id p.target)
  | succ index =>
    have hancestors : p.ancestors.modify index (·.edit id) = p.ancestors := by
      rw [hid, List.modify_id]
    exact congrArg (fun ancestors => { p with ancestors }) hancestors

/-- What the documents declare, the target's first. -/
def poms (p : Project) : List Pom := p.documents.map (·.pom)

theorem lineage_eq (p : Project) : p.lineage = p.poms.reverse := rfl

/-- `p'` has come from `p` by edits, and its documents show these POMs. -/
structure Became (p p' : Project) (shown : List Pom) : Prop where
  request : p'.request = p.request
  basis : List.Forall₂ Document.SameBasis p.documents p'.documents
  shows : List.Forall₂ Document.Shows p'.documents shown

/-- An edit of a document's editor shows as a change of its POM. -/
theorem Became.edit (h : p.Became p' shown) {g : Pom → Pom}
    (hstep : ∀ d, p'.document? index = some d → ∀ e, d.editor? = some e → e.Sound →
      e.Unrepeated → e.Became (f e) (g e.pom)) :
    p.Became (p'.edit index f) (shown.modify index g) where
  request := (request_modifyDocument ..).trans h.request
  basis := by
    rw [Project.edit, documents_modifyDocument, ← List.modify_id index p.documents]
    exact forall₂_modify h.basis index fun d d' _ _ hbasis =>
      hbasis.trans (Document.sameBasis_edit f d')
  shows := by
    rw [Project.edit, documents_modifyDocument]
    refine forall₂_modify h.shows index fun d pom hd _ hshows => ?_
    obtain ⟨e, he, hsound, hsingle, rfl⟩ := hshows.editor?
    exact Document.Shows.edit he (hstep d hd e he hsound hsingle)

theorem document?_edit_eq (p : Project) (index other : Nat) (f : Editor → Editor) :
    (p.edit index f).document? other =
      if index = other then (p.document? other).map (·.edit f) else p.document? other := by
  rw [document?, document?, Project.edit, documents_modifyDocument, List.getElem?_modify]
  split <;> simp_all

/-- `p'` differs from `p` in the layouts and results of its documents, and whether it is said to be
    modified. -/
structure SameEdits (p p' : Project) : Prop where
  request : p'.request = p.request
  documents : List.Forall₂ Document.SameEdits p.documents p'.documents

theorem SameEdits.refl (p : Project) : SameEdits p p :=
  ⟨rfl, List.forall₂_same.mpr fun d _ => .refl d⟩

theorem SameEdits.trans (h : SameEdits p p') (h' : SameEdits p' p'') : SameEdits p p'' :=
  ⟨h'.request.trans h.request,
    forall₂_trans (fun _ _ _ hd hd' => hd.trans hd') h.documents h'.documents⟩

theorem SameEdits.poms_eq (h : SameEdits p p') : p'.poms = p.poms := by
  have hpoms : ∀ {ds ds' : List Document}, List.Forall₂ Document.SameEdits ds ds' →
      ds'.map (·.pom) = ds.map (·.pom) := by
    intro ds ds' h
    induction h with
    | nil => rfl
    | cons hd _ ih => rw [List.map_cons, List.map_cons, hd.pom, ih]
  exact hpoms h.documents

theorem SameEdits.shows (h : SameEdits p p')
    (hshows : List.Forall₂ Document.Shows p.documents shown) :
    List.Forall₂ Document.Shows p'.documents shown :=
  forall₂_trans (R := flip Document.SameEdits) (T := Document.Shows)
    (fun _ _ _ hd hshows => Document.SameEdits.shows hd hshows) h.documents.flip hshows

/-- Before and after a run of edits, layouts and results do not matter. -/
theorem Became.of_sameEdits {p₁ p₂ : Project} (h : p₁.Became p₂ shown) (hp : SameEdits p p₁)
    (hp' : SameEdits p₂ p') : p.Became p' shown where
  request := hp'.request.trans (h.request.trans hp.request)
  basis := by
    refine forall₂_trans (fun _ _ _ hd hd' => hd.toSameBasis.trans hd') hp.documents ?_
    exact forall₂_trans (fun _ _ _ hd hd' => hd.trans hd'.toSameBasis) h.basis hp'.documents
  shows := hp'.shows h.shows

end Project

/-! ## Layouts and results -/

namespace Formatting

open MavenPom.Action

/-- Changing documents one by one relates each of them to what it becomes, up to a failure and
behind it. -/
theorem eachDocument_spec {R : Document → Document → Prop} (hrefl : ∀ d, R d d)
    {f : Document → Except RequestError Document} (hf : ∀ d d', f d = .ok d' → R d d')
    (ds : List Document) : List.Forall₂ R ds (eachDocument f ds).1 := by
  induction ds with
  | nil => exact .nil
  | cons d ds ih =>
    rw [eachDocument]
    split
    · exact .cons (hrefl d) (List.forall₂_same.mpr fun d _ => hrefl d)
    · next d' hd => exact .cons (hf d d' hd) ih

theorem eachDocument_ok {f : Document → Except RequestError Document} {ds : List Document}
    (h : (eachDocument f ds).2 = none) :
    List.Forall₂ (fun d d' => f d = .ok d') ds (eachDocument f ds).1 := by
  induction ds with
  | nil => exact .nil
  | cons d ds ih =>
    rw [eachDocument] at h ⊢
    split at h
    · cases h
    · next d' hd => exact .cons hd (ih h)

/-- The documents up to a failure have been changed when it is reported. -/
theorem state_changeDocuments (f : Document → Except RequestError Document) (p : Project) :
    (StateT.run (ExceptT.run (changeDocuments f)) p).2 =
      match (eachDocument f p.documents).1 with
      | [] => p
      | target :: ancestors => { p with target, ancestors } := by
  have hget : StateT.run (ExceptT.run (get : Action Project RequestError Project)) p =
      (.ok p, p) := rfl
  rw [changeDocuments, run_bind, hget]
  cases heach : eachDocument f p.documents with
  | mk changed fault =>
    simp only [heach]
    cases changed <;> cases fault <;> rfl

/-- Where all documents can be changed, each is what it has been changed to. -/
theorem documents_of_changeDocuments {f : Document → Except RequestError Document}
    {p p' : Project} {u : Unit} (h : Runs (changeDocuments f) p u p') :
    p'.request = p.request ∧ List.Forall₂ (fun d d' => f d = .ok d') p.documents p'.documents := by
  unfold changeDocuments at h
  simp only [runs_get_bind] at h
  have hok := @eachDocument_ok f p.documents
  have hspec := eachDocument_spec (R := fun _ _ => True) (fun _ => trivial) (f := f)
    (fun _ _ _ => trivial) p.documents
  split at h
  · next hnil =>
    rw [hnil] at hspec
    cases hspec
  · next target ancestors hcons =>
    rw [hcons] at hok
    rw [runs_set_bind] at h
    split at h
    · exact absurd h not_runs_throw
    · next hnone =>
      obtain ⟨-, rfl⟩ := runs_pure.mp h
      exact ⟨rfl, hok hnone⟩

theorem sameEdits_of_changeDocuments {f : Document → Except RequestError Document}
    (hf : ∀ d d', f d = .ok d' → d.SameEdits d') {p p' : Project} {u : Unit}
    (h : Runs (changeDocuments f) p u p') : p.SameEdits p' := by
  obtain ⟨hrequest, hdocuments⟩ := documents_of_changeDocuments h
  exact ⟨hrequest, hdocuments.imp hf⟩

theorem sameEdits_capture {d d' : Document} (h : capture d = .ok d') : d.SameEdits d' := by
  unfold capture Document.captureLayout at h
  cases hlayout : d.capture with
  | error fault =>
    rw [hlayout] at h
    cases h
  | ok layout =>
    rw [hlayout] at h
    cases h
    exact ⟨⟨rfl, rfl, rfl, rfl, rfl⟩, rfl⟩

theorem sameEdits_discardChanges (d : Document) : d.SameEdits d.discardChanges :=
  ⟨⟨rfl, rfl, rfl, rfl, rfl⟩, rfl⟩

theorem sameEdits_writeResult {d d' : Document} (h : writeResult d = .ok d') : d.SameEdits d' := by
  unfold writeResult at h
  split at h
  · cases h
    split
    · exact sameEdits_discardChanges d
    · exact .refl d
  · simp only [bind, Except.bind] at h
    split at h
    · cases h
    split at h
    · cases h
    cases h
    exact ⟨⟨rfl, rfl, rfl, rfl, rfl⟩, rfl⟩

theorem sameEdits_discardUnchanged (d : Document) : d.SameEdits (discardUnchanged d) := by
  unfold discardUnchanged
  split
  · exact .refl d
  · exact sameEdits_discardChanges d

theorem sameEdits_of_discardUnchangedAll {p p' : Project} {x : Bool}
    (h : Runs discardUnchangedAll.postProcess p x p') : p.SameEdits p' := by
  unfold discardUnchangedAll at h
  rw [runs_get_bind, runs_set_bind] at h
  obtain ⟨-, rfl⟩ := runs_pure.mp h
  refine ⟨rfl, ?_⟩
  rw [show (p.mapDocuments discardUnchanged).documents = p.documents.map discardUnchanged from rfl]
  exact List.forall₂_map_right_iff.mpr
    (List.forall₂_same.mpr fun d _ => sameEdits_discardUnchanged d)

theorem sameEdits_of_keepLayout {p p' : Project} {x : Bool}
    (h : Runs keepLayout.postProcess p x p') : p.SameEdits p' := by
  unfold keepLayout at h
  obtain ⟨_, p₁, hchange, h⟩ := runs_bind.mp h
  obtain ⟨-, rfl⟩ := runs_pure.mp h
  exact sameEdits_of_changeDocuments (fun _ _ => sameEdits_writeResult) hchange

end Formatting

end MavenPom
