import MavenPom.Proofs.Project.Characters
import MavenPom.Proofs.Project.Growth
import MavenPom.Proofs.Results

/-!
# Refused requests

A request for a change fails only where it is refused: it lacks a dependency, the ancestors are not
what they ought to be, or a shared property would have to change. Nothing has been edited then. Once
something has been edited, nothing fails any more, not even writing the results.
-/

namespace MavenPom

open Markup MavenPom.Action

namespace Project

variable {p p' p'' : Project} {index : ℕ} {x : NodeId}

/-! ## Steps that are refused -/

section Steps

variable {α β : Type} {a : Editing α} {f : α → Editing β}

/-- The step runs, or it fails for a shared property and leaves everything as it was. -/
def Guarded (a : Editing α) (p : Project) : Prop :=
  (∃ name existing requested, Fails a p (.ambiguousProperty name existing requested) p) ∨
    ∃ x p', Runs a p x p'

theorem guarded_pure (x : α) (p : Project) : Guarded (pure x) p :=
  .inr ⟨x, p, runs_pure.mpr ⟨rfl, rfl⟩⟩

theorem guarded_editAt (index : ℕ) (g : Editor → Editor) (p : Project) :
    Guarded (Insertion.editAt index g) p :=
  .inr ⟨⟨⟩, _, Action.runs_modify.mpr rfl⟩

theorem guarded_get_bind {g : Project → Editing β} (h : Guarded (g p) p) :
    Guarded (get >>= g) p := h

theorem guarded_throw_bind {name existing requested : String} {f : α → Editing β} :
    Guarded (throw (.ambiguousProperty name existing requested) >>= f) p :=
  .inl ⟨name, existing, requested, fails_bind.mpr (.inl fails_throw)⟩

/-- What may be refused comes before what edits. -/
theorem Guarded.bind (h : Guarded a p) (hf : ∀ x p', ∃ y p'', Runs (f x) p' y p'') :
    Guarded (a >>= f) p := by
  rcases h with ⟨name, existing, requested, hfails⟩ | ⟨x, p', hruns⟩
  · exact .inl ⟨name, existing, requested, fails_bind.mpr (.inl hfails)⟩
  · obtain ⟨y, p'', hruns'⟩ := hf x p'
    exact .inr ⟨y, p'', runs_bind.mpr ⟨x, p', hruns, hruns'⟩⟩

theorem Guarded.bind_editAt (h : Guarded a p) (index : ℕ) (g : α → Editor → Editor) :
    Guarded (a >>= fun x => Insertion.editAt index (g x)) p :=
  h.bind fun _ _ => ⟨⟨⟩, _, Action.runs_modify.mpr rfl⟩

theorem Guarded.bind_pure (h : Guarded a p) (y : β) : Guarded (a >>= fun _ => pure y) p :=
  h.bind fun _ _ => ⟨y, _, runs_pure.mpr ⟨rfl, rfl⟩⟩

end Steps

/-! ## Commands -/

theorem guarded_writeProperty (owner : ℕ) (name value : String) (p : Project) :
    Guarded (VersionSlot.writeProperty owner name value) p := by
  unfold VersionSlot.writeProperty
  refine guarded_get_bind ?_
  dsimp only
  split
  · exact guarded_editAt owner (·.setProperty .project name value) p
  · next found _ =>
    split
    · exact guarded_throw_bind
    · exact guarded_editAt found.index (·.setProperty found.scope name value) p

theorem guarded_writeReference (index : ℕ) (name requested : String) (p : Project) :
    Guarded (VersionSlot.writeReference index name requested) p :=
  (guarded_writeProperty index name requested p).bind_pure _

theorem guarded_newText (index : ℕ) (artifactId requested : String) (p : Project) :
    Guarded (VersionSlot.newText index artifactId requested) p := by
  unfold VersionSlot.newText
  refine guarded_get_bind ?_
  split
  · exact guarded_writeReference index _ requested p
  · exact guarded_pure _ p

theorem guarded_update (index : ℕ) (slot : NodeId) (artifactId requested : String) (p : Project) :
    Guarded (VersionSlot.update index slot artifactId requested) p := by
  unfold VersionSlot.update
  refine guarded_get_bind ?_
  dsimp only
  split
  · exact guarded_pure _ p
  · split
    · exact guarded_pure _ p
    · split
      · exact (guarded_writeReference index _ requested p).bind_editAt index
          fun text e => e.setText slot text
      · exact guarded_editAt index (·.setText slot requested) p

theorem guarded_manageIn (index : ℕ) (d : Dependency) (p : Project) :
    Guarded (Insertion.manageIn index d) p := by
  unfold Insertion.manageIn
  refine guarded_get_bind ?_
  dsimp only
  split
  · exact guarded_editAt index _ p
  · exact guarded_pure _ p
  · exact guarded_update index _ _ _ p
  · next entry _ _ =>
    exact (guarded_newText index d.artifactId _ p).bind_editAt index fun text e =>
      e.addVersion entry text
  · exact (guarded_newText index d.artifactId _ p).bind_editAt index fun text =>
      Insertion.addEntry Editor.managedDependencies d (some text)

theorem guarded_upgradeIn (container : List String) (p : Project) :
    Guarded (Insertion.upgradeIn container) p := by
  unfold Insertion.upgradeIn
  refine guarded_get_bind ?_
  split
  · exact guarded_pure _ p
  · split
    · exact guarded_pure _ p
    · split
      · exact guarded_pure _ p
      · exact (guarded_update 0 _ _ _ p).bind_pure _

theorem guarded_insertion {c : Command Project RequestError} (hc : c ∈ insertions) (p : Project) :
    Guarded c.execute p := by
  have hmanaged : ∀ index d, Guarded (do
      Insertion.manageIn index d
      Insertion.referenceInTarget d
      pure Outcome.handled) p := fun index d =>
    (guarded_manageIn index d p).bind fun _ _ =>
      ⟨_, _, runs_bind.mpr ⟨⟨⟩, _, Action.runs_modify.mpr rfl, runs_pure.mpr ⟨rfl, rfl⟩⟩⟩
  simp only [insertions, List.mem_cons, List.not_mem_nil, or_false] at hc
  rcases hc with rfl | rfl | rfl | rfl
  · exact guarded_upgradeIn _ p
  · exact guarded_upgradeIn _ p
  · unfold Insertion.manageInAncestor Insertion.command
    refine guarded_get_bind ?_
    split
    · exact hmanaged _ _
    · exact guarded_pure _ p
  · unfold Insertion.insert Insertion.command
    refine guarded_get_bind ?_
    dsimp only
    split
    · exact guarded_pure _ p
    · next d _ =>
      split
      · exact hmanaged 0 d
      · exact (guarded_editAt 0 _ p).bind_pure _

/-! ## The way in -/

/-- The commands that bring a dependency in are tried until one of them edits, which is never
    refused then. -/
theorem guarded_forward (ran : List (Command Project RequestError))
    {commands : List (Command Project RequestError)} (hc : ∀ c ∈ commands, c ∈ insertions)
    (p : Project) : Guarded (Chain.forward ran commands) p := by
  induction commands generalizing ran with
  | nil => exact guarded_pure _ p
  | cons c rest ih =>
    obtain ⟨hmem, hrest⟩ := List.forall_mem_cons.mp hc
    rcases guarded_insertion hmem p with ⟨name, existing, requested, hfails⟩ |
      ⟨outcome, p₁, hruns⟩
    · exact .inl ⟨name, existing, requested, fails_bind.mpr (.inl hfails)⟩
    · cases outcome with
      | handled => exact .inr ⟨_, _, Chain.runs_forward_of_handled hruns⟩
      | notApplicable =>
        obtain rfl := eq_of_notApplicable hmem hruns
        unfold Guarded Fails Runs
        rw [Chain.run_forward_of_notApplicable hruns]
        exact ih (c :: ran) hrest

theorem isOpening_path (c : Container) : ∀ step ∈ c.path, Editor.IsOpening step := by
  intro step hstep
  cases c <;> simp only [Container.path, Editor.dependencies, Editor.managedDependencies,
    List.mem_cons, List.not_mem_nil, or_false] at hstep
  · obtain rfl := hstep
    exact ⟨'d', _, rfl, by decide⟩
  · rcases hstep with rfl | rfl <;> exact ⟨'d', _, rfl, by decide⟩

theorem Tended.wellFormed (hp : p.Tended) : ∀ doc ∈ p.documents, doc.edited.WellFormed := by
  intro doc hdoc
  obtain ⟨r, hgrown⟩ := (hp doc hdoc).edited
  exact hgrown.rooted.wellFormed

/-- Bringing a dependency in lets the documents grow. -/
theorem grows_brought (hp : p.Tended) (d : Dependency) : p.Grows (p.brought d) := by
  refine brought_induction .refl .trans (fun v _ _ => ?_) (fun v _ _ => ?_) fun q _ c _ => ?_
  · exact grows_edit fun _ _ _ _ hr => Editor.grown_setProperty hr _ _ v
  · refine grows_edit fun doc e hdoc he hr => ?_
    rw [place_prepared hp.wellFormed hdoc he, Editor.bring]
    split
    · next hentry => exact Editor.grown_addVersion hr (Editor.inner_findDependency? hr hentry) _
    · exact Editor.grown_addEntry hr (isOpening_path _) d _
  · refine grows_edit fun _ e _ _ hr => ?_
    unfold Editor.enlist
    split
    · exact .refl hr
    · exact Editor.grown_addEntry hr (isOpening_path c) d none

theorem grows_of_insertions (hp : p.Tended) {ran : List (Command Project RequestError)}
    {r : List (Command Project RequestError) × Bool}
    (h : Runs (Chain.forward ran insertions) p r p') : p.Grows p' := by
  cases hd : p.request.dependency with
  | none =>
    obtain ⟨-, rfl⟩ := Chain.eq_of_passes
      (fun command hcommand => passes_insertion hd hcommand) h
    exact .refl _
  | some d =>
    obtain ⟨command, ran', hruns⟩ := runs_insertions hd ran
    obtain ⟨-, -, rfl⟩ := (hruns _ _).mp h
    exact (grows_brought hp d).trans (grows_noteHandled command _)

end Project

/-- The errors of requests that are refused: what they lack, what the ancestors are, or a property
    that is shared. -/
def RequestError.IsRefusal : RequestError → Prop
  | .missingDependency => True
  | .wrongPackaging .. => True
  | .invalidParent .. => True
  | .ambiguousProperty .. => True
  | _ => False

namespace Formatting

variable {p : Project}

theorem exists_runs_changeDocuments {f : Document → Except RequestError Document}
    (h : ∀ d ∈ p.documents, ∃ d', f d = .ok d') : ∃ p', Runs (changeDocuments f) p () p' := by
  refine ⟨_, runs_changeDocuments (g := fun d => (f d).toOption.getD d) fun d hd => ?_⟩
  obtain ⟨d', hd'⟩ := h d hd
  rw [hd']
  rfl

theorem modified_of_changeDocuments {f : Document → Except RequestError Document} {p' : Project}
    (h : Runs (changeDocuments f) p () p') : p'.modified = p.modified := by
  have hstate := state_changeDocuments f p
  rw [show StateT.run (ExceptT.run (changeDocuments f)) p = (.ok (), p') from h] at hstate
  dsimp only at hstate
  split at hstate
  · rw [hstate]
  · rw [hstate]

theorem exists_capture {d : Document} (h : d.Tended) : ∃ d', capture d = .ok d' := by
  obtain ⟨layout, hlayout⟩ := h.exists_capture
  refine ⟨{ d with layout := some layout }, ?_⟩
  rw [capture, Document.captureLayout, hlayout]
  rfl

end Formatting

namespace Project

variable {p p' : Project} {e : RequestError}

theorem isRefusal_hierarchyFault? (h : Guard.hierarchyFault? p = some e) : e.IsRefusal := by
  rcases Option.or_eq_some_iff.mp h with h | ⟨-, h⟩
  · obtain ⟨d, -, hfault⟩ := List.exists_of_findSome?_eq_some h
    unfold Guard.packagingFault? at hfault
    split at hfault
    · cases hfault
    · cases hfault
      trivial
  · obtain ⟨pair, -, hfault⟩ := List.exists_of_findSome?_eq_some h
    dsimp only at hfault
    unfold Guard.linkFault? at hfault
    split at hfault
    · cases hfault
    · cases hfault
      trivial

/-- What supports a modification goes on without an edit, or refuses it. -/
theorem untouched_of_support (hp : p.Tended) {c : Command Project RequestError}
    (hc : c ∈ supports) : (∃ p₁, Runs c.execute p .notApplicable p₁ ∧ p.Untouched p₁) ∨
      ∃ e, RequestError.IsRefusal e ∧ Fails c.execute p e p := by
  have hpass : ∃ p₁, Runs (pure .notApplicable : Editing Outcome) p .notApplicable p₁ ∧
      p.Untouched p₁ := ⟨p, runs_pure.mpr ⟨rfl, rfl⟩, .refl p⟩
  simp only [supports, List.mem_cons, List.not_mem_nil, or_false] at hc
  rcases hc with rfl | rfl | rfl | rfl
  · unfold Guard.dependencyPresent
    simp only [runs_get_bind, fails_get_bind]
    split
    · exact .inr ⟨.missingDependency, trivial, fails_bind.mpr (.inl fails_throw)⟩
    · exact .inl hpass
  · unfold Guard.parentPackaging
    simp only [runs_get_bind, fails_get_bind]
    split
    · next fault hfault => exact .inr ⟨fault, isRefusal_hierarchyFault? hfault, fails_throw⟩
    · exact .inl hpass
  · obtain ⟨p₁, hruns⟩ := Formatting.exists_runs_changeDocuments (p := p)
      (f := Formatting.capture) fun d hd => Formatting.exists_capture (hp d hd)
    refine .inl ⟨p₁, runs_bind.mpr ⟨_, _, hruns, runs_pure.mpr ⟨rfl, rfl⟩⟩, ?_⟩
    obtain ⟨hrequest, hdocuments⟩ := Formatting.documents_of_changeDocuments hruns
    exact ⟨hrequest, Formatting.modified_of_changeDocuments hruns,
      hdocuments.imp fun _ _ => Document.untouched_of_capture⟩
  · exact .inl hpass

/-- All supports run, or one of them refuses the request. -/
theorem forward_supports (ran rest : List (Command Project RequestError))
    {commands : List (Command Project RequestError)} (hc : ∀ c ∈ commands, c ∈ supports)
    (hp : p.Tended) :
    (∃ e p', RequestError.IsRefusal e ∧ p.Untouched p' ∧
      Fails (Chain.forward ran (commands ++ rest)) p e p') ∨
    ∃ p₁, p.Untouched p₁ ∧ StateT.run (ExceptT.run (Chain.forward ran (commands ++ rest))) p =
      StateT.run (ExceptT.run (Chain.forward (commands.reverse ++ ran) rest)) p₁ := by
  induction commands generalizing p ran with
  | nil => exact .inr ⟨p, .refl p, rfl⟩
  | cons c commands ih =>
    obtain ⟨hmem, hc⟩ := List.forall_mem_cons.mp hc
    rw [List.cons_append, Chain.forward]
    rcases untouched_of_support hp hmem with ⟨p₁, hruns, huntouched⟩ | ⟨e, he, hfails⟩
    · rcases ih (c :: ran) hc (huntouched.tended hp) with ⟨e, p', he, hp', hfails⟩ |
        ⟨p₂, hp₂, heq⟩
      · exact .inl ⟨e, p', he, huntouched.trans hp',
          fails_bind.mpr (.inr ⟨_, _, hruns, hfails⟩)⟩
      · refine .inr ⟨p₂, huntouched.trans hp₂, ?_⟩
        rw [run_bind, hruns]
        simpa using heq
    · exact .inl ⟨e, p, he, .refl p, fails_bind.mpr (.inl hfails)⟩

theorem Untouched.sameEdits (h : p.Untouched p') : p.SameEdits p' := by
  refine ⟨h.request, h.documents.imp fun doc doc' hdoc => ?_⟩
  unfold Document.Untouched at hdoc
  rw [hdoc]
  exact ⟨⟨rfl, rfl, rfl, rfl, rfl⟩, rfl⟩

/-- A request with a dependency that the guards let pass is left to the commands that bring it in,
    with layouts captured. -/
theorem exists_forward_supports (hp : p.Tended) (hd : p.request.dependency ≠ none)
    (hfault : Guard.hierarchyFault? p = none) :
    ∃ p₁, p.Untouched p₁ ∧ StateT.run (ExceptT.run (Chain.forward [] (supports ++ insertions))) p =
      StateT.run (ExceptT.run (Chain.forward (supports.reverse ++ []) insertions)) p₁ := by
  obtain ⟨p₁, hcapture⟩ := Formatting.exists_runs_changeDocuments fun doc hdoc =>
    Formatting.exists_capture (hp doc hdoc)
  obtain ⟨hrequest, hdocuments⟩ := Formatting.documents_of_changeDocuments hcapture
  have hkeep : Runs Formatting.keepLayout.execute p .notApplicable p₁ :=
    runs_bind.mpr ⟨(), p₁, hcapture, runs_pure.mpr ⟨rfl, rfl⟩⟩
  have hdiscard : Runs Formatting.discardUnchangedAll.execute p₁ .notApplicable p₁ :=
    runs_pure.mpr ⟨rfl, rfl⟩
  refine ⟨p₁, ⟨hrequest, Formatting.modified_of_changeDocuments hcapture,
    hdocuments.imp fun _ _ => Document.untouched_of_capture⟩, ?_⟩
  exact (Chain.run_forward_of_notApplicable (Guard.runs_dependencyPresent hd)).trans <|
    (Chain.run_forward_of_notApplicable (Guard.runs_parentPackaging hfault)).trans <|
    (Chain.run_forward_of_notApplicable hkeep).trans (Chain.run_forward_of_notApplicable hdiscard)

/-- Where documents have only grown, nothing fails on the way out. -/
theorem exists_runs_backward (hp : p.Tended) :
    ∃ p', Runs (Chain.backward supports.reverse) p () p' := by
  have hdiscarded : (p.mapDocuments Formatting.discardUnchanged).Tended := by
    intro d hd
    rw [show (p.mapDocuments Formatting.discardUnchanged).documents =
      p.documents.map Formatting.discardUnchanged from rfl] at hd
    obtain ⟨d', hd', rfl⟩ := List.mem_map.mp hd
    exact (hp d' hd').discardUnchanged
  obtain ⟨p₁, hwrite⟩ := Formatting.exists_runs_changeDocuments
    fun d hd => (hdiscarded d hd).exists_writeResult
  have hend : Runs (Chain.backward [Guard.parentPackaging, Guard.dependencyPresent]) p₁ () p₁ :=
    rfl
  have hkeep : Runs (Chain.backward (Formatting.keepLayout ::
      [Guard.parentPackaging, Guard.dependencyPresent]))
      (p.mapDocuments Formatting.discardUnchanged) () p₁ := by
    rw [Chain.backward]
    refine runs_bind.mpr ⟨false, p₁, ?_, hend⟩
    exact runs_bind.mpr ⟨_, _, hwrite, runs_pure.mpr ⟨rfl, rfl⟩⟩
  rw [show supports.reverse = Formatting.discardUnchangedAll :: Formatting.keepLayout ::
    [Guard.parentPackaging, Guard.dependencyPresent] from rfl, Chain.backward]
  cases hends : !p.modified && p.documents.all fun d => !d.hasChanges with
  | true =>
    refine ⟨p.mapDocuments Formatting.discardUnchanged,
      runs_bind.mpr ⟨true, _, ?_, runs_pure.mpr ⟨rfl, rfl⟩⟩⟩
    exact runs_pure.mpr ⟨hends.symm, rfl⟩
  | false =>
    refine ⟨p₁, runs_bind.mpr ⟨false, _, ?_, hkeep⟩⟩
    exact runs_pure.mpr ⟨hends.symm, rfl⟩

/-- A modification whose commands have run on the way in is carried out. -/
theorem exists_runs_modify {p₁ p₂ : Project} {ran : List (Command Project RequestError)}
    {handled : Bool}
    (hsupports : StateT.run (ExceptT.run (Chain.forward [] (supports ++ insertions))) p =
      StateT.run (ExceptT.run (Chain.forward (supports.reverse ++ []) insertions)) p₁)
    (hruns : Runs (Chain.forward (supports.reverse ++ []) insertions) p₁ (ran, handled) p₂)
    (hp₂ : p₂.Tended) : ∃ p', Runs modify p handled p' ∧ p₂.SameEdits p' := by
  obtain ⟨first, hfirst, rfl⟩ := Chain.exists_of_runs_forward hruns
  obtain ⟨p₃, hbackward⟩ := exists_runs_backward hp₂
  have hafter : p₂.SameEdits p₃ := Chain.backward_induction .refl (fun _ _ _ => .trans)
    (fun c hc _ _ _ => sameEdits_of_postProcess
      (List.mem_append_left insertions (List.mem_reverse.mp hc))) hbackward
  have hpass : Chain.backward (first ++ supports.reverse) = Chain.backward supports.reverse :=
    Chain.backward_append fun c hc => postProcess_of_insertion (hfirst c hc)
  rw [← hpass, ← List.append_nil supports.reverse] at hbackward
  refine ⟨p₃, runs_bind.mpr ⟨_, p₂, hsupports.trans hruns, ?_⟩, hafter⟩
  exact runs_bind.mpr ⟨_, p₃, hbackward, runs_pure.mpr ⟨rfl, rfl⟩⟩

/-- A request for a dependency that the guards let pass is carried out, and has it brought in. -/
theorem exists_modify_brought {d : Dependency} (hp : p.Tended) (hd : p.request.dependency = some d)
    (hfault : Guard.hierarchyFault? p = none)
    (hmay : p.MayBring (p.site d).index (p.site d).container d) :
    ∃ p₁ p', p.SameEdits p₁ ∧ Runs modify p true p' ∧ (p₁.brought d).SameEdits p' := by
  obtain ⟨p₁, huntouched, hsupports⟩ := exists_forward_supports hp (by simp [hd]) hfault
  have hsame := huntouched.sameEdits
  obtain ⟨command, ran, hruns⟩ := runs_insertions (huntouched.request ▸ hd) (supports.reverse ++ [])
  have hforward := (hruns _ _).mpr
    ⟨fun v hv => hsame.mayWrite_iff.mpr ((hsame.site_eq d).symm ▸ hmay v hv), rfl, rfl⟩
  obtain ⟨p', hmodify, hafter⟩ := exists_runs_modify hsupports hforward
    ((grows_of_insertions (huntouched.tended hp) hforward).tended (huntouched.tended hp))
  exact ⟨p₁, p', hsame, hmodify, (sameEdits_noteHandled command _).trans hafter⟩

/-- A modification is refused with nothing edited, or it is carried out. -/
theorem modify_cases (hp : p.Tended) :
    (∃ e p', RequestError.IsRefusal e ∧ p.Untouched p' ∧ Fails modify p e p') ∨
    ∃ handled p', Runs modify p handled p' := by
  have hsupports : ∀ c ∈ supports, c ∈ supports := fun _ hc => hc
  rcases forward_supports [] insertions hsupports hp with ⟨e, p', he, hp', hfails⟩ | ⟨p₁, hp₁, heq⟩
  · exact .inl ⟨e, p', he, hp', fails_bind.mpr (.inl hfails)⟩
  · rcases guarded_forward (supports.reverse ++ []) (fun _ hc => hc) p₁ with
      ⟨name, existing, requested, hrefused⟩ | ⟨⟨ran, handled⟩, p₂, hruns⟩
    · exact .inl ⟨.ambiguousProperty name existing requested, p₁, trivial, hp₁,
        fails_bind.mpr (.inl (heq.trans hrefused))⟩
    · obtain ⟨p₃, hmodify, -⟩ := exists_runs_modify heq hruns
        ((grows_of_insertions (hp₁.tended hp) hruns).tended (hp₁.tended hp))
      exact .inr ⟨handled, p₃, hmodify⟩

/-- A modification leaves each document its text, and such that a result can be written again. -/
theorem tended_of_modify (hp : p.Tended) {handled : Bool} (h : Runs modify p handled p') :
    List.Forall₂ (fun doc doc' => doc'.text = doc.text ∧ doc'.Tended) p.documents
      p'.documents := by
  obtain ⟨p₁, p₂, -, hcaptured, hbrought, hafter⟩ := phases_of_modify h
  have huntouched : List.Forall₂ Document.Untouched p.documents p₁.documents :=
    hcaptured.imp fun _ _ => Document.untouched_of_capture
  have hp₁ : p₁.Tended := forall_mem_of_forall₂ huntouched (fun _ _ hdoc => hdoc.tended) hp
  have hgrows : p₁.Grows p₂ := by
    rcases hbrought with rfl | ⟨d, -, rfl⟩
    · exact .refl _
    · exact grows_brought hp₁ d
  have hbrought : List.Forall₂ (fun doc doc₂ => doc.Tended →
      doc₂.text = doc.text ∧ doc₂.Tended) p.documents p₂.documents := by
    refine forall₂_trans (fun doc doc₁ doc₂ hdoc hgrows htended => ?_) huntouched hgrows.documents
    have htext : doc₁.text = doc.text := by
      unfold Document.Untouched at hdoc
      rw [hdoc]
    exact ⟨hgrows.text.trans htext, hgrows.tended (hdoc.tended htended)⟩
  have hall : List.Forall₂ (fun doc doc' => doc.Tended → doc'.text = doc.text ∧ doc'.Tended)
      p.documents p'.documents := by
    refine forall₂_trans (fun doc doc₂ doc' hdoc hsame htended => ?_) hbrought hafter.documents
    exact ⟨hsame.text.trans (hdoc htended).1, (hdoc htended).2.of_sameEdits hsame⟩
  exact ((List.forall₂_and_left _ _).mpr ⟨hp, hall⟩).imp fun _ _ hdoc => hdoc.2 hdoc.1

theorem tended_of_read
    (hread : ∀ d ∈ p.documents, ∃ bytes source, Document.ofBytes bytes source = .ok d) :
    p.Tended := by
  intro d hd
  obtain ⟨bytes, source, hd⟩ := hread d hd
  exact Document.tended_of_ofBytes hd

/-- Where a document's layout is put back, no character is sliced apart, unless the document's text
    begins with a byte order mark. -/
theorem restoresCleanly_of_modify
    (hread : ∀ d ∈ p.documents, ∃ bytes source, Document.ofBytes bytes source = .ok d)
    {handled : Bool} (h : Runs modify p handled p') :
    ∀ d ∈ p'.documents, d.text.toList.head? ≠ some '\uFEFF' → d.hasChanges = true →
      ∀ l, d.capture = .ok l → l.restoresCleanly d.editedText = true := by
  obtain ⟨p₁, hreading, hbackward⟩ := exists_backward_of_modify h
  have hboth := (tended_of_modify (tended_of_read hread) h).mp
    (fun _ _ htended hsettled => And.intro htended hsettled.1) (hreading.settled hbackward)
  refine forall_mem_of_forall₂ hboth (fun d d' ⟨⟨htext, htended⟩, hsame⟩ hdoc => ?_) hread
  intro hmark hchanges l hl
  obtain ⟨bytes, source, hdoc⟩ := hdoc
  obtain ⟨-, -, -, -, hlayout, -⟩ := Document.facts_of_ofBytes hdoc
  have hcapture : Layout.capture d'.text d.charset = .ok l := by
    rw [htext]
    exact Document.capture_of_fresh hlayout (hsame.capture_eq ▸ hl)
  obtain ⟨r, hgrown, hne⟩ := htended.exists_grown hchanges
  exact Layout.restoresCleanly_of_grown htended.spelled hgrown hne hcapture hmark

/-- A modification of documents that have been read fails only where it is refused, and leaves
    everything as it was then, but for layouts that may have been captured. So neither capturing
    nor restoring a layout reports an error, and no property is found to be shared after an edit.
    Nor does either slice a character of a document apart, unless the document's text begins with a
    byte order mark: the offsets of markup do not count that mark. -/
theorem faultless_modify
    (hread : ∀ d ∈ p.documents, ∃ bytes source, Document.ofBytes bytes source = .ok d) :
    (∀ e p', Fails modify p e p' → e.IsRefusal ∧ p.Untouched p') ∧
    (∀ d ∈ p.documents, d.text.toList.head? ≠ some '\uFEFF' →
      Layout.capturesCleanly d.text = true) ∧
    ∀ handled p', Runs modify p handled p' → ∀ d ∈ p'.documents,
      d.text.toList.head? ≠ some '\uFEFF' → d.hasChanges = true →
        ∀ l, d.capture = .ok l → l.restoresCleanly d.editedText = true := by
  refine ⟨fun e p' h => ?_, fun d _ hmark => Layout.capturesCleanly_of_head?_ne hmark,
    fun handled p' h => restoresCleanly_of_modify hread h⟩
  rcases modify_cases (tended_of_read hread) with
    ⟨e', p'', he, hp'', hfails⟩ | ⟨handled, p'', hruns⟩
  · obtain ⟨heq, rfl⟩ := Prod.mk.inj (hfails.symm.trans h)
    obtain rfl := Except.error.inj heq
    exact ⟨he, hp''⟩
  · exact absurd h (not_fails_of_runs hruns)

section Shared

open Spelling

/-- A target that lists `g:a` and `g:b` at a version that one property holds. -/
def sharedTarget : List Char :=
  element "project" [element "properties" [field "v" "1"], element "dependencies"
    [entry "g" "a" [field "version" "$\x7bv\x7d"], entry "g" "b" [field "version" "$\x7bv\x7d"]]]

/-- A project of that target, and a request for another version of `g:a` alone. -/
def shared : Project :=
  ofChars { plainRequest "2" with useProperties := true } sharedTarget []

/-- A target with an empty element whose name is no ASCII. -/
def accentedTarget : List Char := element "project" ["<é/>".toList]

/-- A project of that target, and a request for `g:a`. -/
def accented : Project := ofChars (plainRequest "1") accentedTarget []

/-- The one target is refused for its shared property, and left as it was. The other one is edited,
    and its empty element is read and written as a whole. -/
theorem faultless_shared_accented :
    ((∀ d ∈ shared.documents, ∃ bytes source, Document.ofBytes bytes source = .ok d) ∧
      Fails modify shared (.ambiguousProperty "v" "1" "2") (shared.mapDocuments (·.captured)) ∧
      (RequestError.ambiguousProperty "v" "1" "2").IsRefusal ∧
      shared.Untouched (shared.mapDocuments (·.captured))) ∧
    (∀ d ∈ accented.documents, ∃ bytes source, Document.ofBytes bytes source = .ok d) ∧
      (∀ d ∈ accented.documents, Layout.capturesCleanly d.text = true) ∧
      ∃ p', Runs modify accented true p' ∧ ∀ d ∈ p'.documents, d.hasChanges = true ∧
        ∀ l, d.capture = .ok l → l.restoresCleanly d.editedText = true := by
  have hreadable : ∀ cs ∈ [sharedTarget], Document.Readable cs := by decide +kernel
  have hreadable' : ∀ cs ∈ [accentedTarget], Document.Readable cs := by decide +kernel
  have hshared : ∀ d ∈ shared.documents, ∃ bytes source, Document.ofBytes bytes source = .ok d :=
    ofBytes_of_readable hreadable
  have haccented : ∀ d ∈ accented.documents,
      ∃ bytes source, Document.ofBytes bytes source = .ok d := ofBytes_of_readable hreadable'
  have hfails : Fails modify shared (.ambiguousProperty "v" "1" "2")
      (shared.mapDocuments (·.captured)) := by
    have hlayout : ∀ cs ∈ [sharedTarget], (Document.ofChars cs).captured.layout ≠ none := by
      decide +kernel
    have hcapture : ∀ d ∈ shared.documents, Formatting.capture d = .ok d.captured :=
      forall_mem_ofChars fun cs hcs => Document.capture_ofChars (hreadable cs hcs) (hlayout cs hcs)
    have hcarryOut : @Eq (Except RequestError Bool × Project)
        (StateT.run (ExceptT.run carryOut) (shared.mapDocuments (·.captured)))
        (.error (.ambiguousProperty "v" "1" "2"), shared.mapDocuments (·.captured)) := by
      decide +kernel
    exact (run_modify (by simp [shared, ofChars, new, plainRequest]) (by decide +kernel)
      hcapture).trans hcarryOut
  have hmark : ∀ d ∈ accented.documents, d.text.toList.head? ≠ some '\uFEFF' := by
    refine forall_mem_ofChars fun cs hcs => ?_
    rw [show (Document.ofChars cs).text = String.ofList cs from rfl, String.toList_ofList,
      List.mem_singleton.mp hcs]
    decide
  obtain ⟨p', hruns, hseen⟩ : ∃ p', Runs modify accented true p' ∧
      p'.documents.map Document.hasChanges = [true] :=
    exists_of_seen? hreadable' (by simp [plainRequest]) (by decide +kernel) (by decide +kernel)
      (by decide +kernel)
  have hchanges : ∀ d ∈ p'.documents, d.hasChanges = true := fun d hd =>
    List.mem_singleton.mp (hseen ▸ List.mem_map_of_mem hd)
  have hmark' : ∀ d ∈ p'.documents, d.text.toList.head? ≠ some '\uFEFF' :=
    forall_mem_of_forall₂ (tended_of_modify (tended_of_read haccented) hruns)
      (fun d d' h hd => h.1 ▸ hd) hmark
  obtain ⟨hrefused, -, -⟩ := faultless_modify hshared
  obtain ⟨-, hcaptures, hrestores⟩ := faultless_modify haccented
  exact ⟨⟨hshared, hfails, hrefused _ _ hfails⟩, haccented,
    fun d hd => hcaptures d hd (hmark d hd), p', hruns,
    fun d hd => ⟨hchanges d hd, hrestores _ _ hruns d hd (hmark' d hd) (hchanges d hd)⟩⟩

end Shared

section Marked

/-- A document with an empty element whose name is no ASCII, behind a byte order mark. -/
def accentedMarked : List Char := '\uFEFF' :: accentedTarget

/-- A project of that document in UTF-8, with the mark that decoding takes away, and a request for
    `g:a`. -/
def slicedApart : Project :=
  let bytes := Charset.Encoding.utf8.mark ++ Utf8.encode accentedMarked
  ⟨Document.ofDecoded bytes ⟨.utf8, true⟩ accentedMarked, [], plainRequest "1", false⟩

/-- The mark that decoding leaves moves the offsets of markup into the element's name. Nothing
    refuses the request before the layout is captured. -/
theorem not_capturesCleanly_marked :
    (∀ d ∈ slicedApart.documents, ∃ bytes source, Document.ofBytes bytes source = .ok d) ∧
    slicedApart.request.dependency ≠ none ∧ Guard.hierarchyFault? slicedApart = none ∧
    Layout.capturesCleanly slicedApart.target.text = false := by
  have hread : ∀ d ∈ slicedApart.documents,
      ∃ bytes source, Document.ofBytes bytes source = .ok d := by
    intro d hd
    obtain rfl := List.mem_singleton.mp hd
    exact ⟨_, _, Document.ofBytes_mark _ (by decide +kernel) (by decide +kernel)
      (by decide +kernel)⟩
  refine ⟨hread, by simp [slicedApart, plainRequest], by decide +kernel, ?_⟩
  obtain ⟨e, he, hstop⟩ : ∃ e ∈ EmptyElement.findChars accentedMarked,
      Utf8.isBoundary e.stop accentedMarked = false := by decide +kernel
  refine List.all_eq_false.mpr ⟨⟨slicedApart.target.text, e.start, e.stop⟩, ?_, ?_⟩
  · refine List.mem_append_right _ (List.mem_map.mpr ⟨e, ?_, rfl⟩)
    rwa [show slicedApart.target.text = String.ofList accentedMarked from rfl,
      EmptyElement.find_ofList]
  · rw [Slice.isClean_iff]
    rintro ⟨-, -, hclean⟩
    rw [show slicedApart.target.text = String.ofList accentedMarked from rfl,
      String.toList_ofList, hstop] at hclean
    cases hclean

end Marked

end Project

end MavenPom
