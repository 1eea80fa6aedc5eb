import MavenPom.Edit.Modification
import MavenPom.Proofs.Chain
import MavenPom.Proofs.Project.Write

/-!
# Modifying a project

Every way to bring in a dependency writes its version in one place, and may have the target refer to
it besides. The place depends on what the target lists and manages, and on the request.
-/

namespace MavenPom

open MavenPom.Action VersionSlot

namespace Project

variable {p p' : Project} {index : Nat} {c : Container} {d : Dependency} {v : String} {u : Unit}

/-! ## Layouts and results do not matter -/

namespace SameEdits

variable {α : Type} {name value : String} {owner : Nat} {key : ArtifactKey}

theorem document? (h : SameEdits p p') (index : Nat) :
    Option.Rel Document.SameEdits (p.document? index) (p'.document? index) :=
  forall₂_getElem? h.documents index

theorem editor? {d d' : Document} (h : d.SameEdits d') :
    d'.editor? = d.editor?.map fun e => { e with indent := d'.indent, dirty := d'.dirty } := by
  rw [Document.editor?, Document.editor?, h.edited, Option.map_map]
  rfl

theorem lookup?_eq (h : SameEdits p p') {look : Editor → Option α}
    (hlook : ∀ e indent dirty, look { e with indent, dirty } = look e) (index : Nat) :
    Insertion.lookup? p' index look = Insertion.lookup? p index look := by
  have hdoc := h.document? index
  rw [Insertion.lookup?, Insertion.lookup?]
  generalize p.document? index = before, p'.document? index = after at hdoc
  cases hdoc with
  | none => rfl
  | some hsame =>
    rw [Option.bind_some, Option.bind_some, editor? hsame, Option.bind_map]
    exact Option.bind_congr fun e _ => hlook e _ _

theorem slotText?_eq (h : SameEdits p p') : p'.slotText? index c key = p.slotText? index c key :=
  h.lookup?_eq (fun _ _ _ => rfl) index

theorem slot?_eq (h : SameEdits p p') : Insertion.lookup? p' index (·.slot? c key) =
    Insertion.lookup? p index (·.slot? c key) :=
  h.lookup?_eq (fun _ _ _ => rfl) index

theorem length_eq (h : SameEdits p p') : p'.documents.length = p.documents.length :=
  h.documents.length_eq.symm

theorem declarationIn?_eq (h : SameEdits p p') (index : Nat) :
    declarationIn? p' name index = declarationIn? p name index := by
  have hdoc := h.document? index
  rw [declarationIn?, declarationIn?]
  generalize p.document? index = before, p'.document? index = after at hdoc
  cases hdoc with
  | none => rfl
  | some hsame =>
    simp only [Option.bind_some, h.request, hsame.pom, editor? hsame, Option.bind_map]
    rfl

theorem declaration?_eq (h : SameEdits p p') :
    declaration? p' owner name = declaration? p owner name := by
  rw [declaration?, declaration?, h.length_eq, funext (@declarationIn?_eq _ _ name h)]

theorem uses_eq (h : SameEdits p p') : uses p' name = uses p name := by
  have hdocs : ∀ {ds ds' : List Document}, List.Forall₂ Document.SameEdits ds ds' →
      ds'.foldr (fun d n => Text.occurrences (reference name).toList d.text.toList + n) 0 =
        ds.foldr (fun d n => Text.occurrences (reference name).toList d.text.toList + n) 0 := by
    intro ds ds' h
    induction h with
    | nil => rfl
    | cons hd _ ih => rw [List.foldr_cons, List.foldr_cons, ih, hd.text]
  exact hdocs h.documents

theorem properties_eq (h : SameEdits p p') : p'.properties = p.properties := by
  have hpoms := h.poms_eq
  have htarget : p'.target.pom = p.target.pom := by
    simpa [poms, Project.documents] using congrArg List.head? hpoms
  rw [properties, properties, lineage_eq, lineage_eq, hpoms, h.request, htarget]

theorem leaves_eq (h : SameEdits p p') : p'.leaves index c d v = p.leaves index c d v := by
  rw [leaves, leaves, h.slotText?_eq]
  congr 1
  funext text
  rw [keeps, keeps, h.request, h.properties_eq]

theorem versionProperty_eq (h : SameEdits p p') :
    p'.versionProperty index c d = p.versionProperty index c d := by
  rw [versionProperty, versionProperty, h.slotText?_eq]

theorem propertySite_eq (h : SameEdits p p') :
    p'.propertySite owner name = p.propertySite owner name := by
  rw [propertySite, propertySite, h.declaration?_eq]

theorem written_eq (h : SameEdits p p') : p'.written index c d v = p.written index c d v := by
  simp only [written, declaring, versionText, h.leaves_eq, h.poms_eq, h.request,
    h.versionProperty_eq, h.propertySite_eq]

theorem mayWrite_iff (h : SameEdits p p') :
    p'.MayWrite index c d v ↔ p.MayWrite index c d v := by
  simp only [MayWrite, MayDeclare, h.leaves_eq, h.request, h.versionProperty_eq,
    h.declaration?_eq, h.uses_eq]

theorem managedIndex?_eq (h : SameEdits p p') : p'.managedIndex? = p.managedIndex? := by
  have hlength : p'.ancestors.length = p.ancestors.length := by
    simpa [Project.documents] using h.length_eq
  have hempty : p'.ancestors.isEmpty = p.ancestors.isEmpty := by
    rw [Bool.eq_iff_iff, List.isEmpty_iff_length_eq_zero, List.isEmpty_iff_length_eq_zero, hlength]
  rw [managedIndex?, managedIndex?, hempty, hlength, h.request]

theorem forall_documents (h : SameEdits p p') {P : Document → Prop}
    (hP : ∀ d d', d.SameEdits d' → P d → P d') (hp : ∀ d ∈ p.documents, P d) :
    ∀ d ∈ p'.documents, P d :=
  forall_mem_of_forall₂ h.documents hP hp

theorem declarable (h : SameEdits p p') (hname : p.Declarable name) : p'.Declarable name where
  colon := hname.colon
  once := h.forall_documents (fun _ _ hd hP => by rwa [hd.edited]) hname.once
  named := h.poms_eq ▸ hname.named
  distinct := h.poms_eq ▸ hname.distinct

theorem pristine (h : SameEdits p p') (hp : p.Pristine) : p'.Pristine :=
  h.forall_documents (fun _ _ hd hP => hd.pom ▸ hd.shows hP) hp

theorem writable (h : SameEdits p p') (hwrite : p.Writable index c d v) :
    p'.Writable index c d v where
  pristine := h.pristine hwrite.pristine
  proper := hwrite.proper
  trimmed := hwrite.trimmed
  declarable hprops := by
    rw [h.versionProperty_eq]
    exact h.declarable (hwrite.declarable (h.request ▸ hprops))

end SameEdits

/-! ## The ways to bring in a dependency -/

open Insertion

/-- The project with an entry for a dependency in a container of the document at a place, brought to
the version that is requested, or without one. -/
def withEntry (p : Project) (index : Nat) (c : Container) (d : Dependency) : Project :=
  match d.version with
  | some v => p.withVersion index c d v
  | none => p.edit index (Editor.enlist c d)

/-- The guard of shared properties lets the version that is requested be written. -/
def MayBring (p : Project) (index : Nat) (c : Container) (d : Dependency) : Prop :=
  ∀ v ∈ d.version, p.MayWrite index c d v

theorem isTrimmed_versionText {v : String} (hv : Text.IsTrimmed v) :
    Text.IsTrimmed (p.versionText index c d v) := by
  unfold versionText
  split
  · exact isTrimmed_reference _
  · exact hv

/-- What is looked up in a document is looked up by its editor, if it has one. -/
theorem lookup?_eq_bind {α : Type} (look : Editor → Option α) :
    lookup? p index look = ((p.document? index).bind (·.editor?)).bind look :=
  (Option.bind_assoc ..).symm

/-- A managed entry gets its version in its version element, or in a new one, and there is a new
    entry where there is none. -/
theorem runs_manageIn : Runs (manageIn index d) p u p' ↔
    p.MayBring index .managed d ∧ p' = p.withEntry index .managed d := by
  unfold manageIn MayBring withEntry
  simp only [runs_get_bind]
  rw [show Editor.managedDependencies = Container.managed.path from rfl]
  cases hversion : d.version with
  | none =>
    cases hpresent : lookup? p index fun e =>
        (e.findDependency? Container.managed.path d.key).map fun entry =>
          (entry, e.versionSlot? entry) with
    | none =>
      have hadd : p.edit index (Editor.enlist .managed d) =
          p.edit index (addEntry Container.managed.path d none) := by
        refine edit_congr fun doc e hdoc he => ?_
        rw [lookup?_eq hdoc he] at hpresent
        rw [Editor.enlist, Option.map_eq_none_iff.mp hpresent]
        rfl
      rw [hadd]
      exact ⟨fun h => ⟨by simp, runs_modify.mp h⟩, fun h => runs_modify.mpr h.2⟩
    | some present =>
      have hself : p.edit index (Editor.enlist .managed d) = p := by
        refine edit_self fun doc e hdoc he => ?_
        rw [lookup?_eq hdoc he] at hpresent
        obtain ⟨entry, hentry, -⟩ := Option.map_eq_some_iff.mp hpresent
        rw [Editor.enlist, hentry]
        rfl
      rw [hself]
      exact ⟨fun h => ⟨by simp, (runs_pure.mp h).2⟩, fun h => runs_pure.mpr ⟨rfl, h.2⟩⟩
  | some v =>
    simp only [Option.mem_some_iff, forall_eq']
    cases hpresent : lookup? p index fun e =>
        (e.findDependency? Container.managed.path d.key).map fun entry =>
          (entry, e.versionSlot? entry) with
    | none =>
      have hlookups : lookup? p index (·.slot? .managed d.key) = none ∧
          lookup? p index (·.findDependency? Container.managed.path d.key) = none := by
        simp only [lookup?_eq_bind] at hpresent ⊢
        cases he : (p.document? index).bind (·.editor?) with
        | none => exact ⟨rfl, rfl⟩
        | some e =>
          rw [he] at hpresent
          have hnone := Option.map_eq_none_iff.mp hpresent
          exact ⟨by rw [Option.bind_some, Editor.slot?, hnone, Option.bind_none], hnone⟩
      refine runs_newText hlookups.1 ?_
      unfold place
      rw [hlookups.1, hlookups.2]
    | some present =>
      obtain ⟨entry, slot?⟩ := present
      obtain ⟨doc, e, hdoc, he, hentry⟩ := lookup?_eq_some hpresent
      obtain ⟨id, hid, hpair⟩ := Option.map_eq_some_iff.mp hentry
      obtain ⟨rfl, hslot⟩ := Prod.mk.inj hpair
      have hlookup : lookup? p index (·.slot? .managed d.key) = slot? := by
        rw [lookup?_eq hdoc he, Editor.slot?, hid, Option.bind_some, hslot]
      cases slot? with
      | some slot => exact runs_update hlookup
      | none =>
        refine runs_newText hlookup ?_
        unfold place
        rw [hlookup, lookup?_eq hdoc he, hid]

/-- Managing a dependency, with a reference in the target. -/
theorem runs_manage {outcome : Outcome} : Runs (do
      manageIn index d
      referenceInTarget d
      pure Outcome.handled) p outcome p' ↔
    outcome = .handled ∧ p.MayBring index .managed d ∧
      p' = (p.withEntry index .managed d).edit 0 (Editor.refer d) := by
  constructor
  · intro h
    obtain ⟨_, p₁, hmanage, h⟩ := runs_bind.mp h
    obtain ⟨_, p₂, hrefer, h⟩ := runs_bind.mp h
    obtain ⟨houtcome, rfl⟩ := runs_pure.mp h
    obtain ⟨hmay, rfl⟩ := runs_manageIn.mp hmanage
    exact ⟨houtcome, hmay, runs_modify.mp hrefer⟩
  · rintro ⟨rfl, hmay, rfl⟩
    exact runs_bind.mpr ⟨(), _, runs_manageIn.mpr ⟨hmay, rfl⟩,
      runs_bind.mpr ⟨(), _, runs_modify.mpr rfl, runs_pure.mpr ⟨rfl, rfl⟩⟩⟩

/-- Without properties, a dependency that the target gives no version is inserted there alone. -/
theorem runs_insertInTarget (hprops : p.request.useProperties = false)
    (hslot : lookup? p 0 (·.slot? .dependencies d.key) = none) :
    Runs (insertInTarget d) p u p' ↔
      p.MayBring 0 .dependencies d ∧ p' = p.withEntry 0 .dependencies d := by
  have hmay : p.MayBring 0 .dependencies d := fun v _ _ hnot => absurd hnot (by simp [hprops])
  have hiff : ∀ q, q = p.withEntry 0 .dependencies d →
      (p' = q ↔ p.MayBring 0 .dependencies d ∧ p' = p.withEntry 0 .dependencies d) := by
    rintro _ rfl
    exact ⟨fun h => ⟨hmay, h⟩, And.right⟩
  refine runs_modify.trans (hiff _ ?_)
  unfold withEntry
  cases d.version with
  | none =>
    refine edit_congr fun doc e _ _ => ?_
    rw [Editor.enlist, show Container.dependencies.path = Editor.dependencies from rfl]
    cases e.findDependency? Editor.dependencies d.key <;> rfl
  | some v =>
    have htext : p.versionText 0 .dependencies d v = v := by simp [versionText, hprops]
    have hprepared : p.prepared 0 .dependencies d v = p := by simp [prepared, hprops]
    dsimp only
    rw [withVersion, if_neg (by simp [leaves_of_lookup?_eq_none hslot]), htext, hprepared]
    refine edit_congr fun doc e hdoc he => ?_
    rw [place_eq_bring hdoc he rfl rfl, Editor.bring,
      show Container.dependencies.path = Editor.dependencies from rfl]
    cases e.findDependency? Editor.dependencies d.key <;> rfl

/-! ## The chain of commands -/

/-- Where the version of a dependency is written, and whether the target is to refer to it. -/
structure Site where
  index : Nat
  container : Container
  refers : Bool
  deriving DecidableEq, Repr

/-- Where a request writes the version of its dependency: in the target's own entry that has a
version, in its managed one, in an ancestor, or else in a new entry of the target. -/
def site (p : Project) (d : Dependency) : Site :=
  if (p.slotText? 0 .dependencies d.key).isSome then ⟨0, .dependencies, false⟩
  else if (p.slotText? 0 .managed d.key).isSome then ⟨0, .managed, false⟩
  else
    match p.managedIndex? with
    | some index => ⟨index, .managed, true⟩
    | none => if p.request.useProperties then ⟨0, .managed, true⟩ else ⟨0, .dependencies, false⟩

theorem SameEdits.site_eq (h : SameEdits p p') (d : Dependency) : p'.site d = p.site d := by
  simp only [site, h.slotText?_eq, h.managedIndex?_eq, h.request]

theorem container_of_refers (h : (p.site d).refers = true) :
    (p.site d).container = .managed := by
  unfold site at h ⊢
  by_cases hdependencies : (p.slotText? 0 .dependencies d.key).isSome = true
  · simp [hdependencies] at h
  by_cases hmanaged : (p.slotText? 0 .managed d.key).isSome = true
  · simp [hdependencies, hmanaged] at h
  rw [if_neg hdependencies, if_neg hmanaged] at h ⊢
  cases hindex : p.managedIndex? with
  | some index => rfl
  | none =>
    rw [hindex] at h
    by_cases hprops : p.request.useProperties = true
    · simp [hprops]
    · simp [hprops] at h

/-- What the documents show once a request has been carried out. -/
def planned (p : Project) (d : Dependency) (v : String) : List Pom :=
  let shown := p.written (p.site d).index (p.site d).container d v
  if (p.site d).refers then shown.modify 0 (·.refer d) else shown

/-- The project with a dependency brought in: its version written in the place for it, and a
reference in the target where there is to be one. -/
def brought (p : Project) (d : Dependency) : Project :=
  let q := p.withEntry (p.site d).index (p.site d).container d
  if (p.site d).refers then q.edit 0 (Editor.refer d) else q

/-- An upgrade carries out a request where the target has a version element for its dependency. -/
theorem handles_upgrade (hd : p.request.dependency = some d)
    (hslot : (lookup? p 0 (·.slot? c d.key)).isSome = true)
    (x : Command Project RequestError) (hexecute : x.execute = upgradeIn c.path) :
    Chain.Handles x p (p.MayBring 0 c d) (p.withEntry 0 c d) := by
  obtain ⟨slot, hslot⟩ := Option.isSome_iff_exists.mp hslot
  obtain ⟨doc, e, hdoc, he, hfound⟩ := lookup?_eq_some hslot
  intro outcome p'
  rw [hexecute]
  unfold upgradeIn MayBring withEntry
  simp only [runs_get_bind, hd]
  rw [show (lookup? p 0 fun e => (e.findDependency? c.path d.key).bind e.versionSlot?) =
    some slot from hslot]
  cases hversion : d.version with
  | none =>
    have hself : p.edit 0 (Editor.enlist c d) = p := by
      refine edit_self fun doc' e' hdoc' he' => ?_
      obtain rfl := Option.some.inj (hdoc.symm.trans hdoc')
      obtain rfl := Option.some.inj (he.symm.trans he')
      obtain ⟨entry, hentry, -⟩ := Option.bind_eq_some_iff.mp hfound
      rw [Editor.enlist, hentry]
      rfl
    rw [hself]
    exact ⟨fun h => ⟨(runs_pure.mp h).1, by simp, (runs_pure.mp h).2⟩,
      fun h => runs_pure.mpr ⟨h.1, h.2.2⟩⟩
  | some v =>
    simp only [Option.mem_some_iff, forall_eq']
    rw [← runs_update hslot (u := ()), runs_bind]
    constructor
    · rintro ⟨_, p₁, hupdate, hpure⟩
      obtain ⟨rfl, rfl⟩ := runs_pure.mp hpure
      exact ⟨rfl, hupdate⟩
    · rintro ⟨rfl, hupdate⟩
      exact ⟨(), p', hupdate, runs_pure.mpr ⟨rfl, rfl⟩⟩

theorem passes_upgrade (hd : p.request.dependency = some d)
    (hslot : lookup? p 0 (·.slot? c d.key) = none)
    (x : Command Project RequestError) (hexecute : x.execute = upgradeIn c.path) :
    Chain.Passes x p := by
  intro outcome p'
  rw [hexecute]
  unfold upgradeIn
  simp only [runs_get_bind, hd]
  rw [show (lookup? p 0 fun e => (e.findDependency? c.path d.key).bind e.versionSlot?) =
    none from hslot]
  exact runs_pure

theorem handles_manageInAncestor (hd : p.request.dependency = some d)
    (hindex : p.managedIndex? = some index) :
    Chain.Handles manageInAncestor p (p.MayBring index .managed d)
      ((p.withEntry index .managed d).edit 0 (Editor.refer d)) := by
  intro outcome p'
  unfold manageInAncestor command
  simp only [runs_get_bind, hd, hindex]
  exact runs_manage

theorem passes_manageInAncestor (hindex : p.managedIndex? = none) :
    Chain.Passes manageInAncestor p := by
  intro outcome p'
  unfold manageInAncestor command
  simp only [runs_get_bind, hindex]
  cases p.request.dependency <;> exact runs_pure

/-- Inserting a dependency manages it in the target, with properties, or else lists it there. -/
theorem handles_insert (hd : p.request.dependency = some d)
    (hslot : lookup? p 0 (·.slot? .dependencies d.key) = none) :
    Chain.Handles Insertion.insert p
      (p.MayBring 0 (if p.request.useProperties then .managed else .dependencies) d)
      (if p.request.useProperties then (p.withEntry 0 .managed d).edit 0 (Editor.refer d)
        else p.withEntry 0 .dependencies d) := by
  intro outcome p'
  unfold Insertion.insert command
  simp only [runs_get_bind, hd]
  cases hprops : p.request.useProperties with
  | true => exact runs_manage
  | false =>
    simp only [Bool.false_eq_true, if_false]
    rw [← runs_insertInTarget hprops hslot (u := ()), runs_bind]
    constructor
    · rintro ⟨_, p₁, hinsert, hpure⟩
      obtain ⟨rfl, rfl⟩ := runs_pure.mp hpure
      exact ⟨rfl, hinsert⟩
    · rintro ⟨rfl, hinsert⟩
      exact ⟨(), p', hinsert, runs_pure.mpr ⟨rfl, rfl⟩⟩

/-- The commands that guard and prepare a modification, in their order. -/
def supports : List (Command Project RequestError) :=
  [Guard.dependencyPresent, Guard.parentPackaging, Formatting.keepLayout,
    Formatting.discardUnchangedAll]

/-- The commands that bring a dependency in, in their order. -/
def insertions : List (Command Project RequestError) :=
  [Insertion.upgrade, Insertion.upgradeManaged, Insertion.manageInAncestor, Insertion.insert]

/-- Of the commands that bring a dependency in, the first that applies carries out the request. -/
theorem runs_insertions (hd : p.request.dependency = some d)
    (ran : List (Command Project RequestError)) :
    ∃ command ran', ∀ r p', Runs (Chain.forward ran insertions) p r p' ↔
      p.MayBring (p.site d).index (p.site d).container d ∧ r = (command :: ran', true) ∧
        p' = Chain.noteHandled command (p.brought d) := by
  unfold insertions brought
  cases hdependencies : lookup? p 0 (·.slot? .dependencies d.key) with
  | some slot =>
    have hsite : p.site d = ⟨0, .dependencies, false⟩ := by
      simp [site, slotText?_isSome, hdependencies]
    have hhandles := handles_upgrade (c := .dependencies) hd
      (by rw [hdependencies]; rfl) upgrade rfl
    simp only [hsite, Bool.false_eq_true, if_false]
    exact ⟨upgrade, ran, fun r p' => hhandles.runs_forward_cons⟩
  | none =>
    have hpasses := passes_upgrade (c := .dependencies) hd hdependencies upgrade rfl
    simp only [hpasses.runs_forward_cons]
    cases hmanaged : lookup? p 0 (·.slot? .managed d.key) with
    | some slot =>
      have hsite : p.site d = ⟨0, .managed, false⟩ := by
        simp [site, slotText?_isSome, hdependencies, hmanaged]
      have hhandles := handles_upgrade (c := .managed) hd
        (by rw [hmanaged]; rfl) upgradeManaged rfl
      simp only [hsite, Bool.false_eq_true, if_false]
      exact ⟨upgradeManaged, upgrade :: ran, fun r p' => hhandles.runs_forward_cons⟩
    | none =>
      have hpasses := passes_upgrade (c := .managed) hd hmanaged upgradeManaged rfl
      simp only [hpasses.runs_forward_cons]
      cases hindex : p.managedIndex? with
      | some index =>
        have hsite : p.site d = ⟨index, .managed, true⟩ := by
          simp [site, slotText?_isSome, hdependencies, hmanaged, hindex]
        simp only [hsite, if_true]
        exact ⟨manageInAncestor, upgradeManaged :: upgrade :: ran, fun r p' =>
          (handles_manageInAncestor hd hindex).runs_forward_cons⟩
      | none =>
        simp only [(passes_manageInAncestor hindex).runs_forward_cons]
        have hsite : p.site d = if p.request.useProperties then ⟨0, .managed, true⟩
            else ⟨0, .dependencies, false⟩ := by
          simp [site, slotText?_isSome, hdependencies, hmanaged, hindex]
        have hhandles := handles_insert hd hdependencies
        rw [hsite]
        refine ⟨Insertion.insert, manageInAncestor :: upgradeManaged :: upgrade :: ran,
          fun r p' => hhandles.runs_forward_cons.trans ?_⟩
        cases p.request.useProperties with
        | true => simp only [if_true]
        | false => simp only [Bool.false_eq_true, if_false]

/-- Without a dependency, no command that would bring one in applies. -/
theorem passes_insertion (hd : p.request.dependency = none)
    {command : Command Project RequestError} (hcommand : command ∈ insertions) :
    Chain.Passes command p := by
  intro outcome p'
  simp only [insertions, List.mem_cons, List.not_mem_nil, or_false] at hcommand
  rcases hcommand with rfl | rfl | rfl | rfl
  all_goals
    simp only [upgrade, upgradeManaged, manageInAncestor, Insertion.insert, command, upgradeIn,
      runs_get_bind, hd]
    exact runs_pure

theorem sameEdits_noteHandled (command : Command Project RequestError) (p : Project) :
    p.SameEdits (Chain.noteHandled command p) := by
  unfold Chain.noteHandled
  split
  · exact ⟨rfl, List.forall₂_same.mpr fun d _ => .refl d⟩
  · exact .refl p

theorem sameEdits_of_postProcess {command : Command Project RequestError}
    (hmem : command ∈ modificationCommands) {x : Bool}
    (h : Runs command.postProcess p x p') : p.SameEdits p' := by
  have hpure : Runs (pure false : Editing Bool) p x p' → p.SameEdits p' := fun h => by
    obtain ⟨-, rfl⟩ := runs_pure.mp h
    exact .refl _
  simp only [modificationCommands, List.mem_cons, List.not_mem_nil, or_false] at hmem
  rcases hmem with rfl | rfl | rfl | rfl | rfl | rfl | rfl | rfl
  · exact hpure h
  · exact hpure h
  · exact Formatting.sameEdits_of_keepLayout h
  · exact Formatting.sameEdits_of_discardUnchangedAll h
  all_goals exact hpure h

/-- A guard that lets a request pass does nothing else. -/
theorem eq_of_guard {c : Command Project RequestError}
    (hc : c ∈ [Guard.dependencyPresent, Guard.parentPackaging]) {outcome : Outcome}
    (h : Runs c.execute p outcome p') : outcome = .notApplicable ∧ p = p' := by
  simp only [List.mem_cons, List.not_mem_nil, or_false] at hc
  rcases hc with rfl | rfl
  · unfold Guard.dependencyPresent at h
    simp only [runs_get_bind] at h
    split at h
    · obtain ⟨_, _, hthrow, -⟩ := runs_bind.mp h
      exact absurd hthrow not_runs_throw
    · obtain ⟨rfl, rfl⟩ := runs_pure.mp h
      exact ⟨rfl, rfl⟩
  · unfold Guard.parentPackaging at h
    simp only [runs_get_bind] at h
    split at h
    · exact absurd h not_runs_throw
    · obtain ⟨rfl, rfl⟩ := runs_pure.mp h
      exact ⟨rfl, rfl⟩

theorem postProcess_of_insertion {command : Command Project RequestError}
    (hcommand : command ∈ insertions) : command.postProcess = pure false := by
  simp only [insertions, List.mem_cons, List.not_mem_nil, or_false] at hcommand
  rcases hcommand with rfl | rfl | rfl | rfl <;> rfl

/-- A command that does not apply has changed nothing. -/
theorem eq_of_notApplicable {command : Command Project RequestError}
    (hcommand : command ∈ insertions) (h : Runs command.execute p .notApplicable p') : p' = p := by
  have hpasses : Chain.Passes command p → p' = p := fun hpasses => ((hpasses _ _).mp h).2
  have hhandles : ∀ {may : Prop} {q : Project}, Chain.Handles command p may q → p' = p :=
    fun hhandles => nomatch ((hhandles _ _).mp h).1
  cases hd : p.request.dependency with
  | none => exact hpasses (passes_insertion hd hcommand)
  | some d =>
    have hupgrade : ∀ c : Container, command.execute = upgradeIn c.path → p' = p := by
      intro c hexecute
      cases hslot : lookup? p 0 (·.slot? c d.key) with
      | some slot => exact hhandles (handles_upgrade hd (by rw [hslot]; rfl) command hexecute)
      | none => exact hpasses (passes_upgrade hd hslot command hexecute)
    simp only [insertions, List.mem_cons, List.not_mem_nil, or_false] at hcommand
    rcases hcommand with rfl | rfl | rfl | rfl
    · exact hupgrade .dependencies rfl
    · exact hupgrade .managed rfl
    · cases hindex : p.managedIndex? with
      | some index => exact hhandles (handles_manageInAncestor hd hindex)
      | none => exact hpasses (passes_manageInAncestor hindex)
    · unfold Insertion.insert Insertion.command at h
      simp only [runs_get_bind, hd] at h
      split at h
      · exact nomatch (runs_manage.mp h).1
      · obtain ⟨_, _, -, hpure⟩ := runs_bind.mp h
        exact nomatch (runs_pure.mp hpure).1

/-! ## Whole runs -/

variable {handled : Bool}

/-- A modification captures all layouts before a command may edit any document, tries the commands
that bring a dependency in, and then gives the others their turn on the way out. -/
theorem parts_of_modify (h : Runs modify p handled p') :
    ∃ (p₁ p₂ : Project) (ran : List (Command Project RequestError)), p₁.request = p.request ∧
      List.Forall₂ (fun doc doc' => Formatting.capture doc = .ok doc') p.documents p₁.documents ∧
      Runs (Chain.forward supports.reverse insertions) p₁ (ran, handled) p₂ ∧
      Runs (Chain.backward supports.reverse) p₂ () p' := by
  obtain ⟨ran, p₂, hforward, hbackward⟩ := Chain.runs_run h
  have hparts : Runs (Chain.forward [] ([Guard.dependencyPresent, Guard.parentPackaging] ++
      Formatting.keepLayout :: Formatting.discardUnchangedAll :: insertions)) p (ran, handled)
        p₂ := hforward
  obtain ⟨_, rfl, hguarded⟩ := Chain.runs_forward_support (R := Eq) (fun _ => rfl) Eq.trans
    (fun c hc _ _ _ => eq_of_guard hc) hparts
  rcases Chain.runs_forward_cons hguarded with ⟨_, hkeep, -⟩ | ⟨p₁, hkeep, hkept⟩
  · obtain ⟨_, _, -, hpure⟩ := runs_bind.mp hkeep
    cases (runs_pure.mp hpure).1
  obtain ⟨_, p₁, hchange, hpure⟩ := runs_bind.mp hkeep
  obtain ⟨-, rfl⟩ := runs_pure.mp hpure
  rcases Chain.runs_forward_cons hkept with ⟨_, hdiscard, -⟩ | ⟨p₁, hdiscard, hinsert⟩
  · cases (runs_pure.mp hdiscard).1
  obtain ⟨-, rfl⟩ := runs_pure.mp hdiscard
  obtain ⟨hrequest, hcaptured⟩ := Formatting.documents_of_changeDocuments hchange
  obtain ⟨first, hfirst, rfl⟩ := Chain.exists_of_runs_forward hinsert
  have hpass : Chain.backward (first ++ supports.reverse) = Chain.backward supports.reverse :=
    Chain.backward_append fun c hc => postProcess_of_insertion (hfirst c hc)
  exact ⟨_, p₂, _, hrequest, hcaptured, hinsert, hpass ▸ hbackward⟩

theorem sameEdits_of_backward (h : Runs (Chain.backward supports.reverse) p () p') :
    p.SameEdits p' :=
  Chain.backward_induction .refl (fun _ _ _ => .trans) (fun _ hc _ _ _ => sameEdits_of_postProcess
    (List.mem_append_left insertions (List.mem_reverse.mp hc))) h

/-- A request for a dependency that is carried out has it brought in, once layouts have been
captured, and nothing else is edited. -/
theorem brought_of_modify (hd : p.request.dependency = some d) (h : Runs modify p handled p') :
    handled = true ∧ p.MayBring (p.site d).index (p.site d).container d ∧
      ∃ (p₁ : Project) (command : Command Project RequestError), p₁.request = p.request ∧
        List.Forall₂ (fun doc doc' => Formatting.capture doc = .ok doc') p.documents p₁.documents ∧
        Runs (Chain.backward supports.reverse)
          (Chain.noteHandled command (p₁.brought d)) () p' := by
  obtain ⟨p₁, p₂, ran, hrequest, hcaptured, hforward, hbackward⟩ := parts_of_modify h
  have hbefore : p.SameEdits p₁ :=
    ⟨hrequest, hcaptured.imp fun _ _ => Formatting.sameEdits_capture⟩
  obtain ⟨command, ran', hruns⟩ := runs_insertions (hrequest ▸ hd) supports.reverse
  obtain ⟨hmay, hran, rfl⟩ := (hruns _ _).mp hforward
  refine ⟨(Prod.mk.inj hran).2, fun v hv => ?_, p₁, command, hrequest, hcaptured, hbackward⟩
  have hwrite := hbefore.mayWrite_iff.mp (hmay v hv)
  rwa [hbefore.site_eq] at hwrite

/-- Without a dependency, a request edits nothing. -/
theorem not_handled_of_modify (hd : p.request.dependency = none) (h : Runs modify p handled p') :
    handled = false ∧ ∃ p₁ : Project, p₁.request = p.request ∧
      List.Forall₂ (fun doc doc' => Formatting.capture doc = .ok doc') p.documents p₁.documents ∧
      Runs (Chain.backward supports.reverse) p₁ () p' := by
  obtain ⟨p₁, p₂, ran, hrequest, hcaptured, hforward, hbackward⟩ := parts_of_modify h
  obtain ⟨rfl, rfl⟩ := Chain.eq_of_passes
    (fun command hcommand => passes_insertion (hrequest ▸ hd) hcommand) hforward
  exact ⟨rfl, _, hrequest, hcaptured, hbackward⟩

/-- All that a modification edits, between capturing layouts and writing results, is to bring in the
dependency of its request. -/
theorem phases_of_modify (h : Runs modify p handled p') :
    ∃ p₁ p₂ : Project, p₁.request = p.request ∧
      List.Forall₂ (fun doc doc' => Formatting.capture doc = .ok doc') p.documents p₁.documents ∧
      (p₂ = p₁ ∨ ∃ d, p.request.dependency = some d ∧ p₂ = p₁.brought d) ∧ p₂.SameEdits p' := by
  cases hd : p.request.dependency with
  | none =>
    obtain ⟨-, p₁, hrequest, hcaptured, hbackward⟩ := not_handled_of_modify hd h
    exact ⟨p₁, p₁, hrequest, hcaptured, .inl rfl, sameEdits_of_backward hbackward⟩
  | some d =>
    obtain ⟨-, -, p₁, command, hrequest, hcaptured, hbackward⟩ := brought_of_modify hd h
    exact ⟨p₁, p₁.brought d, hrequest, hcaptured, .inr ⟨d, rfl, rfl⟩,
      (sameEdits_noteHandled command _).trans (sameEdits_of_backward hbackward)⟩

/-- What is reflexive and transitive, and holds of each edit that brings a dependency in, holds of
all of them together. -/
theorem brought_induction {R : Project → Project → Prop} (hrefl : ∀ q, R q q)
    (htrans : ∀ {q q' q''}, R q q' → R q' q'' → R q q'')
    (hprepare : ∀ v ∈ d.version, p.request.useProperties = true →
      R p (p.withProperty (p.site d).index
        (p.versionProperty (p.site d).index (p.site d).container d) v))
    (hplace : ∀ v ∈ d.version, R p (p.prepared (p.site d).index (p.site d).container d v) →
      R (p.prepared (p.site d).index (p.site d).container d v)
        ((p.prepared (p.site d).index (p.site d).container d v).edit (p.site d).index
          (p.place (p.site d).index (p.site d).container d
            (p.versionText (p.site d).index (p.site d).container d v))))
    (henlist : ∀ q index c, R p q → R q (q.edit index (Editor.enlist c d))) :
    R p (p.brought d) := by
  have hentry : R p (p.withEntry (p.site d).index (p.site d).container d) := by
    unfold withEntry
    cases hversion : d.version with
    | none => exact henlist p _ _ (hrefl p)
    | some v =>
      dsimp only
      unfold withVersion
      split
      · exact hrefl p
      · have hprepared : R p (p.prepared (p.site d).index (p.site d).container d v) := by
          unfold prepared
          split
          · next hprops => exact hprepare v hversion hprops
          · exact hrefl p
        exact htrans hprepared (hplace v hversion hprepared)
  unfold brought
  dsimp only
  split
  · exact htrans hentry (henlist _ 0 .dependencies hentry)
  · exact hentry

/-! ## What is shown -/

/-- What a command that handles the request makes of the project. -/
structure CarriedOut (p p' : Project) (d : Dependency) (v : String) : Prop where
  became : p.Became p' (p.planned d v)
  mayWrite : p.MayWrite (p.site d).index (p.site d).container d v

/-- Bringing a dependency in shows what is planned. -/
theorem became_brought (h : p.Writable (p.site d).index (p.site d).container d v)
    (hv : d.version = some v) : p.Became (p.brought d) (p.planned d v) := by
  have hwritten := became_withVersion h
  unfold brought planned withEntry
  rw [hv]
  dsimp only
  split
  · exact hwritten.edit fun _ _ e _ hsound hsingle => Editor.became_refer hsound hsingle h.proper
  · exact hwritten

/-- A project that is modified for a dependency with a version shows what is planned, and the
request has been dealt with. -/
theorem carriedOut_modify (h : p.Writable (p.site d).index (p.site d).container d v)
    (hd : p.request.dependency = some d) (hv : d.version = some v)
    (hruns : Runs Project.modify p handled p') : handled = true ∧ p.CarriedOut p' d v := by
  obtain ⟨hhandled, hmay, p₁, command, hrequest, hcaptured, hbackward⟩ :=
    brought_of_modify hd hruns
  have hbefore : p.SameEdits p₁ :=
    ⟨hrequest, hcaptured.imp fun _ _ => Formatting.sameEdits_capture⟩
  have hsite := hbefore.site_eq d
  have hplanned : p₁.planned d v = p.planned d v := by
    simp only [planned, hsite, hbefore.written_eq]
  refine ⟨hhandled, ?_, hmay v hv⟩
  rw [← hplanned]
  exact (became_brought (by rw [hsite]; exact hbefore.writable h) hv).of_sameEdits hbefore
    ((sameEdits_noteHandled command _).trans (sameEdits_of_backward hbackward))

end Project

end MavenPom
