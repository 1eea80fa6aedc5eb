import MavenPom.Edit.Guard
import MavenPom.Proofs.Pom.Lineage
import MavenPom.Proofs.Project.Characters

/-!
# One table of properties

The properties that a project's target sees are those of its lineage's model. Only a name that the
target leaves to its ancestors makes a difference: the model has it from them, and the target does
not.
-/

namespace MavenPom

open Markup

namespace Pom

/-- A POM that is read does not give an empty text for its group. -/
theorem groupId_ne_empty {text location : String} {p : Pom} (h : parse text location = .ok p) :
    p.groupId ≠ some "" := by
  intro hempty
  unfold parse at h
  split at h
  · next node _ =>
    cases h
    obtain ⟨raw, -, htrim⟩ := Option.bind_eq_some_iff.mp hempty
    exact (Text.isTrimmed_of_trim? htrim).2 rfl
  · cases h

theorem effectiveGroupId?_isSome {p : Pom} {r : ParentReference} (hgroup : p.groupId ≠ some "")
    (hparent : p.parent = some r) (hr : r.groupId ≠ "") : p.effectiveGroupId?.isSome = true := by
  rw [effectiveGroupId?, hparent]
  cases hown : p.groupId with
  | none => simp [hr]
  | some g =>
    have hg : g ≠ "" := fun heq => hgroup (by rw [hown, heq])
    simp [hg]

end Pom

theorem Document.parse_ofChars {cs : List Char} (h : Readable cs) (location : String) :
    Pom.parse (ofChars cs).text location = .ok (ofChars cs).pom := by
  obtain ⟨root, hroot⟩ := Option.isSome_iff_exists.mp h.pom
  rw [Pom.parse, show (ofChars cs).text = String.ofList cs from rfl, Strict.parse?_ofList, hroot,
    ofChars, hroot]
  rfl

namespace Guard

variable {p : Project}

/-- Where the guard lets a project pass, every document names the next. -/
theorem isLinked_of_hierarchyFault? (h : hierarchyFault? p = none) {child parent : Document}
    (hmem : (child, parent) ∈ p.documents.zip p.ancestors) : isLinked child parent = true := by
  have hlink := List.findSome?_eq_none_iff.mp (Option.or_eq_none_iff.mp h).2 _ hmem
  by_contra hnot
  simp [linkFault?, hnot] at hlink

/-- A parent reference names a POM by the group that it has. -/
theorem exists_reference_of_isLinked {child parent : Document} (h : isLinked child parent = true) :
    ∃ r, child.pom.parent = some r ∧ r.groupId ≠ "" := by
  rw [isLinked, Option.any_eq_true_iff_get] at h
  obtain ⟨hsome, h⟩ := h
  obtain ⟨r, hr⟩ := Option.isSome_iff_exists.mp hsome
  simp only [hr, Option.get_some, Bool.and_eq_true, beq_iff_eq] at h
  refine ⟨r, hr, ?_⟩
  simpa using (Option.filter_eq_some_iff.mp h.1).2

end Guard

namespace Project

variable {p : Project} {name : String}

/-- What the nearest document gives is what the target does, unless it leaves that to others. -/
theorem findSome?_lineage {own : Pom → Option String}
    (h : own p.target.pom = none → ∀ a ∈ p.ancestors, own a.pom = none) :
    p.lineage.reverse.findSome? own = own p.target.pom := by
  rw [lineage, List.reverse_reverse, documents, List.map_cons, List.findSome?_cons]
  cases hown : own p.target.pom with
  | some value => rfl
  | none =>
    refine List.findSome?_eq_none_iff.mpr fun pom hpom => ?_
    obtain ⟨a, ha, rfl⟩ := List.mem_map.mp hpom
    exact h hown a ha

/-- A target of a hierarchy that the guard lets pass gives a group, if its POM is one
    that is read. -/
theorem ancestors_eq_nil_of_effectiveGroupId? (hfault : Guard.hierarchyFault? p = none)
    (hgroup : p.target.pom.groupId ≠ some "") (hnone : p.target.pom.effectiveGroupId? = none) :
    p.ancestors = [] := by
  cases hancestors : p.ancestors with
  | nil => rfl
  | cons a above =>
    have hmem : (p.target, a) ∈ p.documents.zip p.ancestors := by simp [documents, hancestors]
    obtain ⟨r, hparent, hr⟩ :=
      Guard.exists_reference_of_isLinked (Guard.isLinked_of_hierarchyFault? hfault hmem)
    have hsome := Pom.effectiveGroupId?_isSome hgroup hparent hr
    rw [hnone] at hsome
    cases hsome

open EffectiveModel in
/-- A change of the target and a query interpolate by the same table, in every hierarchy that the
    guard lets pass. The names for the artifact and the version count as far as the target gives
    them, the version also by its parent reference, or no ancestor does. -/
theorem get?_properties_eq_build (hread : ∃ location, Pom.parse p.target.text location =
    .ok p.target.pom) (hfault : Guard.hierarchyFault? p = none)
    (hartifact : name ∈ ownNames "artifactId" → p.target.pom.artifactId = none →
      ∀ a ∈ p.ancestors, a.pom.artifactId = none)
    (hversion : name ∈ ownNames "version" → p.target.pom.effectiveVersion? = none →
      ∀ a ∈ p.ancestors, a.pom.effectiveVersion? = none) :
    p.properties.get? name = (build p.lineage p.request.selection).properties.get? name := by
  obtain ⟨location, hparse⟩ := hread
  have hinherited : ∀ (field : EffectiveModel → Option String) {own : Pom → Option String},
      (∀ m q, field (inherit p.request.selection m q) = (own q).or (field m)) →
      field initial = none →
      (own p.target.pom = none → ∀ a ∈ p.ancestors, own a.pom = none) →
      own p.target.pom = field (p.lineage.foldl (inherit p.request.selection) initial) := by
    intro field own hfield hnone hown
    rw [foldl_inherit_eq hfield, hnone, Option.or_none, findSome?_lineage hown]
  have hgroup : p.target.pom.effectiveGroupId? = none →
      ∀ a ∈ p.ancestors, a.pom.effectiveGroupId? = none := by
    intro hnone a ha
    rw [ancestors_eq_nil_of_effectiveGroupId? hfault (Pom.groupId_ne_empty hparse) hnone] at ha
    cases ha
  rw [properties_build, propertiesOf, properties, withProjectProperties, withProjectProperties]
  refine get?_withProjectProperty_eq (get?_withProjectProperty_eq (get?_withProjectProperty_eq ?_
    fun _ => ?_) fun hname => ?_) fun hname => ?_
  · rw [properties_foldl_inherit]
    rfl
  · exact hinherited (·.groupId) (fun _ _ => rfl) rfl hgroup
  · exact hinherited (·.artifactId) (fun _ _ => rfl) rfl (hartifact hname)
  · exact hinherited (·.version) (fun _ _ => rfl) rfl (hversion hname)

/-- The parent of both children below. -/
def ancestral : List Char :=
  "<project><groupId>g</groupId><artifactId>p</artifactId><version>1</version>".toList ++
    "<packaging>pom</packaging></project>".toList

def heir : List Char :=
  "<project><parent><groupId>g</groupId><artifactId>p</artifactId><version>1</version>".toList ++
    "</parent><artifactId>c</artifactId></project>".toList

def foundling : List Char :=
  "<project><parent><groupId>g</groupId><artifactId>p</artifactId></parent></project>".toList

/-- A child whose group and version are those of its parent reference. -/
def inheriting : Project := ofChars .standard heir [ancestral]

theorem get?_properties_inheriting :
    (∃ location, Pom.parse inheriting.target.text location = .ok inheriting.target.pom) ∧
    (Guard.hierarchyFault? inheriting = none ∧ inheriting.target.pom.artifactId = some "c" ∧
      inheriting.target.pom.effectiveVersion? = some "1") ∧
    inheriting.properties.get? "pom.version" =
      (EffectiveModel.build inheriting.lineage inheriting.request.selection).properties.get?
        "pom.version" := by
  have hancestral : ancestral = _ :=
    congrArg₂ (· ++ ·) (@String.toList_ofList _) (@String.toList_ofList _)
  have hheir : heir = _ :=
    congrArg₂ (· ++ ·) (@String.toList_ofList _) (@String.toList_ofList _)
  have hread : ∃ location, Pom.parse inheriting.target.text location = .ok inheriting.target.pom :=
    ⟨"", Document.parse_ofChars (by rw [hheir]; decide +kernel) ""⟩
  have hfacts : Guard.hierarchyFault? inheriting = none ∧
      inheriting.target.pom.artifactId = some "c" ∧
      inheriting.target.pom.effectiveVersion? = some "1" := by
    rw [inheriting, hheir, hancestral]
    decide +kernel
  have ⟨hfault, hartifact, hversion⟩ := hfacts
  refine ⟨hread, hfacts, get?_properties_eq_build hread hfault ?_ ?_⟩
  · simp [hartifact]
  · simp [hversion]

/-- A child without an artifact and a version, whose parent reference gives no version either. -/
def unnamed : Project := ofChars .standard foundling [ancestral]

/-- A query has the ancestor's artifact and version for the child's, and a change of the child has
    none. -/
theorem get?_properties_unnamed :
    (∃ location, Pom.parse unnamed.target.text location = .ok unnamed.target.pom) ∧
    Guard.hierarchyFault? unnamed = none ∧
    unnamed.properties.get? "project.artifactId" = none ∧
    unnamed.properties.get? "project.version" = none ∧
    (EffectiveModel.build unnamed.lineage unnamed.request.selection).properties.get?
      "project.artifactId" = some "p" ∧
    (EffectiveModel.build unnamed.lineage unnamed.request.selection).properties.get?
      "project.version" = some "1" := by
  have hancestral : ancestral = _ :=
    congrArg₂ (· ++ ·) (@String.toList_ofList _) (@String.toList_ofList _)
  have hfoundling : foundling = _ := @String.toList_ofList _
  refine ⟨⟨"", Document.parse_ofChars (by rw [hfoundling]; decide +kernel) ""⟩, ?_⟩
  rw [unnamed, hfoundling, hancestral]
  decide +kernel

end Project

end MavenPom
