import MavenPom.Proofs.PropertyUpgrade
import MavenPom.Proofs.Version

/-!
# No downgrades

A request that leaves newer versions in place makes the effective version of its artifact no older,
where the version that it looks at is the effective one.
-/

namespace MavenPom

open VersionSlot EffectiveModel Interpolation

namespace Project

variable {p q : Project} {d : Dependency} {v : String}

/-- The version that a request looks at is the effective one of its artifact, by the properties of
the project as by those of its model. -/
def LooksAtEffective (p : Project) (d : Dependency) : Prop :=
  ∀ version ∈ (build p.lineage p.request.selection).versionOf? d.key,
    ∃ text ∈ p.slotText? (p.site d).index (p.site d).container d.key,
      interpolate p.properties text = version ∧
        interpolate (build p.lineage p.request.selection).properties text = version

instance (p : Project) (d : Dependency) : Decidable (p.LooksAtEffective d) :=
  inferInstanceAs (Decidable (∀ version ∈ (build p.lineage p.request.selection).versionOf? d.key,
    ∃ text ∈ p.slotText? (p.site d).index (p.site d).container d.key, _))

/-- The model of a project has the value that has been written into a property. -/
theorem get?_propertiesOf_of_brings (h : p.Brings d v q) (hprops : p.request.useProperties = true)
    (hleaves : p.leaves (p.site d).index (p.site d).container d v = false)
    (hname : p.Declarable (p.propertyName d)) (hnearest : p.DeclaresNearest d) :
    (propertiesOf p.request.selection q.lineage).get? (p.propertyName d) = some v := by
  have hfind := findSome?_of_brings h hprops hleaves hname hnearest
  have hget := @get?_propertiesOf q.lineage _ (p.isBuiltin_propertyName d)
    (by simpa [lineage_eq] using h.distinctNames.2) p.request.selection
  rwa [hget, lineage_eq, List.reverse_reverse]

/-- The text that is written for a version stands for it. -/
theorem interpolate_versionText (h : p.Brings d v q) (hv : hasReference v = false)
    (hleaves : p.leaves (p.site d).index (p.site d).container d v = false)
    (hprops : p.request.useProperties = true → p.Declarable (p.propertyName d) ∧
      p.DeclaresNearest d ∧ IsReferable (p.propertyName d)) :
    interpolate (propertiesOf p.request.selection q.lineage)
      (p.versionText (p.site d).index (p.site d).container d v) = v := by
  rw [versionText]
  split
  · next huse =>
    obtain ⟨hname, hnearest, hreferable⟩ := hprops huse
    exact interpolate_reference hreferable
      (get?_propertiesOf_of_brings h huse hleaves hname hnearest) hv
  · exact interpolate_of_not_hasReference hv

/-- A request that leaves newer versions in place does not make the effective version older. -/
theorem not_newer_of_brings (h : p.Brings d v q) (hskip : p.request.skipIfNewer = true)
    (hv : hasReference v = false) (hkey : d.key.IsPlain)
    (hprops : p.request.useProperties = true → p.Declarable (p.propertyName d) ∧
      p.DeclaresNearest d ∧ IsReferable (p.propertyName d))
    (hlast : p.HasLastWord d (build q.lineage q.request.selection).properties)
    (hlooks : p.LooksAtEffective d) {cur new : String}
    (hcur : (build p.lineage p.request.selection).versionOf? d.key = some cur)
    (hnew : (build q.lineage q.request.selection).versionOf? d.key = some new) :
    Version.isNewer? cur new ≠ some true := by
  obtain ⟨text, htext, hproject, hmodel⟩ := hlooks cur hcur
  obtain ⟨hpoms, -⟩ := h.poms_eq fun huse => (hprops huse).1
  have hids : p.request.useProperties = true → p.DistinctProfiles := fun huse =>
    (hprops huse).1.distinct
  rw [h.request, properties_build, lineage_eq, hpoms] at hlast
  have hversion := versionOf?_planned h.pristine hids hkey hlast
  rw [h.request, lineage_eq, hpoms, hversion, Option.some.injEq, ← hpoms, ← lineage_eq] at hnew
  have hkeeps : p.leaves (p.site d).index (p.site d).container d v = keeps p text v := by
    rw [leaves, htext, Option.any_some]
  intro hnewer
  cases hleaves : p.leaves (p.site d).index (p.site d).container d v with
  | true =>
    -- The text stays, and so do the properties that it is read by.
    have hsame := propertiesOf_planned p.request.selection (.inl hleaves)
    rw [finalText, if_pos hleaves, htext, Option.getD_some, lineage_eq, hpoms, hsame,
      ← properties_build, hmodel] at hnew
    rw [← hnew] at hnewer
    have hself := Version.isNewer?_asymm hnewer
    rw [hnewer] at hself
    cases hself
  | false =>
    -- The requested version is written, as it is not older than the present one.
    rw [finalText, if_neg (by simp [hleaves]), interpolate_versionText h hv hleaves hprops] at hnew
    rw [← hnew] at hnewer
    rw [hleaves, keeps, hskip, Bool.true_and, hproject,
      Version.isNewer?_asymm hnewer] at hkeeps
    cases hkeeps

section Cautious

open Spelling

/-- A request for `g:a` at a version, unless a newer one is there, for the nearest ancestor to
manage. -/
def cautiousRequest (v : String) : Request :=
  { plainRequest v with skipIfNewer := true, managedTarget := .nearest }

/-- A project of a target that lists `g:a` at version 2, and a request for version 1. -/
def newer : Project := ofChars (cautiousRequest "1") (listedTarget "2") []

theorem not_newer_listed :
    newer.Brings (Dependency.ofKey ⟨"g", "a"⟩ (some "1")) "1" newer ∧
      (build newer.lineage newer.request.selection).versionOf? ⟨"g", "a"⟩ = some "2" ∧
      Version.isNewer? "2" "2" ≠ some true := by
  have henacts : newer.Enacts newer := by decide +kernel
  have hbrings : newer.Brings (Dependency.ofKey ⟨"g", "a"⟩ (some "1")) "1" newer :=
    henacts.brings (by decide +kernel) (by decide +kernel)
      ⟨⟨"g:a:1", by decide +kernel⟩, rfl⟩ rfl rfl
  have hversion : (build newer.lineage newer.request.selection).versionOf? ⟨"g", "a"⟩ =
      some "2" := by decide +kernel
  have hlast : newer.HasLastWord (Dependency.ofKey ⟨"g", "a"⟩ (some "1"))
      (build newer.lineage newer.request.selection).properties :=
    ⟨by decide +kernel, by decide +kernel, by decide +kernel⟩
  refine ⟨hbrings, hversion, ?_⟩
  exact not_newer_of_brings hbrings rfl (by decide +kernel) (by decide +kernel)
    (fun hnot => Bool.noConfusion hnot) hlast (by decide +kernel) hversion hversion

/-- The characters that name a parent of group `r`. -/
def childOf (artifactId : String) : List Char :=
  element "parent" [field "groupId" "r", field "artifactId" artifactId]

/-- A target that lists `g:a` without a version. -/
def versionlessTarget : List Char :=
  element "project" [childOf "n", element "dependencies" [entry "g" "a" []]]

/-- A parent that manages nothing yet, and what becomes of it. -/
def nearest (managed : List Char) : List Char :=
  element "project" [childOf "r", field "artifactId" "n", field "packaging" "pom", managed]

def nearestManaged : List Char :=
  "\n  ".toList ++ element "dependencyManagement"
    ["\n    ".toList, element "dependencies"
      ["\n      ".toList, element "dependency"
        ["\n        ".toList, field "groupId" "g", "\n        ".toList, field "artifactId" "a",
          "\n        ".toList, field "version" "1", "\n      ".toList], "\n    ".toList],
      "\n  ".toList] ++ "\n".toList

/-- The farthest ancestor, which manages `g:a` at version 2. -/
def farthest : List Char :=
  element "project" [named, element "dependencyManagement"
    [element "dependencies" [entry "g" "a" [field "version" "2"]]]]

/-- A project of such documents, and a request for version 1. -/
def managedFarther (managed : List Char) : Project :=
  ofChars (cautiousRequest "1") versionlessTarget [nearest managed, farthest]

/-- A version that is managed nearer is written without a look at the one that
    is managed farther. -/
theorem isNewer?_managedFarther :
    (managedFarther []).Brings (Dependency.ofKey ⟨"g", "a"⟩ (some "1")) "1"
        (managedFarther nearestManaged) ∧
      (managedFarther []).request.skipIfNewer = true ∧
      (build (managedFarther []).lineage (managedFarther []).request.selection).versionOf?
        ⟨"g", "a"⟩ = some "2" ∧
      (build (managedFarther nearestManaged).lineage
        (managedFarther nearestManaged).request.selection).versionOf? ⟨"g", "a"⟩ = some "1" ∧
      Version.isNewer? "2" "1" = some true := by
  have henacts : (managedFarther []).Enacts (managedFarther nearestManaged) := by decide +kernel
  have hbrings := henacts.brings (by decide +kernel) (by decide +kernel)
    ⟨⟨"g:a:1", by decide +kernel⟩, rfl⟩ rfl rfl
  exact ⟨hbrings, rfl, by decide +kernel, by decide +kernel, by decide +kernel⟩

end Cautious

end Project

end MavenPom
