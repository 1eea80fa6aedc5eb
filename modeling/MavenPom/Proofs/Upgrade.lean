import MavenPom.Proofs.Project.Characters

/-!
# Upgrades take effect

A version that a request writes is the effective one of its artifact, where the entry that it is
written in has the last word on the artifact.
-/

namespace MavenPom

open EffectiveModel Interpolation

namespace Project

variable {p q : Project} {d : Dependency} {v : String} {props : Properties}

/-- The entry that a request writes has the last word on its artifact: nothing behind it counts for
the artifact, and where it is a managed entry, it is no import, and no dependency that is listed has
a version of its own. -/
structure HasLastWord (p : Project) (d : Dependency) (props : Properties) : Prop where
  behind : ∀ x ∈ MavenPom.behind p.request.selection (p.site d).index (p.site d).container d.key
    p.poms, counts (p.site d).container d.key (x.interpolated props) = false
  notImport : (p.site d).container = .managed → ∀ pom ∈ p.poms[(p.site d).index]?,
    ((broughtEntry d "" pom.managed).interpolated props).scope ≠ "import"
  unversioned : (p.site d).container = .managed →
    (last? .dependencies d.key (listed p.request.selection .dependencies props
      (p.referred d).reverse)).bind (·.version) = none

theorem site_index_lt (p : Project) (d : Dependency) : (p.site d).index < p.poms.length := by
  have hlength : p.poms.length = p.ancestors.length + 1 := by
    simp [poms, documents]
  unfold site
  split
  · simp [hlength]
  split
  · simp [hlength]
  split
  · next index hindex =>
    unfold managedIndex? at hindex
    split at hindex
    · cases hindex
    · next hempty =>
      split at hindex
      · cases hindex
        simp [hlength]
      · cases hindex
        have hpos : p.ancestors.length ≠ 0 := by simpa [List.isEmpty_iff] using hempty
        simp only [hlength]
        omega
  · split <;> simp [hlength]

theorem scope_broughtEntry (d : Dependency) (text text' : String) (es : List DeclaredDependency) :
    ((broughtEntry d text es).interpolated props).scope =
      ((broughtEntry d text' es).interpolated props).scope := by
  unfold broughtEntry
  split <;> rfl

/-- What stands for the version afterwards is the effective version, where its entry has the
last word. -/
theorem versionOf?_planned (hp : p.Pristine)
    (hids : p.request.useProperties = true → p.DistinctProfiles) (hkey : d.key.IsPlain)
    (hlast : p.HasLastWord d (propertiesOf p.request.selection (p.planned d v).reverse)) :
    (build (p.planned d v).reverse p.request.selection).versionOf? d.key =
      some (interpolate (propertiesOf p.request.selection (p.planned d v).reverse)
        (p.finalText d v)) := by
  obtain ⟨pom, hpom⟩ : ∃ pom, p.poms[(p.site d).index]? = some pom :=
    ⟨_, List.getElem?_eq_getElem (p.site_index_lt d)⟩
  have hversion := (key?_broughtEntry d (p.finalText d v)
    (pom.entries (p.site d).container)).2
  have hbrought := @DeclaredDependency.key?_interpolated
    (propertiesOf p.request.selection (p.planned d v).reverse) _ _ hkey
    (key?_broughtEntry d (p.finalText d v) (pom.entries (p.site d).container)).1
  have hself : counts (p.site d).container d.key
      ((broughtEntry d (p.finalText d v) (pom.entries (p.site d).container)).interpolated
        (propertiesOf p.request.selection (p.planned d v).reverse)) = true := by
    rw [counts, hbrought]
    cases hcontainer : (p.site d).container with
    | dependencies => simp
    | managed =>
      have himport := hlast.notImport hcontainer pom hpom
      rw [scope_broughtEntry d "" (p.finalText d v)] at himport
      simpa [Pom.entries] using himport
  have hentries : last? (p.site d).container d.key
      (entriesOf p.request.selection (p.site d).container (p.planned d v).reverse) =
      some ((broughtEntry d (p.finalText d v) (pom.entries (p.site d).container)).interpolated
        (propertiesOf p.request.selection (p.planned d v).reverse)) := by
    rw [entriesOf, listed_congr (listing_planned hp hids _)]
    exact last?_bring hpom hlast.behind hself
  rw [versionOf?_build]
  cases hcontainer : (p.site d).container with
  | dependencies =>
    rw [hcontainer] at hentries hversion
    rw [hentries]
    simp [DeclaredDependency.interpolated, hversion]
  | managed =>
    have hnone := hlast.unversioned hcontainer
    rw [← listed_congr (listing_planned_of_ne (v := v) hids _ (by simp [hcontainer]))] at hnone
    rw [hcontainer] at hentries hversion
    rw [hentries, entriesOf, hnone]
    simp [DeclaredDependency.interpolated, hversion]

/-! ## Requests that write no property -/

theorem propertiesOf_congr {s : ProfileSelection} {poms poms' : List Pom}
    (h : poms'.map (fun pom m => inherit s m pom) = poms.map fun pom m => inherit s m pom) :
    propertiesOf s poms'.reverse = propertiesOf s poms.reverse := by
  have hfold : ∀ l : List Pom, l.reverse.foldl (inherit s) initial =
      (l.map fun pom m => inherit s m pom).reverse.foldl (fun m f => f m) initial := fun l => by
    rw [← List.map_reverse, List.foldl_map]
  simp only [propertiesOf, hfold, h]

/-- Entries do not matter for properties. -/
theorem propertiesOf_planned (s : ProfileSelection)
    (h : p.leaves (p.site d).index (p.site d).container d v = true ∨
      p.request.useProperties = false) :
    propertiesOf s (p.planned d v).reverse = propertiesOf s p.lineage := by
  have hentries : ∀ (c : Container) (es : Pom → List DeclaredDependency) (l : List Pom)
      (index : Nat), (l.modify index fun pom => pom.withEntries c (es pom)).map
        (fun pom m => inherit s m pom) = l.map fun pom m => inherit s m pom := by
    refine fun c es l index => map_modify_eq fun pom _ => ?_
    cases c <;> rfl
  have hwritten : (p.written (p.site d).index (p.site d).container d v).map
      (fun pom m => inherit s m pom) = p.poms.map fun pom m => inherit s m pom := by
    rw [written]
    split
    · rfl
    · next hleaves =>
      rw [declaring, h.resolve_left hleaves, if_neg (by simp)]
      exact hentries ..
  rw [lineage_eq]
  refine propertiesOf_congr ?_
  rw [planned]
  split
  · exact (hentries ..).trans hwritten
  · exact hwritten

theorem leaves_eq_false (hskip : p.request.skipIfNewer = false) (index : Nat) (c : Container)
    (d : Dependency) (v : String) : p.leaves index c d v = false := by
  have hkeeps : (VersionSlot.keeps p · v) = fun _ => false := by
    funext text
    rw [VersionSlot.keeps, hskip, Bool.false_and]
  rw [leaves, hkeeps]
  cases p.slotText? index c d.key <;> rfl

/-- A version that is written as it is requested takes effect, where the entry that it is written in
has the last word on the artifact. -/
theorem versionOf?_of_brings (h : p.Brings d v q) (hprops : p.request.useProperties = false)
    (hskip : p.request.skipIfNewer = false) (hv : Pom.opensReference v = false)
    (hkey : d.key.IsPlain)
    (hlast : p.HasLastWord d (build p.lineage p.request.selection).properties) :
    (build q.lineage q.request.selection).versionOf? d.key = some v := by
  obtain ⟨hpoms, -⟩ := h.poms_eq fun hnot => absurd hnot (by simp [hprops])
  have hids : p.request.useProperties = true → p.DistinctProfiles := fun hnot =>
    absurd hnot (by simp [hprops])
  have hsame := propertiesOf_planned (d := d) (v := v) p.request.selection (.inr hprops)
  have htext : p.finalText d v = v := by
    simp [finalText, leaves_eq_false hskip, versionText, hprops]
  rw [properties_build, ← hsame] at hlast
  rw [h.request, lineage_eq, hpoms, versionOf?_planned h.pristine hids hkey hlast, htext,
    interpolate_of_not_hasReference (hasReference_of_not_opensReference hv)]

section Listed

open Spelling

/-- A request for `g:a` at a version, to be written as it is. -/
def plainRequest (v : String) : Request :=
  { Request.standard with
    dependency := some (Dependency.ofKey ⟨"g", "a"⟩ (some v))
    skipIfNewer := false }

/-- A target that lists `g:a` at a version. -/
def listedTarget (v : String) : List Char :=
  element "project" [element "dependencies" [entry "g" "a" [field "version" v]]]

/-- A project of such a target, and a request for version 2. -/
def listed (v : String) : Project := ofChars (plainRequest "2") (listedTarget v) []

theorem brings_listed :
    (listed "1").Brings (Dependency.ofKey ⟨"g", "a"⟩ (some "2")) "2" (listed "2") := by
  have henacts : (listed "1").Enacts (listed "2") := by decide +kernel
  exact henacts.brings (by decide +kernel) (by decide +kernel)
    ⟨⟨"g:a:2", by decide +kernel⟩, rfl⟩ rfl rfl

theorem versionOf?_listed :
    (listed "1").Brings (Dependency.ofKey ⟨"g", "a"⟩ (some "2")) "2" (listed "2") ∧
      (build (listed "2").lineage (listed "2").request.selection).versionOf? ⟨"g", "a"⟩ =
        some "2" := by
  refine ⟨brings_listed, versionOf?_of_brings brings_listed rfl rfl (by decide +kernel)
    (by decide +kernel) ?_⟩
  exact ⟨by decide +kernel, by decide +kernel, by decide +kernel⟩

/-- A target that lists `g:a` at a version, and again at version 2. -/
def repeatedTarget (v : String) : List Char :=
  element "project" [element "dependencies"
    [entry "g" "a" [field "version" v], entry "g" "a" [field "version" "2"]]]

/-- A project of such a target, and a request for version 3. -/
def repeated (v : String) : Project := ofChars (plainRequest "3") (repeatedTarget v) []

/-- Of two entries for an artifact, the first is upgraded, and the last one counts. -/
theorem versionOf?_repeated :
    (repeated "1").Brings (Dependency.ofKey ⟨"g", "a"⟩ (some "3")) "3" (repeated "3") ∧
      (repeated "1").request.useProperties = false ∧ (repeated "1").request.skipIfNewer = false ∧
      Pom.opensReference "3" = false ∧
      (build (repeated "3").lineage (repeated "3").request.selection).versionOf? ⟨"g", "a"⟩ =
        some "2" := by
  have henacts : (repeated "1").Enacts (repeated "3") := by decide +kernel
  have hbrings := henacts.brings (by decide +kernel) (by decide +kernel)
    ⟨⟨"g:a:3", by decide +kernel⟩, rfl⟩ rfl rfl
  exact ⟨hbrings, rfl, rfl, by decide +kernel, by decide +kernel⟩

end Listed

end Project

end MavenPom
