import MavenPom.Proofs.Project.Declaration
import MavenPom.Proofs.Upgrade

/-!
# Upgrades through properties

A version that is written into a property is what the property stands for afterwards: the block that
it is written in is the one that the target reads it from.
-/

namespace MavenPom

open VersionSlot EffectiveModel

theorem findSome?_modify {α : Type} {options : List (Option α)} {index : Nat} {x : α}
    (hlt : index < options.length) (hnone : ∀ j < index, options[j]? = some none) :
    (options.modify index fun _ => some x).findSome? id = some x := by
  induction options generalizing index with
  | nil => simp at hlt
  | cons o options ih =>
    cases index with
    | zero => simp
    | succ index =>
      obtain rfl : o = none := by simpa using hnone 0 (Nat.succ_pos _)
      rw [List.modify_succ_cons, List.findSome?_cons]
      refine ih (Nat.lt_of_succ_lt_succ hlt) fun j hj => ?_
      simpa using hnone (j + 1) (Nat.succ_lt_succ hj)

namespace Project

variable {p q : Project} {d : Dependency} {v name : String}

/-- Entries do not matter for what the documents declare. -/
theorem declares_planned (s : ProfileSelection) (other : String) : (p.planned d v).map
      (fun pom => (pom.activeProperties s).get? other) =
    (if p.leaves (p.site d).index (p.site d).container d v then p.poms
      else p.declaring (p.site d).index (p.site d).container d v).map
        fun pom => (pom.activeProperties s).get? other := by
  have hentries : ∀ (c : Container) (es : Pom → List DeclaredDependency) (l : List Pom)
      (index : Nat), (l.modify index fun pom => pom.withEntries c (es pom)).map
        (fun pom => (pom.activeProperties s).get? other) =
          l.map fun pom => (pom.activeProperties s).get? other :=
    fun c es l index => map_modify_eq fun pom _ => by rw [Pom.activeProperties_withEntries]
  have hwritten : (p.written (p.site d).index (p.site d).container d v).map
      (fun pom => (pom.activeProperties s).get? other) =
      (if p.leaves (p.site d).index (p.site d).container d v then p.poms
        else p.declaring (p.site d).index (p.site d).container d v).map
          fun pom => (pom.activeProperties s).get? other := by
    rw [written]
    split
    · rfl
    · exact hentries ..
  rw [planned]
  split
  · exact (hentries ..).trans hwritten
  · exact hwritten

/-- The property that the version of a dependency is written into. -/
def propertyName (p : Project) (d : Dependency) : String :=
  p.versionProperty (p.site d).index (p.site d).container d

/-- The document that this property is written in. -/
def propertyIndex (p : Project) (d : Dependency) : Nat :=
  (p.propertySite (p.site d).index (p.propertyName d)).1

/-- No document declares the property of a version that is nearer than the one that refers to it, if
this one does. -/
def DeclaresNearest (p : Project) (d : Dependency) : Prop :=
  p.declared? (p.propertyName d) (p.site d).index ≠ none →
    ∀ j < (p.site d).index, p.declared? (p.propertyName d) j = none

instance (p : Project) (d : Dependency) : Decidable (p.DeclaresNearest d) :=
  inferInstanceAs (Decidable (_ ≠ none → ∀ j < (p.site d).index, _))

/-- Writing a property has its document declare the value, and nothing else has changed in what the
documents declare. -/
theorem declares_declaring (h : p.Brings d v q) (hprops : p.request.useProperties = true)
    (hname : p.Declarable (p.propertyName d)) (other : String) :
    (p.declaring (p.site d).index (p.site d).container d v).map
        (fun pom => (pom.activeProperties p.request.selection).get? other) =
      (p.poms.map fun pom => (pom.activeProperties p.request.selection).get? other).modify
        (p.propertyIndex d) fun value => if p.propertyName d = other then some v else value := by
  obtain ⟨pom, hpom, hscope, -⟩ := propertySite_spec h.pristine h.distinctNames.1 hname
    (p.site_index_lt d)
  have hids := hname.distinct pom (List.mem_of_getElem? hpom)
  have hnames := h.distinctNames.1 pom (List.mem_of_getElem? hpom)
  rw [declaring, if_pos hprops]
  refine map_modify fun pom' hpom' => ?_
  obtain rfl := Option.some.inj (hpom.symm.trans hpom')
  exact (congrArg (fun scope => ((pom.setProperty scope (p.propertyName d) v).activeProperties
    p.request.selection).get? other) hscope).trans
      (Pom.get?_activeProperties_setProperty hnames hids ..)

theorem isBuiltin_propertyName (p : Project) (d : Dependency) :
    isBuiltin (p.propertyName d) = false :=
  isBuiltin_propertyToWrite ..

/-- Of all documents that declare the property afterwards, the nearest declares the version. -/
theorem findSome?_of_brings (h : p.Brings d v q) (hprops : p.request.useProperties = true)
    (hleaves : p.leaves (p.site d).index (p.site d).container d v = false)
    (hname : p.Declarable (p.propertyName d)) (hnearest : p.DeclaresNearest d) :
    (q.poms.findSome? fun pom => (pom.activeProperties p.request.selection).get?
      (p.propertyName d)) = some v := by
  obtain ⟨hpoms, -⟩ := h.poms_eq fun _ => hname
  obtain ⟨pom, hpom, -, hfar⟩ := propertySite_spec h.pristine h.distinctNames.1 hname
    (p.site_index_lt d)
  have hlt : p.propertyIndex d < p.poms.length := (List.getElem?_eq_some_iff.mp hpom).1
  have hmap : q.poms.map (fun pom => (pom.activeProperties p.request.selection).get?
        (p.propertyName d)) =
      (p.poms.map fun pom => (pom.activeProperties p.request.selection).get?
        (p.propertyName d)).modify (p.propertyIndex d) fun _ => some v := by
    rw [hpoms, declares_planned, if_neg (by simp [hleaves]),
      declares_declaring h hprops hname]
    simp
  have hid : ∀ l : List Pom, (l.findSome? fun pom => (pom.activeProperties
      p.request.selection).get? (p.propertyName d)) = (l.map fun pom =>
        (pom.activeProperties p.request.selection).get? (p.propertyName d)).findSome? id :=
    fun l => by rw [List.findSome?_map, Function.id_comp]
  rw [hid, hmap]
  refine findSome?_modify (by simpa using hlt) fun j hj => ?_
  have hnone := hfar hnearest j hj
  have hpomj := List.getElem?_eq_getElem (Nat.lt_trans hj hlt)
  rw [declared?, hpomj, Option.bind_some] at hnone
  rw [List.getElem?_map, hpomj, Option.map_some, hnone]

/-- The text of the version that the document at a place gives an artifact, in its first entry. -/
def writtenVersion? (p : Project) (index : Nat) (c : Container) (key : ArtifactKey) :
    Option String :=
  p.poms[index]?.bind fun pom =>
    ((pom.entries c).find? (·.key? = some key)).bind (·.version)

/-- The text that stands for the version afterwards is the one in its place. -/
theorem writtenVersion?_of_brings (h : p.Brings d v q)
    (hname : p.request.useProperties = true → p.Declarable (p.propertyName d)) :
    q.writtenVersion? (p.site d).index (p.site d).container d.key = some (p.finalText d v) := by
  obtain ⟨hpoms, -⟩ := h.poms_eq hname
  have hlisting := congrArg (·[(p.site d).index]?)
    (listing_planned (d := d) (v := v) h.pristine (fun huse => (hname huse).distinct)
      p.request.selection)
  obtain ⟨pom, hpom⟩ : ∃ pom, p.poms[(p.site d).index]? = some pom :=
    ⟨_, List.getElem?_eq_getElem (p.site_index_lt d)⟩
  simp only [List.getElem?_map, List.getElem?_modify, if_true, hpom] at hlisting
  obtain ⟨pom', hpom', heq⟩ := Option.map_eq_some_iff.mp hlisting
  have hentries : pom'.entries (p.site d).container =
      bringEntry d (p.finalText d v) (pom.entries (p.site d).container) :=
    (Prod.mk.inj heq).1.trans (Pom.entries_withEntries ..)
  rw [writtenVersion?, hpoms, hpom', Option.bind_some, hentries, find?_bringEntry,
    Option.bind_some]
  exact (key?_broughtEntry ..).2

/-- A version that is written through a property has a reference to it in its place, and is what the
property stands for afterwards. -/
theorem get?_properties_of_brings (h : p.Brings d v q) (hprops : p.request.useProperties = true)
    (hskip : p.request.skipIfNewer = false) (hname : p.Declarable (p.propertyName d))
    (hnearest : p.DeclaresNearest d) :
    q.writtenVersion? (p.site d).index (p.site d).container d.key =
        some (reference (p.propertyName d)) ∧
      q.properties.get? (p.propertyName d) = some v := by
  have hleaves := leaves_eq_false hskip (p.site d).index (p.site d).container d v
  have htext : p.finalText d v = reference (p.propertyName d) := by
    rw [finalText, if_neg (by simp [hleaves]), versionText, if_pos hprops, propertyName]
  have hfind := findSome?_of_brings h hprops hleaves hname hnearest
  have hget := get?_properties (p := q) (p.isBuiltin_propertyName d)
    (by simpa [lineage_eq] using h.distinctNames.2)
  refine ⟨htext ▸ writtenVersion?_of_brings h fun _ => hname, ?_⟩
  rwa [hget, lineage_eq, List.reverse_reverse, h.request]

section Inherited

open Spelling

/-- A request for `g:a` at a version, to be written into a property. -/
def propertyRequest (v : String) : Request :=
  { plainRequest v with useProperties := true, overrideExisting := true }

/-- A target that lists `g:a` at the version that a property gives. -/
def referringTarget : List Char :=
  element "project" [parent,
    element "dependencies" [entry "g" "a" [field "version" (reference "v")]]]

/-- A parent that declares this property. -/
def declaringParent (v : String) : List Char :=
  element "project" [named, element "properties" [field "v" v]]

/-- A project of such documents, and a request for version 2. -/
def inherited (v : String) : Project :=
  ofChars (propertyRequest "2") referringTarget [declaringParent v]

theorem get?_properties_inherited :
    (inherited "1").Brings (Dependency.ofKey ⟨"g", "a"⟩ (some "2")) "2" (inherited "2") ∧
      (inherited "1").propertyName (Dependency.ofKey ⟨"g", "a"⟩ (some "2")) = "v" ∧
      (inherited "2").properties.get? "v" = some "2" := by
  have henacts : (inherited "1").Enacts (inherited "2") := by decide +kernel
  have hbrings : (inherited "1").Brings (Dependency.ofKey ⟨"g", "a"⟩ (some "2")) "2"
      (inherited "2") := henacts.brings (by decide +kernel) (by decide +kernel)
    ⟨⟨"g:a:2", by decide +kernel⟩, rfl⟩ rfl rfl
  have hname : (inherited "1").propertyName (Dependency.ofKey ⟨"g", "a"⟩ (some "2")) = "v" := by
    decide +kernel
  have hdeclarable : (inherited "1").Declarable "v" :=
    ⟨by decide +kernel, by decide +kernel, by decide +kernel, by decide +kernel⟩
  refine ⟨hbrings, hname, ?_⟩
  rw [← hname] at hdeclarable ⊢
  exact (get?_properties_of_brings hbrings rfl rfl hdeclarable (by decide +kernel)).2

/-- A target that lists `g:a` without a version, and declares a property. -/
def declaringTarget : List Char :=
  element "project" [parent, element "properties" [field "v" "2"],
    element "dependencies" [entry "g" "a" []]]

/-- A parent that manages `g:a` at the version that this property gives, and declares it as well. -/
def managingParent (v : String) : List Char :=
  element "project" [named, element "properties" [field "v" v],
    element "dependencyManagement" [element "dependencies"
      [entry "g" "a" [field "version" (reference "v")]]]]

/-- A project of such documents, and a request for version 3. -/
def shadowed (v : String) : Project :=
  ofChars (propertyRequest "3") declaringTarget [managingParent v]

/-- A property is written in the document that refers to it, where a nearer one declares it. -/
theorem get?_properties_shadowed :
    (shadowed "1").Brings (Dependency.ofKey ⟨"g", "a"⟩ (some "3")) "3" (shadowed "3") ∧
      (shadowed "1").request.useProperties = true ∧ (shadowed "1").request.skipIfNewer = false ∧
      Pom.opensReference "3" = false ∧
      (shadowed "3").writtenVersion? 1 .managed ⟨"g", "a"⟩ = some (reference "v") ∧
      (shadowed "3").properties.get? "v" = some "2" := by
  have henacts : (shadowed "1").Enacts (shadowed "3") := by decide +kernel
  have hbrings := henacts.brings (by decide +kernel) (by decide +kernel)
    ⟨⟨"g:a:3", by decide +kernel⟩, rfl⟩ rfl rfl
  exact ⟨hbrings, rfl, rfl, by decide +kernel, by decide +kernel, by decide +kernel⟩

end Inherited

end Project

end MavenPom
