import MavenPom.Proofs.Project.Planned

/-!
# Where properties are declared

Looking for the block to write a property in finds the one that provides it: in the document that
refers to it, or else in the nearest other one.
-/

namespace MavenPom

open VersionSlot EffectiveModel

namespace VersionSlot

theorem isBuiltin_propertyFor (artifactId : String) :
    isBuiltin (propertyFor artifactId) = false := by
  have hlist : (propertyFor artifactId).toList =
      'v' :: ("ersions.".toList ++ artifactId.toList) := by
    rw [propertyFor, String.toList_append]
    rfl
  have hfront : ∀ start ∈ ["project.", "pom.", "env.", "settings.", "java.", "os.", "user."],
      start.isPrefixOf (propertyFor artifactId) = false := by
    intro start hstart
    rw [String.isPrefixOf, String.startsWith_string_eq_false_iff, hlist]
    simp only [List.mem_cons, List.not_mem_nil, or_false] at hstart
    rcases hstart with rfl | rfl | rfl | rfl | rfl | rfl | rfl <;> simp
  have hnot : ["basedir", "version", "groupId", "artifactId"].contains (propertyFor artifactId) =
      false := by
    refine Bool.eq_false_iff.mpr fun hcontains => ?_
    have htake : (propertyFor artifactId).toList.take 9 = "versions.".toList := by
      rw [propertyFor, String.toList_append]
      rfl
    have hmem := List.contains_iff_mem.mp hcontains
    simp only [List.mem_cons, List.not_mem_nil, or_false] at hmem
    rcases hmem with heq | heq | heq | heq <;> rw [heq] at htake <;> revert htake <;> decide
  rw [isBuiltin, hnot, Bool.false_or, List.any_eq_false]
  exact fun start hstart => Bool.eq_false_iff.mp (hfront start hstart)

theorem isBuiltin_propertyToWrite (current artifactId : String) :
    isBuiltin (propertyToWrite current artifactId) = false := by
  rw [propertyToWrite]
  cases hfilter : (referenced? current).filter (!isBuiltin ·) with
  | none => exact isBuiltin_propertyFor artifactId
  | some name => simpa using (Option.filter_eq_some_iff.mp hfilter).2

theorem referenced?_reference (name : String) : referenced? (reference name) =
    if name.toList.isEmpty || name.toList.any isMark then none else some name := by
  have hstrip : Text.strip? "$\x7b".toList (reference name).toList =
      some (name.toList ++ ['\x7d']) := by
    rw [toList_reference]
    rfl
  rw [referenced?, hstrip, Option.bind_some, List.getLast?_append_of_ne_nil _ (by simp)]
  simp only [List.getLast?_singleton, List.dropLast_concat, String.ofList_toList]

theorem not_isMark_of_referenced? {text name : String} (h : referenced? text = some name) :
    (name.toList.isEmpty || name.toList.any isMark) = false := by
  obtain ⟨rest, -, h⟩ := Option.bind_eq_some_iff.mp h
  split at h
  · dsimp only at h
    split at h
    · cases h
    · next hmarks =>
      cases h
      rwa [String.toList_ofList, ← Bool.not_eq_true]
  · cases h

/-- Where a reference to the property for a version stands, the version is written into it again. -/
theorem propertyToWrite_reference (current artifactId : String) :
    propertyToWrite (reference (propertyToWrite current artifactId)) artifactId =
      propertyToWrite current artifactId := by
  have hbuiltin := isBuiltin_propertyToWrite current artifactId
  rw [propertyToWrite, referenced?_reference]
  split
  · next hmarks =>
    -- A name with marks in it is no name that a text refers to.
    rw [Option.filter_none, Option.getD_none]
    rw [propertyToWrite] at hmarks ⊢
    cases hfilter : (referenced? current).filter (!isBuiltin ·) with
    | none => rfl
    | some name =>
      rw [hfilter, Option.getD_some] at hmarks
      have hname := not_isMark_of_referenced? (Option.filter_eq_some_iff.mp hfilter).1
      exact Bool.noConfusion (hname.symm.trans hmarks)
  · rw [Option.filter_some, if_pos (by simp [hbuiltin]), Option.getD_some]

end VersionSlot

namespace Project

variable {p q : Project} {d : Dependency} {v name : String} {index owner : Nat}

/-- The value that the document at a place declares for a property, with its profiles in force. -/
def declared? (p : Project) (name : String) (index : Nat) : Option String :=
  p.poms[index]?.bind fun pom => (pom.activeProperties p.request.selection).get? name

theorem Brings.distinctNames (h : p.Brings d v q) :
    (∀ pom ∈ p.poms, pom.DistinctNames) ∧ ∀ pom ∈ q.poms, pom.DistinctNames := by
  constructor
  · intro pom hpom
    obtain ⟨doc, hdoc, rfl⟩ := List.mem_map.mp hpom
    obtain ⟨bytes, source, hread⟩ := (h.fresh doc hdoc).read
    exact Document.distinctNames_of_ofBytes hread
  · intro pom hpom
    obtain ⟨handled, p', -, hreloaded⟩ := h.run
    obtain ⟨doc, hdoc, rfl⟩ := List.mem_map.mp hpom
    refine forall_mem_of_forall₂ (P := fun _ => True) (Q := fun r => r.pom.DistinctNames)
      hreloaded (fun d r hr _ => ?_) (fun _ _ => trivial) doc hdoc
    obtain ⟨bytes, -, hread⟩ := hr.read
    exact Document.distinctNames_of_ofBytes hread

/-- What is found in a document is what the document provides. -/
theorem declarationIn?_eq (hp : p.Pristine) (hnames : ∀ pom ∈ p.poms, pom.DistinctNames)
    (hname : p.Declarable name) (index : Nat) :
    declarationIn? p name index = p.poms[index]?.bind fun pom =>
      ((pom.activeProperties p.request.selection).get? name).map
        (⟨index, scopeOf p.request.selection pom name, ·⟩) := by
  rw [declarationIn?, poms, List.getElem?_map, Option.bind_map]
  rw [show p.documents[index]? = p.document? index from rfl]
  refine Option.bind_congr fun doc hdoc => ?_
  have hmem := mem_documents_of_document? hdoc
  have hpom : doc.pom ∈ p.poms := List.mem_map_of_mem hmem
  obtain ⟨e, he, hsound, -, hshown⟩ := (hp doc hmem).editor?
  have honce : e.DeclaresOnce name := hname.once doc hmem _ (Document.shownRoot?_of_editor? he)
  have hscope := scopeOf_named hname hmem p.request.selection
  simp only [he, Option.bind_some, Function.comp_apply]
  rw [Editor.property?_eq honce hscope, hshown, Pom.property?_scopeOf (hnames _ hpom)
    (hname.distinct _ hpom)]

theorem declarationIn?_eq_none (hp : p.Pristine) (hnames : ∀ pom ∈ p.poms, pom.DistinctNames)
    (hname : p.Declarable name) (index : Nat) :
    declarationIn? p name index = none ↔ p.declared? name index = none := by
  rw [declarationIn?_eq hp hnames hname, declared?]
  cases p.poms[index]? <;> simp

/-- The block that a property is written in is the one that provides it, or would. No nearer
    document declares it, unless one does that is nearer than the one that refers to it. -/
theorem propertySite_spec (hp : p.Pristine) (hnames : ∀ pom ∈ p.poms, pom.DistinctNames)
    (hname : p.Declarable name) (howner : owner < p.poms.length) :
    ∃ pom, p.poms[(p.propertySite owner name).1]? = some pom ∧
      (p.propertySite owner name).2 = scopeOf p.request.selection pom name ∧
      ((p.declared? name owner ≠ none → ∀ j < owner, p.declared? name j = none) →
        ∀ j < (p.propertySite owner name).1, p.declared? name j = none) := by
  have hlength : p.documents.length = p.poms.length := by simp [poms]
  have hnone : ∀ j, declarationIn? p name j = none → p.declared? name j = none := fun j =>
    (declarationIn?_eq_none hp hnames hname j).mp
  have hin : ∀ j found, declarationIn? p name j = some found → ∃ pom, p.poms[j]? = some pom ∧
      found.index = j ∧ found.scope = scopeOf p.request.selection pom name := by
    intro j found hfound
    rw [declarationIn?_eq hp hnames hname] at hfound
    obtain ⟨pom, hpom, hfound⟩ := Option.bind_eq_some_iff.mp hfound
    obtain ⟨value, -, rfl⟩ := Option.map_eq_some_iff.mp hfound
    exact ⟨pom, hpom, rfl, rfl⟩
  unfold propertySite declaration?
  rw [List.findSome?_cons]
  cases hown : declarationIn? p name owner with
  | some found =>
    obtain ⟨pom, hpom, hindex, hscope⟩ := hin owner found hown
    have hdeclared : p.declared? name owner ≠ none := fun hnot => by
      rw [(declarationIn?_eq_none hp hnames hname owner).mpr hnot] at hown
      cases hown
    rw [Option.map_some, Option.getD_some, hindex, hscope]
    exact ⟨pom, hpom, rfl, fun hnearest => hnearest hdeclared⟩
  | none =>
    simp only
    cases hother : ((List.range p.documents.length).filter (· ≠ owner)).findSome?
        (declarationIn? p name) with
    | none =>
      have hpom := List.getElem?_eq_getElem howner
      have hall : ∀ j < p.poms.length, p.declared? name j = none := by
        intro j hj
        by_cases heq : j = owner
        · exact hnone j (heq ▸ hown)
        · refine hnone j (List.findSome?_eq_none_iff.mp hother j ?_)
          simpa [hlength, heq] using hj
      refine ⟨p.poms[owner], hpom, ?_, fun _ j hj => hall j (Nat.lt_trans hj howner)⟩
      have hdeclared := hall owner howner
      rw [declared?, hpom, Option.bind_some] at hdeclared
      exact (Pom.scopeOf_eq_project (hnames _ (List.getElem_mem howner)) hdeclared).symm
    | some found =>
      obtain ⟨front, j, back, hsplit, hfound, hfront⟩ := List.findSome?_eq_some_iff.mp hother
      obtain ⟨pom, hpom, hindex, hscope⟩ := hin j found hfound
      rw [Option.map_some, Option.getD_some, hindex, hscope]
      refine ⟨pom, hpom, rfl, fun _ i hi => ?_⟩
      by_cases heq : i = owner
      · exact hnone i (heq ▸ hown)
      · have hsorted : (front ++ j :: back).Pairwise (· < ·) :=
          hsplit ▸ List.pairwise_lt_range.filter _
        have hj : j < p.poms.length := (List.getElem?_eq_some_iff.mp hpom).1
        have hmem : i ∈ front ++ j :: back := by
          rw [← hsplit]
          simp [hlength, heq, Nat.lt_trans hi hj]
        rcases List.mem_append.mp hmem with hmem | hmem
        · exact hnone i (hfront i hmem)
        · rcases List.mem_cons.mp hmem with rfl | hmem
          · exact absurd hi (Nat.lt_irrefl _)
          · have hlt := (List.pairwise_cons.mp (List.pairwise_append.mp hsorted).2.1).1 i hmem
            exact absurd hi (Nat.lt_asymm hlt)

/-- A property that is declared has its value where it is written. -/
theorem declared?_of_declaration? (hp : p.Pristine)
    (hnames : ∀ pom ∈ p.poms, pom.DistinctNames) (hname : p.Declarable name)
    {found : Declaration} (h : declaration? p owner name = some found) :
    p.declared? name (p.propertySite owner name).1 = some found.value := by
  obtain ⟨j, -, hfound⟩ := List.exists_of_findSome?_eq_some h
  rw [propertySite, h, Option.map_some, Option.getD_some]
  rw [declarationIn?_eq hp hnames hname] at hfound
  obtain ⟨pom, hpom, hfound⟩ := Option.bind_eq_some_iff.mp hfound
  obtain ⟨value, hvalue, rfl⟩ := Option.map_eq_some_iff.mp hfound
  rw [declared?, hpom, Option.bind_some, hvalue]

end Project

end MavenPom
