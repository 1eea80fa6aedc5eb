import MavenPom.Proofs.Project.View
import MavenPom.Proofs.PropertyUpgrade
import MavenPom.Proofs.Refusal

/-!
# Requests that are met

Where the documents give a dependency its version already, in the place and in the way that a
request would write it, carrying out the request leaves every document as it was read. So it does
when it is made again for what is read of its results.
-/

namespace MavenPom

open MavenPom.Action VersionSlot

namespace Project

variable {p p' : Project} {d : Dependency}

/-! ## Edits that change nothing -/

/-- The value that a property has in the block that it is written in. -/
def propertyValue? (p : Project) (owner : Nat) (name : String) : Option String :=
  Insertion.lookup? p (p.propertySite owner name).1 (·.property? (p.propertySite owner name).2 name)

theorem propertyValue?_of_declaration? {owner : Nat} {name : String} {found : Declaration}
    (h : declaration? p owner name = some found) :
    p.propertyValue? owner name = some found.value := by
  obtain ⟨index, -, hin⟩ := List.exists_of_findSome?_eq_some h
  obtain ⟨doc, e, hdoc, he, rfl, -, hvalue⟩ := declarationIn?_eq_some hin
  rw [propertyValue?, propertySite, h, Option.map_some, Option.getD_some, lookup?_eq hdoc he,
    hvalue]

theorem withProperty_self {owner : Nat} {name value : String}
    (h : p.propertyValue? owner name = some value) : p.withProperty owner name value = p := by
  refine edit_self fun doc e hdoc he => Editor.setProperty_self ?_
  rwa [propertyValue?, lookup?_eq hdoc he] at h

/-- What a request for a dependency would write stands where it would write it. -/
structure Meets (p : Project) (d : Dependency) : Prop where
  listed : d.version = none → (Insertion.lookup? p (p.site d).index
    (·.findDependency? (p.site d).container.path d.key)).isSome = true
  version : ∀ v ∈ d.version, p.leaves (p.site d).index (p.site d).container d v = false →
    Insertion.lookup? p (p.site d).index (·.version? (p.site d).container d.key) =
      some (p.versionText (p.site d).index (p.site d).container d v)
  property : ∀ v ∈ d.version, p.leaves (p.site d).index (p.site d).container d v = false →
    p.request.useProperties = true → p.propertyValue? (p.site d).index
      (p.versionProperty (p.site d).index (p.site d).container d) = some v
  refers : (p.site d).refers = true →
    (Insertion.lookup? p 0 (·.findDependency? Container.dependencies.path d.key)).isSome = true

namespace Meets

variable (h : p.Meets d)

include h

/-- The version and the property for it stand as they would be written. -/
theorem withVersion_eq {v : String} (hv : d.version = some v) :
    p.withVersion (p.site d).index (p.site d).container d v = p := by
  unfold withVersion
  split
  · rfl
  · next hleaves =>
    rw [Bool.not_eq_true] at hleaves
    have hprepared : p.prepared (p.site d).index (p.site d).container d v = p := by
      unfold prepared
      split
      · next hprops => exact withProperty_self (h.property v hv hleaves hprops)
      · rfl
    rw [hprepared]
    refine edit_self fun doc e hdoc he => ?_
    have hversion := h.version v hv hleaves
    rw [lookup?_eq hdoc he] at hversion
    rw [place_eq_bring hdoc he rfl rfl, Editor.bring_self hversion]

theorem brought_eq : p.brought d = p := by
  have hentry : p.withEntry (p.site d).index (p.site d).container d = p := by
    unfold withEntry
    cases hv : d.version with
    | some v => exact h.withVersion_eq hv
    | none =>
      refine edit_self fun doc e hdoc he => ?_
      have hlisted := h.listed hv
      rw [lookup?_eq hdoc he] at hlisted
      exact if_pos hlisted
  unfold brought
  rw [hentry]
  dsimp only
  split
  · next hrefers =>
    refine edit_self fun doc e hdoc he => ?_
    have hlisted := h.refers hrefers
    rw [lookup?_eq hdoc he] at hlisted
    exact if_pos hlisted
  · rfl

/-- The guard of shared properties lets a property keep its value. -/
theorem mayBring : p.MayBring (p.site d).index (p.site d).container d := by
  intro v hv hleaves hprops found hfound
  have hvalue := h.property v hv hleaves hprops
  rw [propertyValue?_of_declaration? hfound] at hvalue
  exact .inl (Option.some.inj hvalue)

end Meets

theorem SameEdits.meets (h : p.SameEdits p') (hmeets : p.Meets d) : p'.Meets d where
  listed hv := by
    rw [h.site_eq, h.lookup?_eq fun _ _ _ => rfl]
    exact hmeets.listed hv
  version v hv hleaves := by
    rw [h.site_eq, h.leaves_eq] at hleaves
    rw [h.site_eq, h.lookup?_eq fun _ _ _ => rfl, hmeets.version v hv hleaves]
    simp only [versionText, h.request, h.versionProperty_eq]
  property v hv hleaves hprops := by
    rw [h.site_eq, h.leaves_eq] at hleaves
    rw [h.site_eq, h.versionProperty_eq, propertyValue?, h.propertySite_eq,
      h.lookup?_eq fun _ _ _ => rfl]
    exact hmeets.property v hv hleaves (h.request ▸ hprops)
  refers hrefers := by
    rw [h.lookup?_eq fun _ _ _ => rfl]
    exact hmeets.refers (h.site_eq d ▸ hrefers)

/-- A request that is met is dealt with, and every document results in the bytes that it was read
from. -/
theorem settled_of_meets
    (hread : ∀ doc ∈ p.documents, ∃ bytes source, Document.ofBytes bytes source = .ok doc)
    (hfault : Guard.hierarchyFault? p = none) (hd : p.request.dependency = some d)
    (h : p.Meets d) :
    ∃ p', Runs Project.modify p true p' ∧ List.Forall₂ (fun doc doc' =>
      doc'.dirty = false ∧ doc'.result = some doc.bytes) p.documents p'.documents := by
  have hp : p.Tended := fun doc hdoc =>
    let ⟨_, _, hbytes⟩ := hread doc hdoc
    Document.tended_of_ofBytes hbytes
  obtain ⟨p₁, p', hsame, hmodify, hafter⟩ := exists_modify_brought hp hd hfault h.mayBring
  rw [(hsame.meets h).brought_eq] at hafter
  obtain ⟨p₂, hreading, hbackward⟩ := exists_backward_of_modify hmodify
  obtain ⟨hlength, hsettled⟩ := List.forall₂_iff_zip.mp (hreading.settled hbackward)
  refine ⟨p', hmodify, List.forall₂_iff_zip.mpr ⟨hlength, fun {doc doc'} hmem => ?_⟩⟩
  obtain ⟨hreading, hsettled⟩ := hsettled hmem
  obtain ⟨bytes, source, hbytes⟩ := hread doc (List.of_mem_zip hmem).1
  obtain ⟨-, -, hedited, hwf, -⟩ := Document.facts_of_ofBytes hbytes
  exact hsettled.result_eq hreading hwf
    (((List.forall₂_iff_zip.mp (hsame.trans hafter).documents).2 hmem).edited.trans hedited)

/-! ## Requests that have been carried out -/

section Again

variable {r : Project} {index : Nat} {c : Container} (h : p.Entered r index c d)
  (halike : p.ReadsAlike) (halike' : r.ReadsAlike) (hrequest : r.request = p.request)

include h halike halike'

theorem Entered.length_eq : r.documents.length = p.documents.length := by
  simpa [poms] using congrArg List.length (h.preserves.header_eq halike halike')

include hrequest

/-- A document without the property that has been written declares what it did. -/
theorem Entered.declarationIn?_eq {name : String} (hname : name ∈ p.writtenProperty? index c d)
    {k : Nat} (hk : k ≠ (p.propertySite index name).1) :
    declarationIn? r name k = declarationIn? p name k := by
  have hsome := h.preserves.isSome k
  cases hn : p.shownAt? k with
  | none =>
    rw [hn, Option.isSome_none, Option.isSome_eq_false_iff, Option.isNone_iff_eq_none] at hsome
    rw [declarationIn?_of_shownAt?_eq_none hsome, declarationIn?_of_shownAt?_eq_none hn]
  | some n =>
    rw [hn] at hsome
    obtain ⟨n', hn'⟩ := Option.isSome_iff_exists.mp hsome
    have hscope := h.preserves.scope k p.request.selection name
    have hproperty := h.undeclared name hname k (scopeOf p.request.selection (Pom.ofNode n) name)
      (.inl hk)
    simp only [view?, hn, hn', Option.bind_some, Option.some.injEq] at hscope hproperty
    rw [declarationIn?_eq_of_shownAt? halike hn, declarationIn?_eq_of_shownAt? halike' hn',
      hrequest, hscope, hproperty]

/-- The document that the property has been written in declares it now, with the profiles in force,
    or no document does. -/
theorem Entered.declarationIn?_site {v name : String} (hv : v ∈ d.version)
    (hname : name ∈ p.writtenProperty? index c d) :
    let site := p.propertySite index name
    declarationIn? r name site.1 = some ⟨site.1, site.2, v⟩ ∨
      declaration? p index name = none ∧ site.1 = index ∧ declarationIn? r name site.1 = none := by
  dsimp only
  have hvalue := h.property v hv name hname
  obtain ⟨n', hn', hvalue⟩ := Option.bind_eq_some_iff.mp hvalue
  have hsome := h.preserves.isSome (p.propertySite index name).1
  rw [hn'] at hsome
  obtain ⟨n, hn⟩ := Option.isSome_iff_exists.mp hsome.symm
  have hscope := h.preserves.scope (p.propertySite index name).1 p.request.selection name
  simp only [view?, hn, hn', Option.bind_some, Option.some.injEq] at hscope
  have hbefore := declarationIn?_eq_of_shownAt? halike hn name
  have hafter := declarationIn?_eq_of_shownAt? halike' hn' name
  rw [hrequest, hscope] at hafter
  by_cases heq : scopeOf p.request.selection (Pom.ofNode n) name = (p.propertySite index name).2
  · rw [heq, hvalue] at hafter
    exact .inl hafter
  · -- The property has been written in the project's block, and a profile is in force that is
    -- not read.
    rcases p.propertySite_cases index name with ⟨hnone, hsite⟩ |
      ⟨found, doc, e, hfound, hsite, hdoc, he, hproperty⟩
    · refine .inr ⟨hnone, by rw [hsite], ?_⟩
      have hfirst : (scopeOf p.request.selection (Pom.ofNode n) name).first ≠
          (p.propertySite index name).2.first := by
        rw [hsite] at heq ⊢
        cases hcase : scopeOf p.request.selection (Pom.ofNode n) name with
        | project => exact absurd hcase heq
        | profile id => simp [PropertyScope.first]
      have hproperty := h.undeclared name hname (p.propertySite index name).1
        (scopeOf p.request.selection (Pom.ofNode n) name) (.inr hfirst)
      simp only [view?, hn, hn', Option.bind_some] at hproperty
      rw [hafter, hproperty, ← hbefore]
      have hin := List.findSome?_eq_none_iff.mp hnone (p.propertySite index name).1
      rw [hsite] at hin ⊢
      exact hin (List.mem_cons_self ..)
    · obtain ⟨k, -, hin⟩ := List.exists_of_findSome?_eq_some hfound
      obtain ⟨doc', e', hdoc', -, rfl, hscope', -⟩ := declarationIn?_eq_some hin
      obtain ⟨n₁, hn₁, hpom⟩ := shownAt?_of_document? halike hdoc'
      rw [hsite] at heq hn
      exact absurd (by rw [hscope', ← hpom, Option.some.inj (hn.symm.trans hn₁)]) heq

/-- The property that has been written is to be written in the same block. -/
theorem Entered.propertySite_eq {v name : String} (hv : v ∈ d.version)
    (hname : name ∈ p.writtenProperty? index c d) :
    r.propertySite index name = p.propertySite index name := by
  have hlength := h.length_eq halike halike'
  have hothers := fun k (hk : k ≠ (p.propertySite index name).1) =>
    h.declarationIn?_eq halike halike' hrequest hname hk
  have hsite := h.declarationIn?_site halike halike' hrequest hv hname
  dsimp only at hsite
  have hrest : r.propertySite index name = ((declaration? r index name).map fun found =>
    (found.index, found.scope)).getD (index, .project) := rfl
  rw [hrest, declaration?, hlength]
  cases hfound : declaration? p index name with
  | none =>
    have hproject : p.propertySite index name = (index, .project) := by
      rw [propertySite, hfound]
      rfl
    have hall := List.findSome?_eq_none_iff.mp hfound
    rw [hproject] at hothers hsite ⊢
    dsimp only at hothers hsite
    rcases hsite with hsite | ⟨-, -, hsite⟩
    · rw [List.findSome?_cons, hsite]
      rfl
    · rw [List.findSome?_eq_none_iff.mpr fun k hk => ?_]
      · rfl
      · by_cases hk' : k = index
        · rw [hk', hsite]
        · rw [hothers k hk', hall k hk]
  | some found =>
    obtain ⟨front, k, back, hsplit, hin, hfront⟩ := List.findSome?_eq_some_iff.mp hfound
    have hproject : p.propertySite index name = (found.index, found.scope) := by
      rw [propertySite, hfound]; rfl
    obtain ⟨-, -, -, -, rfl, -, -⟩ := declarationIn?_eq_some hin
    rw [hproject] at hothers hsite ⊢
    dsimp only at hothers hsite
    rcases hsite with hsite | ⟨hnone, -⟩
    swap
    · cases hfound.symm.trans hnone
    rw [hsplit, List.findSome?_append, List.findSome?_eq_none_iff.mpr fun x hx => ?_,
      Option.none_or, List.findSome?_cons, hsite]
    · rfl
    · rw [hothers x fun hx' => ?_, hfront x hx]
      rw [hx'] at hx
      cases hin.symm.trans (hfront _ hx)

end Again

section Again

variable {r : Project} {index : Nat} {c : Container} (h : p.Entered r index c d)

include h

/-- The version that has been written is read again through the same property. -/
theorem Entered.versionProperty_eq {v : String} (hv : v ∈ d.version)
    (hleaves : p.leaves index c d v = false) (hprops : p.request.useProperties = true) :
    r.versionProperty index c d = p.versionProperty index c d := by
  have hversion := h.version v hv hleaves
  have htext : p.versionText index c d v = reference (p.versionProperty index c d) := by
    rw [versionText, if_pos hprops]
  rw [versionProperty, slotText?_eq_view?]
  cases hsole : r.view? index (·.soleVersion? c d.key) with
  | none =>
    have hnone : p.view? index (·.soleVersion? c d.key) = none := by
      by_contra hne
      have hsome := h.sole (Option.isSome_iff_ne_none.mpr hne)
      rw [hsole] at hsome
      cases hsome
    rw [versionProperty, slotText?_eq_view?, hnone]
  | some text =>
    obtain ⟨n, hn, hsole⟩ := Option.bind_eq_some_iff.mp hsole
    have hfirst : r.view? index (·.version? c d.key) = some text := by
      rw [view?, hn]
      exact Markup.Strict.Node.version?_of_soleVersion? hsole
    obtain rfl := Option.some.inj (hfirst.symm.trans hversion)
    rw [Option.getD_some, htext, versionProperty, propertyToWrite_reference]

variable (halike : p.ReadsAlike) (halike' : r.ReadsAlike) (hrequest : r.request = p.request)

include halike halike' hrequest

/-- A version that was left is left again. -/
theorem Entered.leaves_eq {v : String} (hv : v ∈ d.version)
    (hleaves : p.leaves index c d v = true) :
    r.leaves index c d v = true := by
  obtain ⟨hsole, hactive⟩ := h.left v hv hleaves
  have hdeclared : r.poms.map (·.activeProperties p.request.selection) =
      p.poms.map (·.activeProperties p.request.selection) := by
    refine List.ext_getElem? fun k => ?_
    rw [← view?_ofNode halike, ← view?_ofNode halike']
    exact hactive k p.request.selection
  have htarget : r.target.pom.header = p.target.pom.header := by
    simpa [poms, documents] using congrArg List.head? (h.preserves.header_eq halike halike')
  have hgroup := Pom.eq_of_header_eq htarget Pom.effectiveGroupId? fun _ => rfl
  have hartifact := Pom.eq_of_header_eq htarget Pom.artifactId fun _ => rfl
  have hversion := Pom.eq_of_header_eq htarget Pom.effectiveVersion? fun _ => rfl
  have hfold : ∀ q : Project, q.lineage.foldl
      (fun props pom => props.extend (pom.activeProperties p.request.selection)) Table.empty =
      ((q.poms.map (·.activeProperties p.request.selection)).reverse).foldl
        (fun props more => props.extend more) Table.empty := by
    intro q
    rw [lineage_eq, ← List.map_reverse, List.foldl_map]
  have hproperties : r.properties = p.properties := by
    rw [Project.properties, Project.properties, hrequest, hfold, hfold, hdeclared, hgroup,
      hartifact, hversion]
  rw [leaves, slotText?_eq_view?] at hleaves ⊢
  rw [hsole, ← hleaves]
  congr 1
  funext text
  rw [keeps, keeps, hrequest, hproperties]

end Again

section Again

variable {r : Project} (h : p.Entered r (p.site d).index (p.site d).container d)
  (halike : p.ReadsAlike) (halike' : r.ReadsAlike) (hrequest : r.request = p.request)

include h halike halike' hrequest

/-- The version is to be written where it has been written. -/
theorem Entered.site_eq : (r.site d).index = (p.site d).index ∧
    (r.site d).container = (p.site d).container ∧
      ((r.site d).refers = true → (p.site d).refers = true) := by
  have hslot : ∀ (q : Project) c, (q.slotText? 0 c d.key).isSome =
      (q.view? 0 (·.soleVersion? c d.key)).isSome := fun q c => by rw [slotText?_eq_view?]
  have hmanaged : r.managedIndex? = p.managedIndex? := by
    have hlength : r.ancestors.length = p.ancestors.length := by
      simpa [documents] using h.length_eq halike halike'
    have hempty : r.ancestors.isEmpty = p.ancestors.isEmpty := by
      rw [Bool.eq_iff_iff, List.isEmpty_iff_length_eq_zero, List.isEmpty_iff_length_eq_zero,
        hlength]
    rw [managedIndex?, managedIndex?, hempty, hlength, hrequest]
  have hdependencies := fun hne => congrArg Option.isSome (h.elsewhere 0 .dependencies hne)
  have hmanaged' := fun hne => congrArg Option.isSome (h.elsewhere 0 .managed hne)
  have hsole := h.sole
  revert hdependencies hmanaged' hsole
  unfold site
  simp only [hslot, hmanaged, hrequest]
  cases hpd : (p.view? 0 (·.soleVersion? .dependencies d.key)).isSome with
  | true =>
    intro _ _ hsole
    simp only [if_true] at hsole ⊢
    simp [hsole hpd]
  | false =>
    simp only [Bool.false_eq_true, if_false]
    cases hpm : (p.view? 0 (·.soleVersion? .managed d.key)).isSome with
    | true =>
      intro hdependencies _ hsole
      simp only [if_true] at hdependencies hsole ⊢
      simp [hdependencies (by simp), hsole hpm]
    | false =>
      simp only [Bool.false_eq_true, if_false]
      cases hindex : p.managedIndex? with
      | some index =>
        intro hdependencies hmanaged _
        have hne : 0 ≠ index := Nat.ne_of_lt (managedIndex?_bounds hindex).1
        simp [hdependencies (.inl hne), hmanaged (.inl hne)]
      | none =>
        cases p.request.useProperties with
        | true =>
          intro hdependencies _ _
          simp only [if_true] at hdependencies ⊢
          rw [hdependencies (by simp)]
          simp only [Bool.false_eq_true, if_false]
          split <;> simp
        | false =>
          intro _ hmanaged _
          simp only [Bool.false_eq_true, if_false] at hmanaged ⊢
          rw [hmanaged (by simp)]
          simp only [Bool.false_eq_true, if_false]
          split <;> simp

/-- A request that has been carried out is met. -/
theorem Entered.meets (hrefers : (p.site d).refers = true →
    (r.view? 0 (·.entryFor? .dependencies d.key)).isSome = true) : r.Meets d := by
  obtain ⟨hindex, hcontainer, hsite⟩ := h.site_eq halike halike' hrequest
  have hleft : ∀ v ∈ d.version, r.leaves (p.site d).index (p.site d).container d v = false →
      p.leaves (p.site d).index (p.site d).container d v = false := by
    intro v hv hleaves
    by_contra hnot
    rw [Bool.not_eq_false] at hnot
    exact Bool.noConfusion ((h.leaves_eq halike halike' hrequest hv hnot).symm.trans hleaves)
  refine ⟨fun hv => ?_, fun v hv hleaves => ?_, fun v hv hleaves hprops => ?_, fun hrefers' => ?_⟩
  · rw [hindex, hcontainer, isSome_findDependency?]
    exact h.listed hv
  · rw [hindex, hcontainer] at hleaves ⊢
    have hleaves' := hleft v hv hleaves
    have htext : r.versionText (p.site d).index (p.site d).container d v =
        p.versionText (p.site d).index (p.site d).container d v := by
      unfold versionText
      rw [hrequest]
      split
      · next hprops => rw [h.versionProperty_eq hv hleaves' hprops]
      · rfl
    rw [htext, lookup?_eq_view? fun e => e.version?_shown _ _]
    exact h.version v hv hleaves'
  · rw [hindex, hcontainer] at hleaves ⊢
    rw [hrequest] at hprops
    have hleaves' := hleft v hv hleaves
    have hname : p.versionProperty (p.site d).index (p.site d).container d ∈
        p.writtenProperty? (p.site d).index (p.site d).container d := by
      simp [writtenProperty?, Option.mem_def.mp hv, hprops, hleaves']
    rw [h.versionProperty_eq hv hleaves' hprops, propertyValue?,
      h.propertySite_eq halike halike' hrequest hv hname,
      lookup?_eq_view? fun e => e.property?_shown _ _]
    exact h.property v hv _ hname
  · rw [isSome_findDependency?]
    exact hrefers (hsite hrefers')

end Again

/-! ## Ancestors that are accepted again -/

/-- The ancestors are packaged to be inherited from, and each POM names the next as its parent. -/
def Linked (poms : List Pom) : Prop :=
  (∀ pom ∈ poms.tail, pom.packaging = "pom") ∧ ∀ pair ∈ poms.zip poms.tail,
    (pair.1.parent.any fun declared => pair.2.effectiveGroupId? == some declared.groupId &&
      pair.2.artifactId == some declared.artifactId) = true

theorem hierarchyFault?_eq_none_iff : Guard.hierarchyFault? p = none ↔ Linked p.poms := by
  have htail : p.poms.tail = p.ancestors.map (·.pom) := rfl
  have hzip : p.poms.zip p.poms.tail =
      (p.documents.zip p.ancestors).map fun pair => (pair.1.pom, pair.2.pom) := by
    rw [htail, poms, List.zip_map]
    rfl
  unfold Guard.hierarchyFault? Linked
  rw [Option.or_eq_none_iff, List.findSome?_eq_none_iff, List.findSome?_eq_none_iff, hzip, htail,
    List.forall_mem_map, List.forall_mem_map]
  refine and_congr (forall₂_congr fun doc _ => ?_) (forall₂_congr fun pair _ => ?_)
  · unfold Guard.packagingFault?
    split <;> simp_all
  · dsimp only
    unfold Guard.linkFault? Guard.isLinked
    split <;> simp_all

theorem linked_map_header {poms : List Pom} : Linked (poms.map Pom.header) ↔ Linked poms := by
  unfold Linked
  rw [← List.map_tail, List.zip_map, List.forall_mem_map, List.forall_mem_map]
  rfl

theorem linked_of_modify {handled : Bool} (h : Runs Project.modify p handled p') :
    Linked p.poms := by
  rw [← hierarchyFault?_eq_none_iff]
  obtain ⟨ran, p₁, hforward, -⟩ := Chain.runs_run h
  have hpasses : ∀ {c : Command Project RequestError},
      c ∈ [Guard.dependencyPresent, Guard.parentPackaging] → ∀ {ran rest r q},
        Runs (Chain.forward ran (c :: rest)) p r q → Runs c.execute p .notApplicable p ∧
          Runs (Chain.forward (c :: ran) rest) p r q := by
    rintro c hc ran rest ⟨ran', handled⟩ q hruns
    rcases Chain.runs_forward_cons hruns with ⟨_, hexecute, -⟩ | ⟨_, hexecute, hrest⟩
    · cases (eq_of_guard hc hexecute).1
    · obtain ⟨-, rfl⟩ := eq_of_guard hc hexecute
      exact ⟨hexecute, hrest⟩
  obtain ⟨-, hforward⟩ := hpasses (by simp) hforward
  obtain ⟨hexecute, -⟩ := hpasses (by simp) hforward
  unfold Guard.parentPackaging at hexecute
  simp only [runs_get_bind] at hexecute
  cases hfault : Guard.hierarchyFault? p with
  | none => rfl
  | some fault =>
    rw [hfault] at hexecute
    exact absurd hexecute not_runs_throw

/-! ## The second run -/

theorem SameEdits.writtenProperty?_eq (h : p.SameEdits p') (index : Nat) (c : Container) :
    p'.writtenProperty? index c d = p.writtenProperty? index c d := by
  simp only [writtenProperty?, h.request, h.leaves_eq, h.versionProperty_eq]

/-- A request that has been carried out is dealt with again for what is read of its results, and
    every document results in the bytes that it was read from. Names of properties with a colon are
    excluded: they are written as names with a prefix, and looked up as names without one. -/
theorem settled_again {q : Project} {handled : Bool}
    (hread : ∀ doc ∈ p.documents, ∃ bytes source, Document.ofBytes bytes source = .ok doc)
    (halike : ∀ doc ∈ p.documents, doc.ReadAlike)
    (hcoordinate : ∃ text, Dependency.parse text = .ok d) (hd : p.request.dependency = some d)
    (hruns : Runs Project.modify p handled p')
    (hreloaded : List.Forall₂ Document.Reloaded p'.documents q.documents)
    (hrequest : q.request = p.request)
    (hname : ∀ name ∈ p.writtenProperty? (p.site d).index (p.site d).container d,
      ':' ∉ name.toList) :
    ∃ q', Runs Project.modify q true q' ∧ List.Forall₂ (fun doc doc' =>
      doc'.dirty = false ∧ doc'.result = some doc.bytes) q.documents q'.documents := by
  obtain ⟨text, hparse⟩ := hcoordinate
  have hproper := Dependency.proper_of_parse hparse
  obtain ⟨-, -, p₁, command, hrequest₁, hcaptured, hbackward⟩ := brought_of_modify hd hruns
  have hbefore : p.SameEdits p₁ :=
    ⟨hrequest₁, hcaptured.imp fun _ _ => Formatting.sameEdits_capture⟩
  have hafter : (p₁.brought d).SameEdits p' :=
    (sameEdits_noteHandled command _).trans (sameEdits_of_backward hbackward)
  have hwell : ∀ doc ∈ p₁.documents, doc.edited.WellFormed := by
    refine hbefore.forall_documents (P := fun doc => doc.edited.WellFormed)
      (fun doc doc' hsame hdoc => by rwa [hsame.edited]) fun doc hdoc => ?_
    obtain ⟨bytes, source, hbytes⟩ := hread doc hdoc
    obtain ⟨-, -, hedited, hwell, -⟩ := Document.facts_of_ofBytes hbytes
    rwa [hedited]
  have halike₁ : p₁.ReadsAlike := by
    refine hbefore.forall_documents (P := fun doc => doc.edited.shownPom? = some doc.pom)
      (fun doc doc' hsame hdoc => by rwa [hsame.edited, hsame.pom]) fun doc hdoc => ?_
    obtain ⟨bytes, source, hbytes⟩ := hread doc hdoc
    obtain ⟨-, -, hedited, -⟩ := Document.facts_of_ofBytes hbytes
    rw [hedited]
    exact halike doc hdoc
  have hread' : ∀ r ∈ q.documents, (∃ bytes source, Document.ofBytes bytes source = .ok r) ∧
      r.edited = r.tree ∧ r.ReadAlike := by
    refine forall_mem_of_forall₂ hreloaded (P := fun _ => True) (fun doc r hr _ => ?_) (by simp)
    obtain ⟨bytes, -, hbytes⟩ := hr.read
    obtain ⟨-, -, hedited, -⟩ := Document.facts_of_ofBytes hbytes
    exact ⟨⟨bytes, _, hbytes⟩, hedited, hr.readAlike⟩
  have halike' : q.ReadsAlike := fun r hr => by
    obtain ⟨-, hedited, hread⟩ := hread' r hr
    rw [hedited]
    exact hread
  have hshown : ∀ k, q.shownAt? k = (p₁.brought d).shownAt? k := fun k =>
    (shownAt?_of_forall₂ hreloaded (fun doc r hr hrel => by
      rw [(hread' r hr).2.1]
      exact (Markup.Tree.shownRoot?_of_sameContent hrel.sameContent).symm) k).trans
    (shownAt?_of_forall₂ hafter.documents (fun doc doc' _ hsame => by rw [hsame.edited]) k)
  obtain ⟨hentered, hrefers⟩ := entered_brought hwell halike₁ hproper (by
    rwa [hbefore.site_eq, hbefore.writtenProperty?_eq])
  have hentered := hentered.of_shownAt? hshown
  have hmeets : q.Meets d := by
    refine hentered.meets halike₁ halike' (hrequest.trans hrequest₁.symm) fun h => ?_
    rw [view?, hshown]
    exact hrefers h
  have hlinked : Linked q.poms := by
    rw [← linked_map_header, hentered.preserves.header_eq halike₁ halike', linked_map_header,
      hbefore.poms_eq]
    exact linked_of_modify hruns
  exact settled_of_meets (fun r hr => (hread' r hr).1) (hierarchyFault?_eq_none_iff.mpr hlinked)
    (hrequest ▸ hd) hmeets

/-- A version that has been written to a property of an ancestor stands there for
    the same request. -/
theorem settled_again_inherited :
    (∀ doc ∈ (inherited "1").documents,
      (∃ bytes source, Document.ofBytes bytes source = .ok doc) ∧ doc.ReadAlike) ∧
    (∃ text, Dependency.parse text = .ok (Dependency.ofKey ⟨"g", "a"⟩ (some "2"))) ∧
    (inherited "1").request.dependency = some (Dependency.ofKey ⟨"g", "a"⟩ (some "2")) ∧
    (∃ handled p', Runs Project.modify (inherited "1") handled p' ∧
      List.Forall₂ Document.Reloaded p'.documents (inherited "2").documents) ∧
    (inherited "2").request = (inherited "1").request ∧
    (let site := (inherited "1").site (Dependency.ofKey ⟨"g", "a"⟩ (some "2"))
     (inherited "1").writtenProperty? site.index site.container
      (Dependency.ofKey ⟨"g", "a"⟩ (some "2")) = some "v" ∧
      (inherited "1").propertySite site.index "v" = (1, .project)) ∧
    ∃ q', Runs Project.modify (inherited "2") true q' ∧ List.Forall₂ (fun doc doc' =>
      doc'.dirty = false ∧ doc'.result = some doc.bytes) (inherited "2").documents
      q'.documents := by
  have henacts : (inherited "1").Enacts (inherited "2") := by decide +kernel
  have hbrings : (inherited "1").Brings (Dependency.ofKey ⟨"g", "a"⟩ (some "2")) "2"
      (inherited "2") := henacts.brings (by decide +kernel) (by decide +kernel)
    ⟨⟨"g:a:2", by decide +kernel⟩, rfl⟩ rfl rfl
  have hwritten : let site := (inherited "1").site (Dependency.ofKey ⟨"g", "a"⟩ (some "2"))
      (inherited "1").writtenProperty? site.index site.container
        (Dependency.ofKey ⟨"g", "a"⟩ (some "2")) = some "v" ∧
      (inherited "1").propertySite site.index "v" = (1, .project) := by decide +kernel
  have hread : ∀ doc ∈ (inherited "1").documents,
      (∃ bytes source, Document.ofBytes bytes source = .ok doc) ∧ doc.ReadAlike :=
    fun doc hdoc => ⟨(hbrings.fresh doc hdoc).read, (hbrings.fresh doc hdoc).readAlike⟩
  have hcoordinate := hbrings.requested.1
  obtain ⟨handled, p', hruns, hreloaded⟩ := hbrings.run
  refine ⟨hread, hcoordinate, rfl, ⟨handled, p', hruns, hreloaded⟩, rfl, hwritten, ?_⟩
  refine settled_again (fun doc hdoc => (hread doc hdoc).1) (fun doc hdoc => (hread doc hdoc).2)
    hcoordinate rfl hruns hreloaded rfl fun name hname => ?_
  obtain rfl := Option.some.inj (hwritten.1.symm.trans hname)
  decide

section Prefixed

open Spelling

/-- A target that lists `g:a` at a version that a property with a prefixed name holds, with more
elements before that. -/
def prefixedTarget (more : List Char) : List Char :=
  "<project xmlns:p=\"u\">".toList ++ more ++
    element "dependencies" [entry "g" "a" [field "version" (reference "p:v")]] ++
    "</project>".toList

/-- A project of such a target, and a request for version 1. -/
def prefixed (more : List Char) : Project :=
  ofChars { plainRequest "1" with useProperties := true } (prefixedTarget more) []

/-- A block of properties that declares that property as often as is said. -/
def prefixedBlock (count : Nat) : List Char :=
  element "properties" [(List.replicate count ("\n    ".toList ++ field "p:v" "1")).flatten,
    "\n  ".toList] ++ "\n  ".toList

/-- What a request leaves of each document: its result, and whether it is marked. -/
def outcome? (p : Project) : Option (Bool × List (Option Bytes × Bool)) :=
  match StateT.run (ExceptT.run carryOut) (p.mapDocuments (·.captured)) with
  | (.ok handled, p') => some (handled, p'.documents.map fun doc => (doc.result, doc.dirty))
  | _ => none

theorem runs_of_outcome? {request : Request} {target : List Char} {handled : Bool}
    {outcomes : List (Option Bytes × Bool)} (hread : Document.Readable target)
    (hdependency : request.dependency ≠ none)
    (hfault : Guard.hierarchyFault? (ofChars request target []) = none)
    (hlayout : (Document.ofChars target).captured.layout ≠ none)
    (h : (ofChars request target []).outcome? = some (handled, outcomes)) :
    ∃ p', Runs Project.modify (ofChars request target []) handled p' ∧
      p'.documents.map (fun doc => (doc.result, doc.dirty)) = outcomes :=
  exists_of_seen? (by simpa using hread) hdependency hfault (by simpa using hlayout) h

/-- A request for a version that a property with a prefixed name holds is dealt with, and so is the
same request for what is read again of its result, but that one writes another result. -/
theorem not_settled_prefixed :
    (Dependency.ofKey ⟨"g", "a"⟩ (some "1")).Requested "1" ∧
    ∃ p' q', Runs Project.modify (prefixed []) true p' ∧
      List.Forall₂ (fun doc r => ∃ bytes, doc.result = some bytes ∧
        Document.ofBytes bytes .memory = .ok r) p'.documents
          (prefixed (prefixedBlock 1)).documents ∧
      Runs Project.modify (prefixed (prefixedBlock 1)) true q' ∧
      ¬List.Forall₂ (fun doc doc' => doc'.dirty = false ∧ doc'.result = some doc.bytes)
        (prefixed (prefixedBlock 1)).documents q'.documents := by
  have hread : Document.Readable (prefixedTarget []) := by decide +kernel
  have hread' : Document.Readable (prefixedTarget (prefixedBlock 1)) := by decide +kernel
  obtain ⟨p', hruns, hresult⟩ : ∃ p', Runs Project.modify (prefixed []) true p' ∧
      p'.documents.map (fun doc => (doc.result, doc.dirty)) =
        [(some (Utf8.encode (prefixedTarget (prefixedBlock 1))), true)] :=
    runs_of_outcome? hread (by simp [plainRequest]) (by decide +kernel) (by decide +kernel)
      (by decide +kernel)
  obtain ⟨q', hruns', hresult'⟩ : ∃ q', Runs Project.modify (prefixed (prefixedBlock 1)) true q' ∧
      q'.documents.map (fun doc => (doc.result, doc.dirty)) =
        [(some (Utf8.encode (prefixedTarget (prefixedBlock 2))), true)] :=
    runs_of_outcome? hread' (by simp [plainRequest]) (by decide +kernel) (by decide +kernel)
      (by decide +kernel)
  refine ⟨⟨⟨"g:a:1", by decide +kernel⟩, rfl⟩, p', q', hruns, ?_, hruns', fun hsettled => ?_⟩
  · obtain ⟨doc, hdoc, hpair⟩ := List.map_eq_singleton_iff.mp hresult
    obtain ⟨hbytes, -⟩ := Prod.mk.inj hpair
    rw [hdoc]
    exact .cons ⟨_, hbytes, Document.ofBytes_encode hread'⟩ .nil
  · obtain ⟨doc, hdoc, hpair⟩ := List.map_eq_singleton_iff.mp hresult'
    obtain ⟨-, hdirty⟩ := Prod.mk.inj hpair
    rw [hdoc] at hsettled
    cases hsettled with
    | cons hclean _ => exact Bool.noConfusion (hclean.1.symm.trans hdirty)

end Prefixed

end Project

end MavenPom
