import MavenPom.Proofs.PropertyUpgrade

/-!
# Other artifacts

A request changes the version of its own artifact alone, where the property that it writes is
guarded or is one that nothing else refers to.
-/

namespace MavenPom

open VersionSlot EffectiveModel Interpolation

/-! ## The entries of other artifacts -/

/-- The texts of an entry that decide what it counts for, and its version. -/
def DeclaredDependency.texts (x : DeclaredDependency) : List String :=
  [x.groupId, x.artifactId, x.version, x.declaredScope].filterMap id

namespace EffectiveModel

variable {s : ProfileSelection} {c : Container} {key other : ArtifactKey}
    {props props' : Properties}
  {poms poms' : List Pom} {xs : List DeclaredDependency}

/-- The entries of a POM, and of its profiles in force, that are not written for an artifact. -/
def othersIn (s : ProfileSelection) (c : Container) (key : ArtifactKey) (p : Pom) :
    List DeclaredDependency :=
  (entriesIn s c p).filter (·.key? ≠ some key)

/-- An artifact's own entries do not count for others. -/
theorem last?_listed_others (hkey : key.IsPlain) (hne : other ≠ key) (lineage : List Pom) :
    last? c other (listed s c props lineage) =
      last? c other ((lineage.flatMap (othersIn s c key)).map (·.interpolated props)) := by
  have hown : ∀ x : DeclaredDependency, counts c other (x.interpolated props) = true →
      x.key? ≠ some key := by
    intro x hcounts hx
    rw [counts, DeclaredDependency.key?_interpolated hkey hx] at hcounts
    simp [hne.symm] at hcounts
  have hfilter : ∀ xs : List DeclaredDependency,
      (xs.map (·.interpolated props)).filter (counts c other) =
        ((xs.filter (·.key? ≠ some key)).map (·.interpolated props)).filter (counts c other) := by
    intro xs
    rw [List.filter_map, List.filter_map, List.filter_filter]
    refine congrArg _ (List.filter_congr fun x _ => ?_)
    cases hcounts : counts c other (x.interpolated props) with
    | false => simp [hcounts]
    | true => simp [hcounts, hown x hcounts]
  rw [last?, last?, listed, hfilter, List.filter_flatMap]
  rfl

/-- Entries whose texts are read alike have the same last one for an artifact, in version. -/
theorem version_last?_congr (h : ∀ x ∈ xs, ∀ text ∈ x.texts,
      interpolate props' text = interpolate props text) :
    (last? c key (xs.map (·.interpolated props'))).map (·.version) =
      (last? c key (xs.map (·.interpolated props))).map (·.version) := by
  have hread : ∀ x ∈ xs,
      (x.interpolated props').key? = (x.interpolated props).key? ∧
      (x.interpolated props').scope = (x.interpolated props).scope ∧
      (x.interpolated props').version = (x.interpolated props).version := by
    intro x hx
    have hsame : ∀ o ∈ [x.groupId, x.artifactId, x.version, x.declaredScope],
        o.map (interpolate props') = o.map (interpolate props) := by
      intro o ho
      cases o with
      | none => rfl
      | some text =>
        exact congrArg some (h x hx text (List.mem_filterMap.mpr ⟨_, ho, rfl⟩))
    simp only [List.forall_mem_cons] at hsame
    obtain ⟨hgroup, hartifact, hversion, hscope, -⟩ := hsame
    refine ⟨?_, ?_, hversion⟩
    · simp only [DeclaredDependency.key?, DeclaredDependency.interpolated, hgroup, hartifact]
    · simp only [DeclaredDependency.scope, DeclaredDependency.interpolated, hscope]
  have hcounts : ∀ x ∈ xs,
      counts c key (x.interpolated props') = counts c key (x.interpolated props) := by
    intro x hx
    obtain ⟨hkey, hscope, -⟩ := hread x hx
    rw [counts, counts, hkey, hscope]
  simp only [last?, ← List.getLast?_map, List.filter_map, List.map_map]
  rw [List.filter_congr (q := counts c key ∘ (·.interpolated props)) hcounts]
  exact congrArg _ (List.map_congr_left fun x hx => (hread x (List.mem_of_mem_filter hx)).2.2)

end EffectiveModel

theorem filter_bringEntry (d : Dependency) (text : String) (es : List DeclaredDependency) :
    (bringEntry d text es).filter (·.key? ≠ some d.key) = es.filter (·.key? ≠ some d.key) := by
  induction es with
  | nil => simp [bringEntry, Dependency.declared, DeclaredDependency.key?, Dependency.key]
  | cons x es ih =>
    by_cases h : x.key? = some d.key
    · have hkey : ({ x with version := some text } : DeclaredDependency).key? = some d.key := h
      rw [bringEntry, if_pos h, List.filter_cons_of_neg (by simpa using hkey),
        List.filter_cons_of_neg (by simpa using h)]
    · rw [bringEntry, if_neg h, List.filter_cons_of_pos (by simpa using h),
        List.filter_cons_of_pos (by simpa using h), ih]

theorem filter_referEntry (d : Dependency) (es : List DeclaredDependency) :
    (referEntry d es).filter (·.key? ≠ some d.key) = es.filter (·.key? ≠ some d.key) := by
  rw [referEntry]
  split
  · rfl
  · rw [List.filter_append, List.filter_cons_of_neg (by simp), List.filter_nil,
      List.append_nil]

namespace Pom

variable {s : ProfileSelection} {c : Container}

theorem othersIn_eq (s : ProfileSelection) (c : Container) (key : ArtifactKey) (p : Pom) :
    othersIn s c key p = (p.listing s c).1.filter (·.key? ≠ some key) ++
      (p.listing s c).2.filter (·.key? ≠ some key) :=
  List.filter_append ..

/-- Changing one container's entries for an artifact leaves those for others. -/
theorem othersIn_withEntries (p : Pom) (d : Dependency) {c' : Container}
    {es : List DeclaredDependency}
    (h : es.filter (·.key? ≠ some d.key) = (p.entries c').filter (·.key? ≠ some d.key)) :
    othersIn s c d.key (p.withEntries c' es) = othersIn s c d.key p := by
  rw [othersIn_eq, othersIn_eq]
  by_cases hc : c = c'
  · subst hc
    rw [listing_withEntries, h]
    rfl
  · rw [listing_withEntries_of_ne p hc]

end Pom

namespace Project

variable {p q : Project} {d : Dependency} {v : String} {key : ArtifactKey}

/-- What neither entries of the artifact nor properties matter for stays as it is. -/
theorem map_planned {α : Type} {f : Pom → α}
    (hset : p.request.useProperties = true → ∀ pom ∈ p.poms, ∀ scope name value,
      f (pom.setProperty scope name value) = f pom)
    (hbring : ∀ (pom : Pom) c text, f (pom.bring c d text) = f pom)
    (hrefer : ∀ pom : Pom, f (pom.refer d) = f pom) :
    (p.planned d v).map f = p.poms.map f := by
  have hdeclaring : ∀ index c, (p.declaring index c d v).map f = p.poms.map f := by
    intro index c
    rw [declaring]
    split
    · next hprops =>
      exact map_modify_eq fun pom hpom => hset hprops pom (List.mem_of_getElem? hpom) ..
    · rfl
  have hwritten : ∀ index c, (p.written index c d v).map f = p.poms.map f := by
    intro index c
    rw [written]
    split
    · rfl
    · exact (map_modify_eq fun pom _ => hbring pom ..).trans (hdeclaring index c)
  rw [planned]
  split
  · exact (map_modify_eq fun pom _ => hrefer pom).trans (hwritten ..)
  · exact hwritten ..

theorem names_planned (p : Project) (d : Dependency) (v : String) :
    (p.planned d v).map names = p.poms.map names :=
  map_planned (fun _ pom _ scope name value => Pom.names_setProperty pom scope name value)
    (fun pom c _ => Pom.names_withEntries pom c _) fun pom => Pom.names_withEntries pom _ _

/-- The documents list the same for other artifacts. -/
theorem othersIn_planned (hids : p.request.useProperties = true → p.DistinctProfiles)
    (s : ProfileSelection) (c : Container) :
    (p.planned d v).map (othersIn s c d.key) = p.poms.map (othersIn s c d.key) := by
  refine map_planned (fun hprops pom hpom scope name value => ?_) (fun pom c' text => ?_)
    fun pom => ?_
  · rw [Pom.othersIn_eq, Pom.othersIn_eq, Pom.listing_setProperty (hids hprops pom hpom)]
  · exact Pom.othersIn_withEntries pom d (filter_bringEntry d text _)
  · exact Pom.othersIn_withEntries pom d (filter_referEntry d _)

/-- The entries of all documents that are not written for an artifact. -/
def othersOf (p : Project) (d : Dependency) (c : Container) : List DeclaredDependency :=
  p.lineage.flatMap (othersIn p.request.selection c d.key)

/-- No text that another artifact's version comes from refers to the property that is written, nor
do the values of other properties. -/
structure AvoidsProperty (p : Project) (d : Dependency) : Prop where
  entries : ∀ c, ∀ x ∈ p.othersOf d c, ∀ text ∈ x.texts, Avoids text (p.propertyName d)
  properties : ∀ other, other ≠ p.propertyName d → ∀ value,
    (build p.lineage p.request.selection).properties.get? other = some value →
      Avoids value (p.propertyName d)

/-- Writing the property cannot change other versions: it has the value that is written, or the
    guard counts other uses of it, or there are none. -/
def Shielded (p : Project) (d : Dependency) (v : String) : Prop :=
  (∃ found ∈ declaration? p (p.site d).index (p.propertyName d),
    found.value = v ∨ 1 < uses p (p.propertyName d)) ∨ p.AvoidsProperty d

/-- The texts of other artifacts' entries are read alike afterwards. -/
theorem interpolate_of_brings (h : p.Brings d v q) (hoverride : p.request.overrideExisting = false)
    (hprops : p.request.useProperties = true →
      p.Declarable (p.propertyName d) ∧ p.Shielded d v) (c : Container)
    {x : DeclaredDependency} (hx : x ∈ p.othersOf d c) {text : String} (htext : text ∈ x.texts) :
    interpolate (propertiesOf p.request.selection q.lineage) text =
      interpolate (propertiesOf p.request.selection p.lineage) text := by
  obtain ⟨hpoms, hmay⟩ := h.poms_eq fun huse => (hprops huse).1
  cases hleaves : p.leaves (p.site d).index (p.site d).container d v with
  | true => rw [lineage_eq q, hpoms, propertiesOf_planned _ (.inl hleaves)]
  | false =>
  by_cases huse : p.request.useProperties = true
  case neg =>
    rw [lineage_eq q, hpoms, propertiesOf_planned _ (.inr (by simpa using huse))]
  obtain ⟨hname, hshielded⟩ := hprops huse
  have hlineage : ∀ l : Project, ∀ pom ∈ l.lineage, pom ∈ l.poms := fun l pom hpom =>
    List.mem_reverse.mp hpom
  -- Where the documents declare the same for a name, so does the model.
  have hget : ∀ other, (p.propertyName d = other → p.declared? other (p.propertyIndex d) = some v) →
      (propertiesOf p.request.selection q.lineage).get? other =
        (propertiesOf p.request.selection p.lineage).get? other := by
    intro other hother
    refine get?_propertiesOf_congr ?_ (fun pom hpom => h.distinctNames.1 pom (hlineage p pom hpom))
      (fun pom hpom => h.distinctNames.2 pom (hlineage q pom hpom)) ?_
    · rw [lineage_eq, lineage_eq, List.map_reverse, List.map_reverse, hpoms, names_planned]
    · rw [lineage_eq, lineage_eq, List.map_reverse, List.map_reverse, hpoms, declares_planned,
        if_neg (by simp [hleaves]), declares_declaring h huse hname]
      refine congrArg _ (List.ext_getElem? fun index => ?_)
      rw [List.getElem?_modify]
      split
      · next hindex =>
        subst hindex
        rw [List.getElem?_map]
        cases hpom : p.poms[p.propertyIndex d]? with
        | none => rfl
        | some pom =>
          by_cases heq : p.propertyName d = other
          · have hvalue := hother heq
            rw [declared?, hpom, Option.bind_some] at hvalue
            simp [heq, hvalue]
          · simp [heq]
      · simp
  rcases hshielded with ⟨found, hfound, hvalue⟩ | havoids
  · -- The guard has let the value through, so it is the one that was there.
    have hsame : found.value = v := by
      rcases hvalue with hvalue | huses
      · exact hvalue
      · rcases hmay hleaves huse found hfound with hsame | hnot | hfew
        · exact hsame
        · rw [hoverride] at hnot
          cases hnot
        · exact absurd huses (Nat.not_lt.mpr hfew)
    have hdeclared := declared?_of_declaration? h.pristine h.distinctNames.1 hname hfound
    rw [hsame] at hdeclared
    rw [interpolate_eq fun other => hget other fun heq => heq ▸ hdeclared]
  · refine interpolate_congr ⟨fun other hne => hget other fun heq => absurd heq.symm hne, ?_⟩
      (havoids.entries c x hx text htext)
    rw [← properties_build]
    exact havoids.properties

/-- The last entry for another artifact has the same version afterwards. -/
theorem version_last?_of_brings (h : p.Brings d v q)
    (hoverride : p.request.overrideExisting = false) (hkey : d.key.IsPlain)
    (hprops : p.request.useProperties = true →
      p.Declarable (p.propertyName d) ∧ p.Shielded d v) (hne : key ≠ d.key) (c : Container) :
    (last? c key (entriesOf p.request.selection c q.lineage)).map (·.version) =
      (last? c key (entriesOf p.request.selection c p.lineage)).map (·.version) := by
  obtain ⟨hpoms, -⟩ := h.poms_eq fun huse => (hprops huse).1
  have hothers : q.lineage.flatMap (othersIn p.request.selection c d.key) = p.othersOf d c := by
    have hmap := othersIn_planned (d := d) (v := v) (fun huse => (hprops huse).1.distinct)
      p.request.selection c
    rw [othersOf, List.flatMap_def, List.flatMap_def, lineage_eq, lineage_eq, List.map_reverse,
      List.map_reverse, hpoms, hmap]
  rw [entriesOf, entriesOf, last?_listed_others hkey hne, last?_listed_others hkey hne, hothers]
  exact version_last?_congr fun x hx text htext =>
    interpolate_of_brings h hoverride hprops c hx htext

/-- A request that must not override changes the version of no other artifact, among the
    dependencies or among the managed entries. -/
theorem versions_of_brings (h : p.Brings d v q) (hoverride : p.request.overrideExisting = false)
    (hkey : d.key.IsPlain) (hprops : p.request.useProperties = true →
      p.Declarable (p.propertyName d) ∧ p.Shielded d v) (hne : key ≠ d.key) :
    ((build q.lineage q.request.selection).dependency? key).map (·.version) =
        ((build p.lineage p.request.selection).dependency? key).map (·.version) ∧
      ((build q.lineage q.request.selection).managed.get? key).map (·.version) =
        ((build p.lineage p.request.selection).managed.get? key).map (·.version) := by
  have hdependencies := version_last?_of_brings h hoverride hkey hprops hne .dependencies
  have hmanaged := version_last?_of_brings h hoverride hkey hprops hne .managed
  have hbind : ∀ o : Option DeclaredDependency,
      o.bind (·.version) = (o.map (·.version)).join := fun o => by cases o <;> rfl
  have hfilled : ∀ o o' : Option DeclaredDependency,
      (o'.map (completed o)).map (·.version) =
        (o'.map (·.version)).map (·.or (o.map (·.version)).join) := by
    intro o o'
    rw [Option.map_map, Option.map_map]
    congr 1
    funext x
    rw [Function.comp_apply, Function.comp_apply, version_completed, hbind]
  rw [h.request, managed_build, managed_build]
  refine ⟨?_, hmanaged⟩
  rw [dependency?_build, dependency?_build, hfilled, hfilled, managed_build, managed_build,
    hdependencies, hmanaged]

section Neighbours

open Spelling

/-- A request for `g:a` at version 2, to be written into a property that nothing else uses. -/
def guardedRequest : Request := { plainRequest "2" with useProperties := true }

/-- A target that lists `g:a` at a version and another entry, with more before them. -/
def neighbourTarget (other front : List Char) (v : String) : List Char :=
  element "project"
    [front, element "dependencies" [entry "g" "a" [field "version" v], other]]

/-- A project of such a target, before the request. -/
def neighbour (other : List Char) : Project :=
  ofChars guardedRequest (neighbourTarget other [] "1") []

/-- And after it: the version is a property's, which has been added. -/
def neighbourAfter (other : List Char) : Project :=
  let block := element "properties" ["\n    ".toList, field "versions.a" "2", "\n  ".toList]
  ofChars guardedRequest
    (neighbourTarget other (block ++ "\n  ".toList) (reference "versions.a")) []

/-- An entry of another artifact. -/
def stranger : List Char := entry "h" "b" [field "version" "1"]

theorem versions_stranger :
    (neighbour stranger).Brings (Dependency.ofKey ⟨"g", "a"⟩ (some "2")) "2"
        (neighbourAfter stranger) ∧
      ((build (neighbourAfter stranger).lineage guardedRequest.selection).dependency?
        ⟨"h", "b"⟩).map (·.version) = some (some "1") := by
  have henacts : (neighbour stranger).Enacts (neighbourAfter stranger) := by decide +kernel
  have hbrings : (neighbour stranger).Brings (Dependency.ofKey ⟨"g", "a"⟩ (some "2")) "2"
      (neighbourAfter stranger) :=
    henacts.brings (by decide +kernel) (by decide +kernel) ⟨⟨"g:a:2", by decide +kernel⟩, rfl⟩
      rfl rfl
  have hname : (neighbour stranger).propertyName (Dependency.ofKey ⟨"g", "a"⟩ (some "2")) =
      "versions.a" := by decide +kernel
  have hdeclarable : (neighbour stranger).Declarable "versions.a" :=
    ⟨by decide +kernel, by decide +kernel, by decide +kernel, by decide +kernel⟩
  have hnone : ∀ name, (build (neighbour stranger).lineage
      guardedRequest.selection).properties.get? name = none := by
    have hempty : (build (neighbour stranger).lineage
        guardedRequest.selection).properties.entries = [] := by decide +kernel
    intro name
    rw [Table.get?, hempty, Table.getPair?]
  have havoids : (neighbour stranger).AvoidsProperty
      (Dependency.ofKey ⟨"g", "a"⟩ (some "2")) := by
    refine ⟨fun c => ?_, fun other _ value hvalue => ?_⟩
    · rw [hname]
      cases c <;> decide +kernel
    · cases (hnone other).symm.trans hvalue
  have hsame := (@versions_of_brings _ _ _ _ ⟨"h", "b"⟩ hbrings rfl (by decide +kernel)
    (fun _ => ⟨hname ▸ hdeclarable, .inr havoids⟩) (by decide +kernel)).1
  exact ⟨hbrings, hsame.trans (by decide +kernel)⟩

/-- An entry of an artifact with the same name in another group, at the version of a property that
is named for it. -/
def namesake : List Char := entry "h" "a" [field "version" (reference "versions.a")]

/-- A project that declares this property, and lists `g:a` at a version of its own. -/
def namedAlike (value v : String) : Project :=
  ofChars guardedRequest
    (neighbourTarget namesake (element "properties" [field "versions.a" value]) v) []

/-- Properties are named for artifacts, whatever group they are of, and the guard does not count the
reference that is about to be written. So another artifact takes the version that is requested. -/
theorem versions_namedAlike :
    (namedAlike "1" "1").Brings (Dependency.ofKey ⟨"g", "a"⟩ (some "2")) "2"
        (namedAlike "2" (reference "versions.a")) ∧
      guardedRequest.overrideExisting = false ∧
      ((build (namedAlike "1" "1").lineage guardedRequest.selection).dependency?
        ⟨"h", "a"⟩).map (·.version) = some (some "1") ∧
      ((build (namedAlike "2" (reference "versions.a")).lineage
        guardedRequest.selection).dependency? ⟨"h", "a"⟩).map (·.version) = some (some "2") := by
  have henacts : (namedAlike "1" "1").Enacts (namedAlike "2" (reference "versions.a")) := by
    decide +kernel
  have hbrings := henacts.brings (by decide +kernel) (by decide +kernel)
    ⟨⟨"g:a:2", by decide +kernel⟩, rfl⟩ rfl rfl
  exact ⟨hbrings, rfl, by decide +kernel, by decide +kernel⟩

end Neighbours

end Project

end MavenPom
