import MavenPom.Proofs.Edit.Property

/-!
# Properties of POMs

Of a POM's block of properties and those of its profiles in force, the last one that declares a name
counts. A property that is set in this one is given its value, and no other is changed.
-/

namespace MavenPom

namespace Pom

variable {p : Pom} {s : ProfileSelection} {name other value : String}

/-- No block of properties binds a name twice. -/
structure DistinctNames (p : Pom) : Prop where
  project : p.properties.Distinct
  profile : ∀ q ∈ p.profiles, q.properties.Distinct

theorem distinct_propertiesOf (n : Markup.Strict.Node) : (propertiesOf n).Distinct :=
  Table.distinct_ofList _

theorem distinctNames_ofNode (n : Markup.Strict.Node) : (ofNode n).DistinctNames where
  project := distinct_propertiesOf n
  profile q hq := by
    simp only [ofNode] at hq
    cases hprofiles : n.child? "profiles" with
    | none => simp [hprofiles] at hq
    | some profiles =>
      rw [hprofiles, Option.map_some, Option.getD_some] at hq
      obtain ⟨profile, -, rfl⟩ := List.mem_map.mp hq
      exact distinct_propertiesOf profile

/-- The last profile in force that declares a name counts, or else the project's block. -/
theorem get?_activeProperties (h : p.DistinctNames) (s : ProfileSelection) (name : String) :
    (p.activeProperties s).get? name =
      ((p.activeProfiles s).reverse.findSome? (·.properties.get? name)).or
        (p.properties.get? name) :=
  Table.get?_foldl_extend (fun q hq => h.profile q (List.mem_of_mem_filter hq)) _ name

theorem scopeOf_cases (s : ProfileSelection) (p : Pom) (name : String) :
    (∃ front q back value, p.activeProfiles s = front ++ q :: back ∧
      q.properties.get? name = some value ∧ (∀ q' ∈ back, q'.properties.get? name = none) ∧
      VersionSlot.scopeOf s p name = .profile q.id) ∨
    ((∀ q ∈ p.activeProfiles s, q.properties.get? name = none) ∧
      VersionSlot.scopeOf s p name = .project) := by
  unfold VersionSlot.scopeOf
  rw [List.getLast?_filter]
  cases hfind : (p.activeProfiles s).reverse.find? fun q => (q.properties.get? name).isSome with
  | none =>
    refine .inr ⟨fun q hq => ?_, rfl⟩
    simpa using List.find?_eq_none.mp hfind q (List.mem_reverse.mpr hq)
  | some q =>
    obtain ⟨hq, front, back, hsplit, hfront⟩ := List.find?_eq_some_iff_append.mp hfind
    obtain ⟨value, hvalue⟩ := Option.isSome_iff_exists.mp hq
    refine .inl ⟨back.reverse, q, front.reverse, value, ?_, hvalue, fun q' hq' => ?_, rfl⟩
    · rw [← List.reverse_reverse (p.activeProfiles s), hsplit]
      simp
    · simpa using hfront q' (List.mem_reverse.mp hq')

/-- A profile is what its id leads to, where no two have the same. -/
theorem find?_profile (hids : (p.profiles.map (·.id)).Nodup) {q : Profile} (hq : q ∈ p.profiles) :
    p.profiles.find? (·.id = q.id) = some q := by
  obtain ⟨front, back, hsplit⟩ := List.append_of_mem hq
  rw [hsplit, List.map_append, List.nodup_append] at hids
  obtain ⟨-, -, hdisjoint⟩ := hids
  refine List.find?_eq_some_iff_append.mpr ⟨by simp, front, back, hsplit, fun q' hq' => ?_⟩
  simpa using hdisjoint _ (List.mem_map_of_mem hq') q.id (by simp)

/-- The value of a property in the block that provides it is the one that counts. -/
theorem property?_scopeOf (h : p.DistinctNames) (hids : (p.profiles.map (·.id)).Nodup)
    (s : ProfileSelection) (name : String) :
    p.property? (VersionSlot.scopeOf s p name) name = (p.activeProperties s).get? name := by
  rw [get?_activeProperties h]
  rcases scopeOf_cases s p name with ⟨front, q, back, value, hsplit, hq, hback, hscope⟩ |
    ⟨hnone, hscope⟩
  · have hactive : q ∈ p.activeProfiles s := by simp [hsplit]
    have hnone : back.reverse.findSome? (·.properties.get? name) = none :=
      List.findSome?_eq_none_iff.mpr fun q' hq' => hback q' (List.mem_reverse.mp hq')
    rw [hscope, property?, find?_profile hids (List.mem_of_mem_filter hactive), Option.bind_some,
      hsplit, List.reverse_append, List.reverse_cons, List.append_assoc, List.findSome?_append,
      hnone, Option.none_or, List.singleton_append, List.findSome?_cons, hq, Option.some_or]
  · rw [hscope, property?, List.findSome?_eq_none_iff.mpr fun q hq =>
      hnone q (List.mem_reverse.mp hq), Option.none_or]

/-- A property that a POM does not declare belongs into the project's block. -/
theorem scopeOf_eq_project (h : p.DistinctNames)
    (hnone : (p.activeProperties s).get? name = none) :
    VersionSlot.scopeOf s p name = .project := by
  rw [get?_activeProperties h] at hnone
  rcases scopeOf_cases s p name with ⟨front, q, back, value, hsplit, hq, -, -⟩ | ⟨-, hscope⟩
  · have hfind := (Option.or_eq_none_iff.mp hnone).1
    have hmem : q ∈ (p.activeProfiles s).reverse := by simp [hsplit]
    exact absurd (List.findSome?_eq_none_iff.mp hfind q hmem) (by simp [hq])
  · exact hscope

/-! ## Setting a property -/

/-- A profile with a property set, if it has an id. -/
def setIn (id name value : String) (q : Profile) : Profile :=
  if q.id = id then { q with properties := q.properties.insert name value } else q

theorem id_setIn (id name value : String) (q : Profile) :
    (setIn id name value q).id = q.id ∧
      (setIn id name value q).activeByDefault = q.activeByDefault := by
  unfold setIn
  split <;> exact ⟨rfl, rfl⟩

private theorem setInProfile_eq_map {id name value : String} {profiles : List Profile}
    (hids : (profiles.map (·.id)).Nodup) :
    setInProfile id name value profiles = profiles.map (setIn id name value) := by
  induction profiles with
  | nil => rfl
  | cons q profiles ih =>
    obtain ⟨hq, hids⟩ := List.nodup_cons.mp hids
    rw [setInProfile, List.map_cons]
    split
    · next hid =>
      have hrest : profiles.map (setIn id name value) = profiles := by
        refine (List.map_congr_left fun q' hq' => ?_).trans (List.map_id profiles)
        exact if_neg fun hid' => hq (List.mem_map.mpr ⟨q', hq', hid'.trans hid.symm⟩)
      rw [hrest, setIn, if_pos hid]
    · next hid => rw [ih hids, setIn, if_neg hid]

theorem activeProfiles_setProperty (hids : (p.profiles.map (·.id)).Nodup)
    (s : ProfileSelection) (id name value : String) :
    (p.setProperty (.profile id) name value).activeProfiles s =
      (p.activeProfiles s).map (setIn id name value) := by
  have hany : ((p.profiles.map (setIn id name value)).any fun q => s.activates q.id) =
      p.profiles.any fun q => s.activates q.id := by
    rw [List.any_map]
    congr 1
    funext q
    rw [Function.comp_apply, (id_setIn id name value q).1]
  simp only [activeProfiles, setProperty, setInProfile_eq_map hids, hany, List.filter_map]
  congr 1
  refine List.filter_congr fun q _ => ?_
  simp only [Function.comp_apply, (id_setIn id name value q).1, (id_setIn id name value q).2]

theorem distinctNames_setProperty (h : p.DistinctNames) (scope : PropertyScope)
    (name value : String) : (p.setProperty scope name value).DistinctNames := by
  cases scope with
  | project => exact ⟨h.project.insert name value, h.profile⟩
  | profile id =>
    refine ⟨h.project, fun q hq => ?_⟩
    have hall : ∀ {profiles : List Profile}, (∀ q ∈ profiles, q.properties.Distinct) →
        ∀ q ∈ setInProfile id name value profiles, q.properties.Distinct := by
      intro profiles
      induction profiles with
      | nil => exact fun h => h
      | cons first profiles ih =>
        intro h
        obtain ⟨hfirst, hrest⟩ := List.forall_mem_cons.mp h
        rw [setInProfile]
        split
        · exact List.forall_mem_cons.mpr ⟨hfirst.insert name value, hrest⟩
        · exact List.forall_mem_cons.mpr ⟨hfirst, ih hrest⟩
    exact hall h.profile q hq

/-- Setting a property where it is provided binds it, and no other. -/
theorem get?_activeProperties_setProperty (h : p.DistinctNames)
    (hids : (p.profiles.map (·.id)).Nodup) (s : ProfileSelection) (name other value : String) :
    ((p.setProperty (VersionSlot.scopeOf s p name) name value).activeProperties s).get? other =
      if name = other then some value else (p.activeProperties s).get? other := by
  rw [get?_activeProperties (distinctNames_setProperty h _ _ _), get?_activeProperties h]
  rcases scopeOf_cases s p name with ⟨front, q, back, old, hsplit, hq, hback, hscope⟩ |
    ⟨hnone, hscope⟩
  · rw [hscope, activeProfiles_setProperty hids, ← List.map_reverse, List.findSome?_map]
    by_cases hother : name = other
    · subst hother
      -- The profiles behind the one that is set have other ids, and do not declare the name.
      have hne : ∀ q' ∈ back, q'.id ≠ q.id := by
        have hsub : ((p.activeProfiles s).map (·.id)).Nodup :=
          hids.sublist ((List.filter_sublist ..).map _)
        rw [hsplit, List.map_append, List.map_cons] at hsub
        have hback' := (List.nodup_cons.mp (List.nodup_append.mp hsub).2.1).1
        exact fun q' hq' heq => hback' (List.mem_map.mpr ⟨q', hq', heq⟩)
      have hnone : back.reverse.findSome?
          ((·.properties.get? name) ∘ setIn q.id name value) = none := by
        refine List.findSome?_eq_none_iff.mpr fun q' hq' => ?_
        have hmem := List.mem_reverse.mp hq'
        rw [Function.comp_apply, setIn, if_neg (hne q' hmem)]
        exact hback q' hmem
      have hset : (setIn q.id name value q).properties.get? name = some value := by
        rw [setIn, if_pos rfl, Table.get?_insert, if_pos rfl]
      rw [if_pos rfl, hsplit, List.reverse_append, List.reverse_cons, List.append_assoc,
        List.findSome?_append, hnone, Option.none_or, List.singleton_append, List.findSome?_cons,
        Function.comp_apply, hset, Option.some_or]
    · have hsame : ((·.properties.get? other) ∘ setIn q.id name value) =
          (·.properties.get? other) := by
        funext q'
        rw [Function.comp_apply, setIn]
        split
        · rw [Table.get?_insert, if_neg hother]
        · rfl
      rw [if_neg hother, hsame]
      rfl
  · have hactive : (p.setProperty .project name value).activeProfiles s = p.activeProfiles s := rfl
    rw [hscope, hactive]
    by_cases hother : name = other
    · subst hother
      rw [if_pos rfl, List.findSome?_eq_none_iff.mpr fun q hq => hnone q (List.mem_reverse.mp hq),
        Option.none_or, setProperty, Table.get?_insert, if_pos rfl]
    · rw [if_neg hother, setProperty, Table.get?_insert, if_neg hother]

end Pom

end MavenPom
