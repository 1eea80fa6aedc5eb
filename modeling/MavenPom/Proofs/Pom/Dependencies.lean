import MavenPom.Proofs.Pom.Effective
import MavenPom.Repository.Resolution
import Mathlib.Algebra.GroupWithZero.Nat
import Mathlib.Algebra.Order.BigOperators.Group.List
import Mathlib.Algebra.Order.Group.Nat

/-!
# The dependencies of a model

A model has no more dependencies than the POMs of its lineage and their profiles declare, and none
of an artifact twice. What it imports changes neither.
-/

namespace MavenPom.EffectiveModel

variable {s : ProfileSelection} {m : EffectiveModel} {d : DeclaredDependency}
  {ds es : List DeclaredDependency}

/-- The artifacts that dependencies name. -/
def keys (ds : List DeclaredDependency) : List ArtifactKey := ds.filterMap (·.key?)

theorem mem_keys {key : ArtifactKey} : key ∈ keys ds ↔ ∃ d ∈ ds, d.key? = some key :=
  List.mem_filterMap

/-! ## Placing -/

theorem length_place_le (d : DeclaredDependency) (es : List DeclaredDependency) :
    (place d es).length ≤ es.length + 1 := by
  induction es with
  | nil => simp [place]
  | cons e es ih =>
    rw [place]
    split
    · simp
    · simpa using ih

/-- A dependency keeps the place of the one with its key, or comes last. -/
theorem keys_place (d : DeclaredDependency) (es : List DeclaredDependency) :
    keys (place d es) = keys es ∨
      ∃ key, d.key? = some key ∧ key ∉ keys es ∧ keys (place d es) = keys es ++ [key] := by
  induction es with
  | nil =>
    cases hkey : d.key? with
    | none => exact .inl (by simp [place, keys, hkey])
    | some key => exact .inr ⟨key, rfl, by simp [keys], by simp [place, keys, hkey]⟩
  | cons e es ih =>
    rw [place]
    split
    · next hsame =>
      left
      simp only [keys, List.filterMap_cons, hsame.2]
    · next hother =>
      have hcons : ∀ rest, keys (e :: rest) = e.key?.toList ++ keys rest := fun rest => by
        cases h : e.key? <;> simp [keys, h]
      rcases ih with hsame | ⟨key, hkey, hnew, hplace⟩
      · exact .inl (by rw [hcons, hcons, hsame])
      · refine .inr ⟨key, hkey, ?_, by rw [hcons, hcons, hplace, List.append_assoc]⟩
        rw [hcons, List.mem_append, not_or]
        refine ⟨fun hmem => hother ⟨by simp [hkey], ?_⟩, hnew⟩
        rw [Option.mem_toList.mp hmem, hkey]

theorem nodup_keys_place (h : (keys es).Nodup) : (keys (place d es)).Nodup := by
  rcases keys_place d es with hsame | ⟨key, -, hnew, hplace⟩
  · rwa [hsame]
  · rw [hplace]
    exact List.nodup_append.mpr ⟨h, List.nodup_singleton key,
      fun k hk k' hk' => by rintro rfl; exact hnew (List.mem_singleton.mp hk' ▸ hk)⟩

theorem length_foldl_place_le (ds es : List DeclaredDependency) :
    (ds.foldl (fun es d => place d es) es).length ≤ es.length + ds.length := by
  induction ds generalizing es with
  | nil => simp
  | cons d ds ih =>
    have hrest := ih (place d es)
    have hplace := length_place_le d es
    simp only [List.foldl_cons, List.length_cons]
    omega

theorem nodup_keys_foldl_place (h : (keys es).Nodup) :
    (keys (ds.foldl (fun es d => place d es) es)).Nodup := by
  induction ds generalizing es with
  | nil => exact h
  | cons d ds ih => exact ih (nodup_keys_place h)

/-! ## The entries of a lineage -/

theorem dependencies_addEntries (s : ProfileSelection) (m : EffectiveModel) (p : Pom) :
    (addEntries s m p).dependencies =
      ((declaredIn s p).map (·.interpolated m.properties)).foldl (fun es d => place d es)
        m.dependencies := by
  obtain ⟨-, hdependencies⟩ :=
    foldl_manage_fields ((managedIn s p).map (·.interpolated m.properties)) m
  rw [addEntries, hdependencies]

theorem length_declaredIn_le (s : ProfileSelection) (p : Pom) :
    (declaredIn s p).length ≤ Resolver.declaredCount p := by
  have hcount : ∀ qs : List Profile, qs.foldr (·.dependencies.length + ·) p.dependencies.length =
      p.dependencies.length + (qs.map (·.dependencies.length)).sum := by
    intro qs
    induction qs with
    | nil => rfl
    | cons q qs ih =>
      simp only [List.foldr_cons, ih, List.map_cons, List.sum_cons]
      omega
  rw [Resolver.declaredCount, hcount, declaredIn, List.length_append, List.length_flatMap]
  refine Nat.add_le_add_left ?_ _
  exact (List.filter_sublist.map _).sum_le_sum fun _ _ => Nat.zero_le _

theorem length_foldl_addEntries_le (lineage : List Pom) (m : EffectiveModel) :
    (lineage.foldl (addEntries s) m).dependencies.length ≤
      m.dependencies.length + (lineage.map Resolver.declaredCount).sum := by
  induction lineage generalizing m with
  | nil => simp
  | cons p lineage ih =>
    have hrest := ih (addEntries s m p)
    have hplaced := length_foldl_place_le ((declaredIn s p).map (·.interpolated m.properties))
      m.dependencies
    have hdeclared := length_declaredIn_le s p
    rw [← dependencies_addEntries, List.length_map] at hplaced
    simp only [List.foldl_cons, List.map_cons, List.sum_cons]
    omega

theorem nodup_keys_foldl_addEntries (lineage : List Pom) (h : (keys m.dependencies).Nodup) :
    (keys (lineage.foldl (addEntries s) m).dependencies).Nodup := by
  induction lineage generalizing m with
  | nil => exact h
  | cons p lineage ih =>
    refine ih ?_
    rw [dependencies_addEntries]
    exact nodup_keys_foldl_place h

/-! ## Models -/

theorem key?_completed (managed : Option DeclaredDependency) (d : DeclaredDependency) :
    (completed managed d).key? = d.key? := by
  cases managed <;> rfl

theorem dependencies_applyManaged (m : EffectiveModel) :
    m.applyManaged.dependencies =
      m.dependencies.map fun d => completed (d.key?.bind m.managed.get?) d := rfl

theorem length_applyManaged (m : EffectiveModel) :
    m.applyManaged.dependencies.length = m.dependencies.length := List.length_map ..

theorem keys_applyManaged (m : EffectiveModel) :
    keys m.applyManaged.dependencies = keys m.dependencies := by
  rw [dependencies_applyManaged, keys, List.filterMap_map, keys]
  exact List.filterMap_congr fun d _ => key?_completed _ d

theorem length_importManaged (m bom : EffectiveModel) :
    (m.importManaged bom).dependencies.length = m.dependencies.length := length_applyManaged _

theorem length_build_le (lineage : List Pom) (s : ProfileSelection) :
    (build lineage s).dependencies.length ≤ (lineage.map Resolver.declaredCount).sum := by
  have hentries := length_foldl_addEntries_le (s := s) lineage (named s lineage)
  rw [(entries_named s lineage).1] at hentries
  rw [build_eq, length_applyManaged]
  simpa using hentries

/-- A model has no two dependencies on an artifact. -/
theorem nodup_keys_build (lineage : List Pom) (s : ProfileSelection) :
    (keys (build lineage s).dependencies).Nodup := by
  rw [build_eq, keys_applyManaged]
  refine nodup_keys_foldl_addEntries lineage ?_
  rw [(entries_named s lineage).1]
  exact List.nodup_nil

/-- Where nothing keeps a model's dependencies from being resolved, they name artifacts and
    versions. -/
theorem exists_of_problems (h : m.problems = []) (hd : d ∈ m.dependencies) :
    ∃ key version, d.key? = some key ∧ d.version = some version ∧
      Interpolation.hasReference version = false := by
  obtain ⟨index, hindex, rfl⟩ := List.mem_iff_getElem.mp hd
  have hmem : (m.dependencies[index], index) ∈ m.dependencies.zipIdx := by
    rw [List.mk_mem_zipIdx_iff_getElem?]
    exact List.getElem?_eq_getElem hindex
  have hproblem : problem? index m.dependencies[index] = none :=
    List.filterMap_eq_nil_iff.mp h _ hmem
  rw [problem?] at hproblem
  cases hkey : DeclaredDependency.key? m.dependencies[index] with
  | none => rw [hkey] at hproblem; cases hproblem
  | some key =>
    cases hversion : DeclaredDependency.version m.dependencies[index] with
    | none => simp only [hkey, hversion, reduceCtorEq] at hproblem
    | some version =>
      simp only [hkey, hversion] at hproblem
      split at hproblem
      · cases hproblem
      · next hplain => exact ⟨key, version, rfl, rfl, by simpa using hplain⟩

end MavenPom.EffectiveModel
