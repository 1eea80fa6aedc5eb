import Mathlib.Data.List.Induction
import MavenPom.Proofs.Pom.Dependencies
import MavenPom.Proofs.Pom.Lineage

/-!
# How a model is merged

The declarations of a lineage are merged by their keys: of dependencies the last declaration counts,
in the place of the first, and of imports the last one alone. Models that are imported add what they
manage one after the other, and the dependencies are filled in each time. This comes to the same as
filling them in once, from a table in which a model's own entries come first and then those of the
imported models in their order.
-/

namespace MavenPom

namespace Table

variable {κ ν : Type} [DecidableEq κ]

theorem get?_insertNew (t : Table κ ν) (key other : κ) (value : ν) :
    (t.insertNew key value).get? other =
      (t.get? other).or (if key = other then some value else none) := by
  rw [insertNew]
  by_cases h : key = other
  · subst h
    cases hbound : t.get? key with
    | none => simp [get?_insert]
    | some there => simp [hbound]
  · rw [if_neg h, Option.or_none]
    split
    · rfl
    · rw [get?_insert, if_neg h]

/-- Of the pairs for a key that is not bound, the first one counts. -/
theorem get?_foldl_insertNew (pairs : List (κ × ν)) (t : Table κ ν) (key : κ) :
    (pairs.foldl (fun t pair => t.insertNew pair.1 pair.2) t).get? key =
      (t.get? key).or (getPair? key pairs) := by
  induction pairs generalizing t with
  | nil => simp [getPair?]
  | cons pair pairs ih =>
    obtain ⟨k, v⟩ := pair
    rw [List.foldl_cons, ih, get?_insertNew, Option.or_assoc, getPair?]
    by_cases h : k = key <;> simp [h]

theorem foldl_insertNew_of_bound {pairs : List (κ × ν)} {t : Table κ ν}
    (h : ∀ pair ∈ pairs, (t.get? pair.1).isSome) :
    pairs.foldl (fun t pair => t.insertNew pair.1 pair.2) t = t := by
  induction pairs with
  | nil => rfl
  | cons pair pairs ih =>
    obtain ⟨hpair, hpairs⟩ := List.forall_mem_cons.mp h
    rw [List.foldl_cons, insertNew, if_pos hpair]
    exact ih hpairs

theorem isSome_get?_of_mem {t : Table κ ν} {pair : κ × ν} (h : pair ∈ t.entries) :
    (t.get? pair.1).isSome := by
  obtain ⟨pairs⟩ := t
  simp only [get?] at h ⊢
  induction pairs with
  | nil => cases h
  | cons first pairs ih =>
    rw [getPair?]
    split
    · rfl
    · next hne =>
      rcases List.mem_cons.mp h with rfl | h
      · exact absurd rfl hne
      · exact ih h

end Table

namespace EffectiveModel

variable {s : ProfileSelection} {m : EffectiveModel} {d e : DeclaredDependency}
  {ds es : List DeclaredDependency} {key : ArtifactKey}

/-! ## First and last declarations -/

/-- A declaration with the key of `d` is among the declarations. -/
def Declares (ds : List DeclaredDependency) (d : DeclaredDependency) : Prop :=
  d.key?.isSome ∧ ∃ e ∈ ds, e.key? = d.key?

theorem declares_cons : Declares (e :: es) d ↔ d.key?.isSome ∧ e.key? = d.key? ∨ Declares es d := by
  simp only [Declares, List.exists_mem_cons_iff, and_or_left]

theorem keys_cons (e : DeclaredDependency) (es : List DeclaredDependency) :
    keys (e :: es) = e.key?.toList ++ keys es := by
  cases h : e.key? <;> simp [keys, h]

/-- Where no key stands twice, a declaration takes the place of the one with its key, or comes
    last. -/
theorem place_eq (hnodup : (keys es).Nodup) :
    (Declares es d → place d es = es.map fun e => if e.key? = d.key? then d else e) ∧
      (¬Declares es d → place d es = es ++ [d]) := by
  induction es with
  | nil => exact ⟨fun h => by simp [Declares] at h, fun _ => rfl⟩
  | cons e es ih =>
    rw [keys_cons, List.nodup_append] at hnodup
    obtain ⟨-, hnodup', hdisjoint⟩ := hnodup
    rw [place, declares_cons]
    by_cases hsame : d.key?.isSome ∧ e.key? = d.key?
    · rw [if_pos hsame]
      refine ⟨fun _ => ?_, fun h => absurd (.inl hsame) h⟩
      obtain ⟨key, hkey⟩ := Option.isSome_iff_exists.mp hsame.1
      have hothers : ∀ x ∈ es, x.key? ≠ d.key? := fun x hx hxkey =>
        hdisjoint key (by simp [hsame.2, hkey]) key (mem_keys.mpr ⟨x, hx, hxkey.trans hkey⟩) rfl
      rw [List.map_cons, if_pos hsame.2]
      congr 1
      exact ((List.map_congr_left fun x hx => if_neg (hothers x hx)).trans (List.map_id' es)).symm
    · rw [if_neg hsame]
      obtain ⟨hold, hnew⟩ := ih hnodup'
      refine ⟨fun h => ?_, fun h => ?_⟩
      · have hlater := h.resolve_left hsame
        have hne : e.key? ≠ d.key? := fun heq => hsame ⟨hlater.1, heq⟩
        rw [hold hlater, List.map_cons, if_neg hne]
      · rw [hnew fun hlater => h (.inr hlater), List.cons_append]

/-- The model of a lineage before its dependencies are filled in. -/
def gathered (lineage : List Pom) (s : ProfileSelection) : EffectiveModel :=
  lineage.foldl (addEntries s) (named s lineage)

/-- A declaration of `x:y`. -/
def entryOf (version : Option String) : DeclaredDependency :=
  ⟨some "x", some "y", version, none, none, none, false, []⟩

/-- The model with the managed entries of another where it has none of its own, and with its
    dependencies as they are. -/
def takeOver (m bom : EffectiveModel) : EffectiveModel :=
  { m with
    managed := bom.managed.entries.foldl (fun t pair => t.insertNew pair.1 pair.2) m.managed }

theorem importManaged_eq (m bom : EffectiveModel) :
    m.importManaged bom = (m.takeOver bom).applyManaged := rfl

theorem get?_takeOver (m bom : EffectiveModel) (key : ArtifactKey) :
    (m.takeOver bom).managed.get? key = (m.managed.get? key).or (bom.managed.get? key) :=
  Table.get?_foldl_insertNew bom.managed.entries m.managed key

theorem managed_foldl_importManaged (boms : List EffectiveModel) (m : EffectiveModel)
    (key : ArtifactKey) :
    (boms.foldl importManaged m).managed.get? key =
      (m.managed.get? key).or (boms.findSome? fun bom => bom.managed.get? key) := by
  induction boms generalizing m with
  | nil => simp
  | cons bom boms ih =>
    have hfirst : (m.importManaged bom).managed.get? key =
        (m.managed.get? key).or (bom.managed.get? key) := get?_takeOver m bom key
    rw [List.foldl_cons, ih, hfirst, Option.or_assoc, List.findSome?_cons]
    cases bom.managed.get? key <;> rfl

/-- What was filled in from an entry is filled in from a table with that entry already. -/
theorem completed_completed {old new : Option DeclaredDependency}
    (h : ∀ e, old = some e → new = some e) (d : DeclaredDependency) :
    completed new (completed old d) = completed new d := by
  cases old with
  | none => rfl
  | some e =>
    rw [h e rfl]
    simp only [completed, DeclaredDependency.filledFrom, Option.or_assoc, Option.or_self]
    by_cases hempty : d.exclusions.isEmpty = true <;> simp [hempty]

/-- A model that was filled in is filled in anew as if it had not been. -/
theorem importManaged_applyManaged (m bom : EffectiveModel) :
    m.applyManaged.importManaged bom = (m.takeOver bom).applyManaged := by
  have hkept : ∀ (key : Option ArtifactKey) (e : DeclaredDependency),
      key.bind m.managed.get? = some e → key.bind (m.takeOver bom).managed.get? = some e := by
    intro key e he
    obtain ⟨k, rfl, hk⟩ := Option.bind_eq_some_iff.mp he
    rw [Option.bind_some, get?_takeOver, hk, Option.some_or]
  have hfill : ∀ d : DeclaredDependency,
      completed ((completed (d.key?.bind m.managed.get?) d).key?.bind
          (m.takeOver bom).managed.get?) (completed (d.key?.bind m.managed.get?) d) =
        completed (d.key?.bind (m.takeOver bom).managed.get?) d := fun d => by
    rw [key?_completed]
    exact completed_completed (hkept d.key?) d
  have hdependencies : (m.applyManaged.importManaged bom).dependencies =
      (m.takeOver bom).applyManaged.dependencies :=
    (List.map_map ..).trans (List.map_congr_left fun d _ => hfill d)
  calc m.applyManaged.importManaged bom
      = { m.takeOver bom with
          dependencies := (m.applyManaged.importManaged bom).dependencies } := rfl
    _ = (m.takeOver bom).applyManaged := by rw [hdependencies]; rfl

/-- Importing models one after the other is taking over what they manage, and filling in once. -/
theorem foldl_importManaged_applyManaged (boms : List EffectiveModel) (m : EffectiveModel) :
    boms.foldl importManaged m.applyManaged = (boms.foldl takeOver m).applyManaged := by
  induction boms generalizing m with
  | nil => rfl
  | cons bom boms ih => rw [List.foldl_cons, importManaged_applyManaged, ih, List.foldl_cons]

/-- A model that manages all that another does takes over nothing. -/
theorem takeOver_of_bound {bom : EffectiveModel}
    (h : ∀ key, (bom.managed.get? key).isSome → (m.managed.get? key).isSome) :
    m.takeOver bom = m := by
  have hmanaged : bom.managed.entries.foldl (fun t pair => t.insertNew pair.1 pair.2) m.managed =
      m.managed :=
    Table.foldl_insertNew_of_bound fun pair hpair => h pair.1 (Table.isSome_get?_of_mem hpair)
  rw [takeOver, hmanaged]

theorem dependencies_foldl_takeOver (boms : List EffectiveModel) (m : EffectiveModel) :
    (boms.foldl takeOver m).dependencies = m.dependencies := by
  induction boms generalizing m with
  | nil => rfl
  | cons bom boms ih => exact ih (m.takeOver bom)

/-- The dependency on an artifact that is managed stays as it is. -/
theorem dependency?_importManaged {bom : EffectiveModel} (h : m.managed.get? key = some d) :
    (m.applyManaged.importManaged bom).dependency? key = m.applyManaged.dependency? key := by
  rw [importManaged_applyManaged, dependency?_applyManaged, dependency?_applyManaged, get?_takeOver,
    h, Option.some_or]
  rfl

/-- After a lineage's model has imported others one by one, it manages what it did by itself, and
    for other artifacts what the first of the others does that has an entry. Its dependencies are
    those of the lineage before any was filled in, each filled in once from what is managed in the
    end. Importing one of the models again changes nothing, and no further import changes an entry
    or a dependency that has one. -/
theorem foldl_importManaged_build (lineage : List Pom) (s : ProfileSelection)
    (boms : List EffectiveModel) :
    let m := boms.foldl importManaged (build lineage s)
    (∀ key, m.managed.get? key = ((build lineage s).managed.get? key).or
        (boms.findSome? fun bom => bom.managed.get? key)) ∧
      m.dependencies = (gathered lineage s).dependencies.map
        (fun d => completed (d.key?.bind m.managed.get?) d) ∧
      (∀ bom ∈ boms, m.importManaged bom = m) ∧
      ∀ bom key d, m.managed.get? key = some d →
        (m.importManaged bom).managed.get? key = some d ∧
        (m.importManaged bom).dependency? key = m.dependency? key := by
  intro m
  have hm : m = (boms.foldl takeOver (gathered lineage s)).applyManaged :=
    foldl_importManaged_applyManaged boms (gathered lineage s)
  have hmanaged : ∀ key, m.managed.get? key = ((build lineage s).managed.get? key).or
      (boms.findSome? fun bom => bom.managed.get? key) :=
    managed_foldl_importManaged boms (build lineage s)
  refine ⟨hmanaged, ?_, fun bom hbom => ?_, fun bom key d hd => ⟨?_, ?_⟩⟩
  · rw [hm, dependencies_applyManaged, dependencies_foldl_takeOver]
    rfl
  · have hbound : ∀ key, (bom.managed.get? key).isSome → (m.managed.get? key).isSome := by
      intro key hkey
      rw [hmanaged, Option.isSome_or, List.isSome_findSome?, Bool.or_eq_true]
      exact .inr (List.any_eq_true.mpr ⟨bom, hbom, hkey⟩)
    rw [hm] at hbound ⊢
    have hsame : (boms.foldl takeOver (gathered lineage s)).takeOver bom =
        boms.foldl takeOver (gathered lineage s) := takeOver_of_bound hbound
    rw [importManaged_applyManaged, hsame]
  · rw [importManaged_eq]
    exact (get?_takeOver m bom key).trans (by rw [hd, Option.some_or])
  · rw [hm] at hd ⊢
    exact dependency?_importManaged hd

/-- The model of a POM that declares `x:y` without a version. -/
def depending : EffectiveModel :=
  build [⟨none, none, none, none, none, Table.empty, [entryOf none], [], []⟩] .none

/-- The model of a POM that manages `x:y`. -/
def managing (version : String) : EffectiveModel :=
  build [⟨none, none, none, none, none, Table.empty, [], [entryOf (some version)], []⟩] .none

/-- Of two models that manage the version of a dependency, the one that is imported first counts. -/
theorem foldl_importManaged_build_twice :
    let boms := [managing "9", managing "8"]
    let m := boms.foldl importManaged depending
    (managing "8" ∈ boms ∧ m.importManaged (managing "8") = m) ∧
      m.managed.get? ⟨"x", "y"⟩ = some (entryOf (some "9")) ∧
      (m.importManaged (managing "7")).managed.get? ⟨"x", "y"⟩ = some (entryOf (some "9")) ∧
      (m.importManaged (managing "7")).dependency? ⟨"x", "y"⟩ = some (entryOf (some "9")) := by
  intro boms m
  have hmem : managing "8" ∈ boms := List.mem_cons_of_mem _ List.mem_cons_self
  have hmanaged : m.managed.get? ⟨"x", "y"⟩ = some (entryOf (some "9")) := by decide +kernel
  have hdependency : m.dependency? ⟨"x", "y"⟩ = some (entryOf (some "9")) := by decide +kernel
  obtain ⟨-, -, hagain, hkept⟩ := foldl_importManaged_build
    [⟨none, none, none, none, none, Table.empty, [entryOf none], [], []⟩] .none boms
  obtain ⟨hmanaged', hdependency'⟩ := hkept (managing "7") _ _ hmanaged
  exact ⟨⟨hmem, hagain _ hmem⟩, hmanaged, hmanaged', hdependency'.trans hdependency⟩

end EffectiveModel

end MavenPom
