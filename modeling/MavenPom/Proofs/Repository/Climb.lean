import Mathlib.Data.List.Perm.Subperm
import MavenPom.Proofs.Loop
import MavenPom.Proofs.Pom.Dependencies
import MavenPom.Proofs.Repository.Confinement
import MavenPom.Proofs.Repository.Load

/-!
# The way up

Ancestors are added to a lineage until the farthest POM has no parent. No artifact is passed twice
and there are finitely many POMs to load, so the way up ends. The lineage that it leads to has no
POM twice, so the model of one POM is no larger than all POMs together.
-/

namespace MavenPom

open MavenPom.Action (Runs Ends IsLoop Again)
open PomStore (Obtainable)

/-- The artifact of a POM's key. -/
def PomKey.artifact (k : PomKey) : ArtifactKey := ⟨k.groupId, k.artifactId⟩

/-- The artifact of a POM's parent. -/
def Pom.parentKey? (p : Pom) : Option ArtifactKey := p.parent.map fun q => ⟨q.groupId, q.artifactId⟩

namespace Resolver

/-- The parent that a lineage lacks, if any. It must have a version, and its artifact must not have
    been visited. -/
def lacking (visited : List ArtifactKey) (lineage : List Pom) : Except BuildError (Option PomKey) :=
  match lineage.head?.bind (·.parent) with
  | none => .ok none
  | some parent =>
    match parent.version with
    | none => .error (.invalidModel (ArtifactKey.text ⟨parent.groupId, parent.artifactId⟩)
        ["parent has no version"])
    | some version =>
      if visited.contains ⟨parent.groupId, parent.artifactId⟩ then
        .error (.invalidModel (ArtifactKey.text ⟨parent.groupId, parent.artifactId⟩)
          ["parent hierarchy contains a cycle"])
      else .ok (some ⟨parent.groupId, parent.artifactId, version⟩)

/-- A lineage to which ancestors are added, and their artifacts. -/
structure Ascent where
  visited : List ArtifactKey
  lineage : List Pom

/-- Adds the parent that a lineage lacks. -/
def climbRound (r : Resolver) (a : Ascent) : Resolving (Ascent ⊕ List Pom) :=
  match lacking a.visited a.lineage with
  | .error cause => throw cause
  | .ok none => pure (.inr a.lineage)
  | .ok (some key) => do
    let pom ← PomStore.load r.toPomSource key
    pure (.inl ⟨key.artifact :: a.visited, pom :: a.lineage⟩)

section Climb

variable {r : Resolver} {s s' : PomStore} {visited : List ArtifactKey} {lineage : List Pom}
  {bound : ℕ}

/-- What the way up does next is what the lineage lacks. -/
theorem climb_cases (r : Resolver) (visited : List ArtifactKey) (lineage : List Pom) :
    (∃ cause, lacking visited lineage = .error cause ∧
      ∀ bound, climb r bound visited lineage = throw cause) ∨
    (lacking visited lineage = .ok none ∧ lineage.head?.bind Pom.parentKey? = none ∧
      ∀ bound, climb r bound visited lineage = pure lineage) ∨
    ∃ key, lacking visited lineage = .ok (some key) ∧
      lineage.head?.bind Pom.parentKey? = some key.artifact ∧ key.artifact ∉ visited ∧
      ∀ bound, climb r (bound + 1) visited lineage =
        PomStore.load r.toPomSource key >>= fun pom =>
          climb r bound (key.artifact :: visited) (pom :: lineage) := by
  have hkey : lineage.head?.bind Pom.parentKey? =
      (lineage.head?.bind (·.parent)).map fun q => ⟨q.groupId, q.artifactId⟩ := by
    cases lineage.head? <;> rfl
  rw [hkey, lacking]
  cases hparent : lineage.head?.bind (·.parent) with
  | none => exact .inr (.inl ⟨rfl, rfl, fun bound => by rw [climb.eq_def, hparent]⟩)
  | some parent =>
    cases hversion : parent.version with
    | none =>
      refine .inl ⟨_, by simp only [hversion]; rfl, fun bound => ?_⟩
      rw [climb.eq_def, hparent]
      simp only [hversion]
    | some version =>
      by_cases hvisited :
          visited.contains (⟨parent.groupId, parent.artifactId⟩ : ArtifactKey) = true
      · refine .inl ⟨_, by simp only [hversion, hvisited, if_true]; rfl, fun bound => ?_⟩
        rw [climb.eq_def, hparent]
        simp only [hversion, hvisited, if_true]
      · refine .inr (.inr ⟨⟨parent.groupId, parent.artifactId, version⟩,
          by simp only [hversion, if_neg hvisited], rfl, ?_, fun bound => ?_⟩)
        · rw [PomKey.artifact]
          simpa using hvisited
        · rw [climb.eq_def, hparent]
          simp only [hversion, if_neg hvisited, PomKey.artifact]

/-- The visited artifacts are different ones of those that may be visited, and there is room for the
    others. -/
structure Room (within : List ArtifactKey) (bound : ℕ) (visited : List ArtifactKey) : Prop where
  nodup : visited.Nodup
  subset : visited ⊆ within
  length_le : within.length ≤ visited.length + bound

theorem Room.cons {within : List ArtifactKey} {new : ArtifactKey} (h : Room within bound visited)
    (hnew : new ∉ visited) (hmem : new ∈ within) :
    ∃ rest, bound = rest + 1 ∧ Room within rest (new :: visited) := by
  have hnodup : (new :: visited).Nodup := List.nodup_cons.mpr ⟨hnew, h.nodup⟩
  have hsubset : new :: visited ⊆ within := List.cons_subset.mpr ⟨hmem, h.subset⟩
  have hlength := (hnodup.subperm hsubset).length_le
  have hroom := h.length_le
  rw [List.length_cons] at hlength
  exact ⟨bound - 1, by omega, hnodup, hsubset, by rw [List.length_cons]; omega⟩

/-- Where there is room for all artifacts that the parents of POMs may have, the way up ends. -/
theorem ends_climb {within : List ArtifactKey} (hroom : Room within bound visited)
    (hsupply : ∀ pom, Obtainable r.toPomSource s pom → ∀ key ∈ pom.parentKey?, key ∈ within)
    (hhead : ∀ key ∈ lineage.head?.bind Pom.parentKey?, key ∈ within) :
    Ends (climbRound r) ⟨visited, lineage⟩ s
      (StateT.run (ExceptT.run (climb r bound visited lineage)) s).1
      (StateT.run (ExceptT.run (climb r bound visited lineage)) s).2 := by
  induction bound generalizing visited lineage s with
  | zero =>
    rcases climb_cases r visited lineage with ⟨cause, hlacking, hclimb⟩ | ⟨hlacking, -, hclimb⟩ |
      ⟨key, -, hkey, hnew, -⟩
    · rw [hclimb]
      exact Ends.fails (by rw [climbRound, hlacking]; rfl)
    · rw [hclimb]
      exact Ends.gives (by rw [climbRound, hlacking]; rfl)
    · obtain ⟨rest, hrest, -⟩ := hroom.cons hnew (hhead _ hkey)
      cases hrest
  | succ bound ih =>
    rcases climb_cases r visited lineage with ⟨cause, hlacking, hclimb⟩ | ⟨hlacking, -, hclimb⟩ |
      ⟨key, hlacking, hkey, hnew, hclimb⟩
    · rw [hclimb]
      exact Ends.fails (by rw [climbRound, hlacking]; rfl)
    · rw [hclimb]
      exact Ends.gives (by rw [climbRound, hlacking]; rfl)
    · obtain ⟨rest, hrest, hroom'⟩ := hroom.cons hnew (hhead _ hkey)
      obtain rfl := Nat.succ.inj hrest
      have hround : climbRound r ⟨visited, lineage⟩ = PomStore.load r.toPomSource key >>=
          fun pom => pure (.inl ⟨key.artifact :: visited, pom :: lineage⟩) := by
        rw [climbRound, hlacking]
      rw [hclimb, Action.run_bind]
      cases hload : StateT.run (ExceptT.run (PomStore.load r.toPomSource key)) s with
      | mk result s' =>
        cases result with
        | error cause =>
          exact Ends.fails (by rw [hround]; exact Action.fails_bind.mpr (.inl hload))
        | ok pom =>
          have hconfined := (PomStore.keeps_load r.toPomSource key).of_runs hload
          refine Ends.goesOn ?_ (ih hroom' (fun other hother => hsupply other ?_) (hsupply pom ?_))
          · rw [hround]
            exact Action.runs_bind.mpr ⟨pom, s', hload, Action.runs_pure.mpr ⟨rfl, rfl⟩⟩
          · exact hconfined.obtainable hother
          · exact PomStore.obtainable_of_load hload

/-- The way up from a lineage ends, and its bound is never met. -/
theorem isLoop_complete (r : Resolver) (lineage : List Pom) :
    IsLoop (climbRound r) ⟨[], lineage⟩ (complete r lineage) := by
  intro s
  have hlength := PomStore.length_supply_le r.toPomSource s
  let within := (lineage.head?.bind Pom.parentKey?).toList ++
    (PomStore.supply r.toPomSource s).filterMap Pom.parentKey?
  have hwithin : within.length ≤
      s.loaded.entries.length + (PomStore.contents r.toPomSource s).length + 1 := by
    have hhead := Option.length_toList_le (o := lineage.head?.bind Pom.parentKey?)
    have hparents := List.length_filterMap_le Pom.parentKey? (PomStore.supply r.toPomSource s)
    rw [List.length_append]
    omega
  have hroom : Room within
      (s.loaded.entries.length + (PomStore.contents r.toPomSource s).length + 1) [] := by
    refine ⟨List.nodup_nil, List.nil_subset _, ?_⟩
    simpa using hwithin
  refine ends_climb hroom (fun pom hpom key hkey => ?_) (fun key hkey => ?_)
  · refine List.mem_append_right _ (List.mem_filterMap.mpr ⟨pom, ?_, hkey⟩)
    exact PomStore.mem_supply hpom
  · exact List.mem_append_left _ (Option.mem_toList.mpr hkey)

/-! ## The lineage of a POM -/

theorem climbRound_cases {a : Ascent} {next : Ascent ⊕ List Pom}
    (h : Runs (climbRound r a) s next s') :
    (a.lineage.head?.bind Pom.parentKey? = none ∧ next = .inr a.lineage ∧ s' = s) ∨
    ∃ key pom, a.lineage.head?.bind Pom.parentKey? = some key.artifact ∧ key.artifact ∉ a.visited ∧
      Runs (PomStore.load r.toPomSource key) s pom s' ∧
      next = .inl ⟨key.artifact :: a.visited, pom :: a.lineage⟩ := by
  rcases climb_cases r a.visited a.lineage with ⟨cause, hlacking, -⟩ | ⟨hlacking, hnone, -⟩ |
    ⟨key, hlacking, hkey, hnew, -⟩
  · rw [climbRound, hlacking] at h
    exact absurd h Action.not_runs_throw
  · rw [climbRound, hlacking] at h
    obtain ⟨rfl, rfl⟩ := Action.runs_pure.mp h
    exact .inl ⟨hnone, rfl, rfl⟩
  · rw [climbRound, hlacking] at h
    obtain ⟨pom, t, hload, hpure⟩ := Action.runs_bind.mp h
    obtain ⟨rfl, rfl⟩ := Action.runs_pure.mp hpure
    exact .inr ⟨key, pom, hkey, hnew, hload, rfl⟩

/-- A lineage of POMs from a supply, in which the parents of all but the farthest one are of
    different artifacts: those that were visited. -/
structure Ascent.Sound (supply : List Pom) (a : Ascent) : Prop where
  parents : a.lineage.tail.map Pom.parentKey? = a.visited.map some
  nodup : a.visited.Nodup
  subset : a.lineage ⊆ supply

/-- The lineage that the way up leads to has no POM twice. -/
theorem Ascent.Sound.whole {supply : List Pom} {a : Ascent} {outcome : Except BuildError (List Pom)}
    (hsound : a.Sound supply) (hsupply : ∀ p, Obtainable r.toPomSource s p → p ∈ supply)
    (h : Ends (climbRound r) a s outcome s') :
    ∀ lineage, outcome = .ok lineage → lineage.Nodup ∧ lineage ⊆ supply := by
  induction h with
  | fails => exact fun lineage heq => absurd heq (by simp)
  | gives hruns =>
    intro lineage heq
    rcases climbRound_cases hruns with ⟨hnone, hnext, rfl⟩ | ⟨key, pom, -, -, -, hnext⟩
    · obtain rfl : lineage = _ := (Except.ok.inj heq).symm.trans (Sum.inr.inj hnext)
      refine ⟨List.Nodup.of_map Pom.parentKey? ?_, hsound.subset⟩
      have hparents := hsound.parents
      cases hlineage : Ascent.lineage _ with
      | nil => exact List.nodup_nil
      | cons head tail =>
        rw [hlineage] at hnone hparents
        have hhead : head.parentKey? = none := hnone
        rw [List.map_cons, hhead, show tail.map Pom.parentKey? = _ from hparents]
        refine List.nodup_cons.mpr ⟨by simp, ?_⟩
        exact hsound.nodup.map fun _ _ => Option.some.inj
    · cases hnext
  | goesOn hruns _ ih =>
    rcases climbRound_cases hruns with ⟨-, hnext, -⟩ | ⟨key, pom, hkey, hnew, hload, hnext⟩
    · cases hnext
    · obtain rfl := Sum.inl.inj hnext
      have hconfined := (PomStore.keeps_load r.toPomSource key).of_runs hload
      refine ih ⟨?_, List.nodup_cons.mpr ⟨hnew, hsound.nodup⟩, ?_⟩
        fun p hp => hsupply p (hconfined.obtainable hp)
      · obtain ⟨head, hhead, hparent⟩ := Option.bind_eq_some_iff.mp hkey
        obtain ⟨tail, htail⟩ := List.head?_eq_some_iff.mp hhead
        have hparents := hsound.parents
        rw [htail, List.tail_cons] at hparents
        rw [List.tail_cons, htail, List.map_cons, hparent, hparents, List.map_cons]
      · exact List.cons_subset.mpr
          ⟨hsupply pom (PomStore.obtainable_of_load hload), hsound.subset⟩

end Climb

/-! ## The size of models -/

section Size

variable {r : Resolver} {s s' : PomStore} {m bom : EffectiveModel} {lineage : List Pom} {pom : Pom}

theorem runs_addImport {modelOf : Pom → Resolving EffectiveModel} {d : DeclaredDependency}
    {next : EffectiveModel} (h : Runs (addImport r modelOf m d) s next s') :
    ∃ bom, next = m.importManaged bom := by
  rw [addImport] at h
  split at h
  · exact absurd h Action.not_runs_throw
  · obtain ⟨pom, s₁, -, hrest⟩ := Action.runs_bind.mp h
    obtain ⟨bom, s₂, -, hpure⟩ := Action.runs_bind.mp hrest
    exact ⟨bom, (Action.runs_pure.mp hpure).1⟩

theorem length_of_foldlM_addImport {modelOf : Pom → Resolving EffectiveModel}
    (imports : List DeclaredDependency) {m next : EffectiveModel} {s s' : PomStore}
    (h : Runs (imports.foldlM (addImport r modelOf) m) s next s') :
    next.dependencies.length = m.dependencies.length := by
  induction imports generalizing m s with
  | nil => rw [(Action.runs_pure.mp h).1]
  | cons d imports ih =>
    rw [List.foldlM_cons] at h
    obtain ⟨m', s₁, hfirst, hrest⟩ := Action.runs_bind.mp h
    obtain ⟨bom, rfl⟩ := runs_addImport hfirst
    rw [ih hrest, EffectiveModel.length_importManaged]

/-- A model has as many dependencies as that of its whole lineage without what is imported. -/
theorem length_of_modelWithin {levels : ℕ} (h : Runs (modelWithin r levels lineage) s m s') :
    ∃ whole s₁, Runs (complete r lineage) s whole s₁ ∧
      m.dependencies.length = (EffectiveModel.build whole r.selection).dependencies.length := by
  cases levels with
  | zero =>
    obtain ⟨whole, s₁, hcomplete, hrest⟩ := Action.runs_bind.mp h
    refine ⟨whole, s₁, hcomplete, ?_⟩
    dsimp only at hrest
    split at hrest
    · rw [(Action.runs_pure.mp hrest).1]
    · exact absurd hrest Action.not_runs_throw
  | succ levels =>
    obtain ⟨whole, s₁, hcomplete, hrest⟩ := Action.runs_bind.mp h
    exact ⟨whole, s₁, hcomplete, length_of_foldlM_addImport _ hrest⟩

/-- The model of a POM has no more dependencies than all POMs that can be loaded declare. -/
theorem length_of_effectiveModel {supply : List Pom}
    (hsupply : ∀ p, Obtainable r.toPomSource s p → p ∈ supply) (hpom : pom ∈ supply)
    (h : Runs (effectiveModel r [pom]) s m s') :
    m.dependencies.length ≤ (supply.map declaredCount).sum := by
  obtain ⟨whole, s₁, hcomplete, hlength⟩ := length_of_modelWithin h
  have hsound : Ascent.Sound supply ⟨[], [pom]⟩ := ⟨rfl, List.nodup_nil, by simpa using hpom⟩
  obtain ⟨hnodup, hsubset⟩ :=
    hsound.whole hsupply ((isLoop_complete r [pom]).runs_iff.mp hcomplete) whole rfl
  obtain ⟨part, hperm, hpart⟩ := hnodup.subperm hsubset
  calc m.dependencies.length ≤ (whole.map declaredCount).sum :=
        hlength.trans_le (EffectiveModel.length_build_le whole r.selection)
    _ = (part.map declaredCount).sum := ((hperm.map declaredCount).sum_eq).symm
    _ ≤ (supply.map declaredCount).sum := (hpart.map _).sum_le_sum fun _ _ => Nat.zero_le _

end Size

/-!
## Resolving again

A resolution depends on its store by the POMs that it loads and by nothing else. So a model that was
built is built alike, and no further POM is loaded, wherever the POMs of the first time are loaded.
-/

section Again

variable {Enough : PomStore → Prop} {R : PomStore → PomStore → Prop} {r r' : Resolver}
  (hload : ∀ key,
    Again Enough R (PomStore.load r.toPomSource key) (PomStore.load r'.toPomSource key))
include hload

theorem again_climbRound (a : Ascent) : Again Enough R (climbRound r a) (climbRound r' a) := by
  rw [climbRound, climbRound]
  split
  · exact Action.again_throw _
  · exact Action.again_pure _
  · exact Action.again_bind (hload _) fun _ => Action.again_pure _

/-- The bounds of the way up depend on the store, but they are not met. -/
theorem again_complete (lineage : List Pom) :
    Again Enough R (complete r lineage) (complete r' lineage) :=
  Action.again_loop (isLoop_complete r lineage) (isLoop_complete r' lineage)
    (again_climbRound hload)

theorem again_addImport {modelOf modelOf' : Pom → Resolving EffectiveModel}
    (hmodel : ∀ pom, Again Enough R (modelOf pom) (modelOf' pom)) (m : EffectiveModel)
    (d : DeclaredDependency) :
    Again Enough R (addImport r modelOf m d) (addImport r' modelOf' m d) := by
  rw [addImport, addImport]
  split
  · exact Action.again_throw _
  · exact Action.again_bind (hload _) fun pom =>
      Action.again_bind (hmodel pom) fun _ => Action.again_pure _

variable (hselection : r'.selection = r.selection)
include hselection

theorem again_modelWithin (levels : ℕ) (lineage : List Pom) :
    Again Enough R (modelWithin r levels lineage) (modelWithin r' levels lineage) := by
  induction levels generalizing lineage with
  | zero =>
    refine Action.again_bind (again_complete hload lineage) fun whole => ?_
    rw [hselection]
    dsimp only
    split
    · exact Action.again_pure _
    · exact Action.again_throw _
  | succ levels ih =>
    refine Action.again_bind (again_complete hload lineage) fun whole => ?_
    rw [hselection]
    refine Action.again_foldlM (fun m d => ?_) _ _
    exact again_addImport hload (fun pom => ih [pom]) m d

theorem again_effectiveModel (lineage : List Pom) :
    Again Enough R (effectiveModel r lineage) (effectiveModel r' lineage) :=
  again_modelWithin hload hselection importLimit lineage

theorem again_followAll (root : EffectiveModel) (p : Pending) (key : PomKey) :
    Again Enough R (followAll r root p key) (followAll r' root p key) := by
  rw [followAll, followAll]
  split
  · exact Action.again_pure _
  · refine Action.again_bind (hload key) fun pom => ?_
    refine Action.again_bind (again_effectiveModel hload hselection [pom]) fun m => ?_
    split
    · exact Action.again_throw _
    · exact Action.again_pure _

end Again

/-! ## In a store that has grown -/

section Grown

variable {r : Resolver} {s s' t : PomStore}

theorem again_load (source : PomSource) (t : PomStore) (key : PomKey) :
    Again (PomStore.Grows · t) (fun _ t' => t' = t) (PomStore.load source key)
      (PomStore.load source key) := by
  refine ⟨fun hruns hgrows => (PomStore.loaded_of_load hruns).1.trans hgrows, ?_⟩
  rintro s pom s' hruns hgrows _ rfl
  refine ⟨_, PomStore.runs_load.mpr (.inl ⟨?_, rfl⟩), rfl⟩
  exact hgrows key pom (PomStore.loaded_of_load hruns).2

/-- A model that was built is built again wherever the POMs for it are loaded. -/
theorem runs_effectiveModel_again {lineage : List Pom} {m : EffectiveModel}
    (h : Runs (effectiveModel r lineage) s m s') (hgrows : PomStore.Grows s' t) :
    Runs (effectiveModel r lineage) t m t := by
  obtain ⟨t', hruns, rfl⟩ :=
    (again_effectiveModel (again_load r.toPomSource t) rfl lineage).runs h hgrows t rfl
  exact hruns

theorem runs_followAll_again {root : EffectiveModel} {p : Pending} {key : PomKey}
    {children : List Pending} (h : Runs (followAll r root p key) s children s')
    (hgrows : PomStore.Grows s' t) : Runs (followAll r root p key) t children t := by
  obtain ⟨t', hruns, rfl⟩ :=
    (again_followAll (again_load r.toPomSource t) rfl root p key).runs h hgrows t rfl
  exact hruns

end Grown

end Resolver

end MavenPom
