import MavenPom.Proofs.Repository.Store
import MavenPom.Repository.Resolution

/-!
# Resolution stays in the repository

Resolving touches files by loading POMs only, so what every load keeps is kept by a whole
resolution.
-/

namespace MavenPom

namespace Action

variable {σ ε α β : Type} {R : σ → σ → Prop}

theorem keeps_foldlM (hrefl : ∀ s, R s s) (htrans : ∀ {s t u}, R s t → R t u → R s u)
    {f : β → α → Action σ ε β} (hf : ∀ x a, Keeps R (f x a)) (as : List α) (x : β) :
    Keeps R (as.foldlM f x) := by
  induction as generalizing x with
  | nil => exact keeps_pure hrefl x
  | cons a as ih =>
    rw [List.foldlM_cons]
    exact keeps_bind htrans (hf x a) ih

end Action

namespace Resolver

section Keeps

variable {R : PomStore → PomStore → Prop} {r : Resolver} (hrefl : ∀ s, R s s)
  (htrans : ∀ {s t u}, R s t → R t u → R s u)
  (hload : ∀ key, Action.Keeps R (PomStore.load r.toPomSource key))
include hrefl htrans hload

theorem keeps_climb (bound : ℕ) (visited : List ArtifactKey) (lineage : List Pom) :
    Action.Keeps R (climb r bound visited lineage) := by
  induction bound generalizing visited lineage with
  | zero =>
    rw [climb]
    split
    · exact Action.keeps_pure hrefl _
    · dsimp only
      split
      · exact Action.keeps_throw hrefl _
      · split
        · exact Action.keeps_throw hrefl _
        · exact Action.keeps_throw hrefl _
  | succ bound ih =>
    rw [climb]
    split
    · exact Action.keeps_pure hrefl _
    · dsimp only
      split
      · exact Action.keeps_throw hrefl _
      · split
        · exact Action.keeps_throw hrefl _
        · exact Action.keeps_bind htrans (hload _) fun _ => ih _ _

theorem keeps_complete (lineage : List Pom) : Action.Keeps R (complete r lineage) :=
  Action.keeps_get_bind fun _ => keeps_climb hrefl htrans hload _ _ _

theorem keeps_addImport {modelOf : Pom → Resolving EffectiveModel}
    (hmodel : ∀ pom, Action.Keeps R (modelOf pom)) (m : EffectiveModel) (d : DeclaredDependency) :
    Action.Keeps R (addImport r modelOf m d) := by
  rw [addImport]
  split
  · exact Action.keeps_throw hrefl _
  · refine Action.keeps_bind htrans (hload _) fun pom => ?_
    exact Action.keeps_bind htrans (hmodel pom) fun _ => Action.keeps_pure hrefl _

theorem keeps_modelWithin (levels : ℕ) (lineage : List Pom) :
    Action.Keeps R (modelWithin r levels lineage) := by
  induction levels generalizing lineage with
  | zero =>
    refine Action.keeps_bind htrans (keeps_complete hrefl htrans hload lineage) fun whole => ?_
    dsimp only
    split
    · exact Action.keeps_pure hrefl _
    · exact Action.keeps_throw hrefl _
  | succ levels ih =>
    refine Action.keeps_bind htrans (keeps_complete hrefl htrans hload lineage) fun whole => ?_
    refine Action.keeps_foldlM hrefl htrans (fun m d => ?_) _ _
    exact keeps_addImport hrefl htrans hload (fun pom => ih [pom]) m d

theorem keeps_effectiveModel (lineage : List Pom) : Action.Keeps R (effectiveModel r lineage) :=
  keeps_modelWithin hrefl htrans hload importLimit lineage

theorem keeps_followAll (root : EffectiveModel) (p : Pending) (key : PomKey) :
    Action.Keeps R (followAll r root p key) := by
  rw [followAll]
  split
  · exact Action.keeps_pure hrefl _
  · refine Action.keeps_bind htrans (hload key) fun pom => ?_
    refine Action.keeps_bind htrans (keeps_effectiveModel hrefl htrans hload [pom]) fun m => ?_
    split
    · exact Action.keeps_throw hrefl _
    · exact Action.keeps_pure hrefl _

theorem keeps_visit (root : EffectiveModel) (bound : ℕ) (seen : List ArtifactKey)
    (queue : List Pending) : Action.Keeps R (visit r root bound seen queue) := by
  fun_induction visit r root bound seen queue with
  | case1 => exact Action.keeps_pure hrefl _
  | case2 _ _ _ _ _ _ _ _ _ ih => exact ih
  | case3 => exact Action.keeps_throw hrefl _
  | case4 seen p queue key version _ _ _ bound ih =>
    refine Action.keeps_bind htrans (keeps_followAll hrefl htrans hload root p _) fun children => ?_
    exact Action.keeps_bind htrans (ih children) fun _ => Action.keeps_pure hrefl _
  | case5 _ _ _ _ _ ih => exact ih

theorem keeps_resolve (root : EffectiveModel) : Action.Keeps R (resolve r root) := by
  rw [resolve]
  have hvisit : Action.Keeps R (get >>= fun s => visit r root (visitBound r root s) (ownKey root)
      (root.dependencies.map fun d => ⟨d, d.scope⟩)) :=
    Action.keeps_get_bind fun _ => keeps_visit hrefl htrans hload root _ _ _
  split
  · exact Action.keeps_bind htrans (Action.keeps_throw hrefl _) fun _ => hvisit
  · exact hvisit

end Keeps

end Resolver

/-! ## The files of a resolution -/

/-- Files outside of the repository are left alone where no path that is asked for
    leads above it. -/
theorem PomStore.Confined.file?_outside {source : PomSource} {s s' : PomStore} {l : Location}
    (h : Confined source s s') (hstays : ∀ path ∈ asked s s', Path.Stays path)
    (hl : ¬source.base s.files <+: l) : s'.files.file? l = s.files.file? l := by
  rcases h.file? l with hsame | ⟨content, ⟨path, hpath, -, hplace⟩, -⟩
  · exact hsame
  · refine absurd ?_ hl
    rw [hplace]
    exact Path.stays_iff.mp (hstays path hpath) _

namespace Resolver

/-- Building a model and resolving a model's dependencies change files only by answers of the remote
    repository that are put where the paths asked for lead from the local one, and load POMs only
    from their places there. A load neither reads nor changes any other file. These places are in
    the repository exactly where the paths do not lead above it. -/
theorem confined (r : Resolver) {s s' : PomStore}
    (h : (∃ lineage, s' = (StateT.run (ExceptT.run (effectiveModel r lineage)) s).2) ∨
      ∃ root, s' = (StateT.run (ExceptT.run (resolve r root)) s).2) :
    PomStore.Confined r.toPomSource s s' ∧
    (∀ (key : PomKey) (t : PomStore) (l : Location), l ≠ r.place t.files key →
      Action.Ignores (PomStore.fileCell l) (PomStore.load r.toPomSource key) t) ∧
    (∀ key : PomKey, Path.Stays key.path ↔
      ∀ (source : PomSource) (t : FileTree), source.base t <+: source.place t key) ∧
    ((∀ path ∈ PomStore.asked s s', Path.Stays path) →
      ∀ l, ¬r.base s.files <+: l → s'.files.file? l = s.files.file? l) := by
  have hconfined : PomStore.Confined r.toPomSource s s' := by
    rcases h with ⟨lineage, rfl⟩ | ⟨root, rfl⟩
    · exact keeps_effectiveModel (PomStore.Confined.refl _) PomStore.Confined.trans
        (PomStore.keeps_load _) lineage s
    · exact keeps_resolve (PomStore.Confined.refl _) PomStore.Confined.trans
        (PomStore.keeps_load _) root s
  refine ⟨hconfined, fun key t l hne => PomStore.ignores_load hne, fun key => PomKey.stays_iff,
    fun hstays l hl => hconfined.file?_outside hstays hl⟩

/-- A POM with nothing but a parent. -/
def childOf (parent : PomKey) : Pom :=
  ⟨none, some "c", some "1", none,
    some ⟨parent.groupId, parent.artifactId, some parent.version, .standard⟩,
    Table.empty, [], [], []⟩

def emptyPom : Bytes := Utf8.encode "<project/>".toList

/-- A repository without files, and a file beside it. -/
def aside : PomStore :=
  .ofFiles
    ⟨⟨[(["m2"], .directory), (["m2", "g"], .directory), (["..-...pom"], .file emptyPom)]⟩, []⟩

/-- Resolves in the repository, with what a remote one has at a path. -/
def inM2 (path : String) : Resolver :=
  ⟨⟨"/m2", some (Table.empty.insert path (.ok emptyPom))⟩, .none⟩

/-- A parent that is fetched is put into the repository, and the file beside it stays. -/
theorem confined_fetched :
    let parent : PomKey := ⟨"g", "a", "1"⟩
    let r := inM2 "g/a/1/a-1.pom"
    let s' := (StateT.run (ExceptT.run (effectiveModel r [childOf parent])) aside).2
    PomStore.asked aside s' = [parent.path] ∧ Path.Stays parent.path ∧
      s'.files.file? ["m2", "g", "a", "1", "a-1.pom"] = some emptyPom ∧
      ¬r.base aside.files <+: ["..-...pom"] ∧
      s'.files.file? ["..-...pom"] = aside.files.file? ["..-...pom"] := by
  intro parent r s'
  have hasked : PomStore.asked aside s' = [parent.path] := by decide +kernel
  have hstays : Path.Stays parent.path := PomKey.stays_path (by decide +kernel) (by decide +kernel)
  have hbeside : ¬r.base aside.files <+: ["..-...pom"] := by decide +kernel
  refine ⟨hasked, hstays, by decide +kernel, hbeside, ?_⟩
  refine (confined r (.inl ⟨[childOf parent], rfl⟩)).2.2.2 (fun path hpath => ?_) _ hbeside
  obtain rfl := List.mem_singleton.mp (hasked ▸ hpath)
  exact hstays

/-- The parent `g:..:..` is loaded from the only file, which is beside the repository. Where it is
    missing, what the remote repository answers is put there. -/
theorem not_confined_above :
    let parent : PomKey := ⟨"g", "..", ".."⟩
    let r := inM2 parent.path
    PomStore.isOpen parent.version = false ∧
    ¬r.base aside.files <+: r.place aside.files parent ∧
    aside.files.files = [r.place aside.files parent] ∧
    ((StateT.run (ExceptT.run (effectiveModel r [childOf parent])) aside).2.loaded.get?
      parent).isSome ∧
    (StateT.run (ExceptT.run (effectiveModel r [childOf parent]))
      (.ofFiles .empty)).2.files.files = [r.place aside.files parent] := by
  intro parent r
  refine ⟨by decide +kernel, by decide +kernel, by decide +kernel, by decide +kernel, ?_⟩
  decide +kernel

end Resolver

end MavenPom
