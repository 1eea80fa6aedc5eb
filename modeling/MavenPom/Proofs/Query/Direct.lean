import MavenPom.Proofs.Project.Characters
import MavenPom.Proofs.Repository.Visits
import MavenPom.Query.Run

/-!
# Direct dependencies

The dependencies that can be read off a project come first among those that are resolved. They are
visited before all that is found on the way, and as no two are of the same artifact, all of them
are.
-/

namespace MavenPom

open MavenPom.Action (Runs)
open Resolver (Declaration Visit Visits direct ownKey IsReady)

namespace Resolver

variable {r : Resolver} {root : EffectiveModel} {s s' : PomStore} {seen : List ArtifactKey}
  {queue : List Declaration} {visits : List Visit}

/-- The entry for a declaration, unless its artifact was seen. -/
def Declaration.fresh? (seen : List ArtifactKey) (d : Declaration) : Option Dependency :=
  d.key?.bind fun key => d.pending.dependency.version.bind fun version =>
    if key ∈ seen then none else some (d.pending.resolved key version)

theorem fresh?_of_mem {d : Declaration} {key : ArtifactKey} (hkey : d.key? = some key)
    (hseen : key ∈ seen) : d.fresh? seen = none := by
  rw [Declaration.fresh?, hkey, Option.bind_some]
  cases d.pending.dependency.version with
  | none => rfl
  | some version => rw [Option.bind_some, if_pos hseen]

theorem fresh?_visit {v : Visit} (hnew : v.key ∉ seen) :
    v.toDeclaration.fresh? seen = some v.entry := by
  rw [Declaration.fresh?, v.key?_eq, Option.bind_some, v.versioned, Option.bind_some, if_neg hnew,
    Visit.entry]

theorem fresh?_cons {d : Declaration} {key : ArtifactKey} (h : d.key? ≠ some key) :
    d.fresh? (key :: seen) = d.fresh? seen := by
  rw [Declaration.fresh?, Declaration.fresh?]
  cases hkey : d.key? with
  | none => rfl
  | some other =>
    have hne : other ≠ key := fun heq => h (heq ▸ hkey)
    simp [hne]

/-- Declarations of different artifacts are visited in their order, where they begin the queue. -/
theorem Visits.front_prefix (h : Visits r root s seen queue visits) :
    ∀ front back, queue = front ++ back → (front.filterMap Declaration.key?).Nodup →
      front.filterMap (Declaration.fresh? seen) <+: visits.map Visit.entry := by
  induction h with
  | done =>
    intro front back hqueue _
    obtain ⟨rfl, -⟩ := List.append_eq_nil_iff.mp hqueue.symm
    exact List.nil_prefix
  | skip hkey hseen _ ih =>
    intro front back hqueue hnodup
    rcases List.cons_eq_append_iff.mp hqueue with ⟨rfl, -⟩ | ⟨front, rfl, hrest⟩
    · exact List.nil_prefix
    · rw [List.filterMap_cons_none (fresh?_of_mem hkey hseen)]
      rw [List.filterMap_cons_some hkey] at hnodup
      exact ih front back hrest (List.nodup_cons.mp hnodup).2
  | @visit seen v queue visits hnew _ _ ih =>
    intro front back hqueue hnodup
    rcases List.cons_eq_append_iff.mp hqueue with ⟨rfl, -⟩ | ⟨front, rfl, rfl⟩
    · exact List.nil_prefix
    · rw [List.filterMap_cons_some v.key?_eq] at hnodup
      obtain ⟨hfirst, hnodup⟩ := List.nodup_cons.mp hnodup
      have hcongr : front.filterMap (Declaration.fresh? seen) =
          front.filterMap (Declaration.fresh? (v.key :: seen)) :=
        List.filterMap_congr fun d hd =>
          (fresh?_cons fun heq => hfirst (List.mem_filterMap.mpr ⟨d, hd, heq⟩)).symm
      rw [List.filterMap_cons_some (fresh?_visit hnew), hcongr, List.map_cons]
      refine (List.prefix_cons_inj _).mpr (ih front (back ++ v.below) ?_ hnodup)
      rw [List.append_assoc]

end Resolver

/-! ## Reading off and resolving -/

section Read

variable {m : EffectiveModel} {d : DeclaredDependency} {seen : List ArtifactKey}

/-- A dependency without problems is read off as it would be visited. -/
theorem filter_dependencyOf? (h : m.problems = []) (hd : d ∈ m.dependencies) :
    (EffectiveModel.dependencyOf? d).filter (fun e => decide (⟨e.groupId, e.artifactId⟩ ∉ seen)) =
      Declaration.fresh? seen ⟨⟨d, d.scope⟩, 1⟩ := by
  obtain ⟨key, version, hkey, hversion, hplain⟩ := EffectiveModel.exists_of_problems h hd
  have hnamed : Declaration.key? ⟨⟨d, d.scope⟩, 1⟩ = some key := hkey
  rw [EffectiveModel.dependencyOf?, Declaration.fresh?, hnamed, hkey, Option.map_some,
    Option.bind_some, hversion, Option.bind_some, Option.map_some, if_neg (by simp [hplain]),
    Option.filter_some]
  by_cases hseen : key ∈ seen <;> simp [hseen, Resolver.Pending.resolved]

theorem filter_toDependencies (h : m.problems = []) :
    m.toDependencies.filter (fun e => decide (⟨e.groupId, e.artifactId⟩ ∉ seen)) =
      (direct m).filterMap (Declaration.fresh? seen) := by
  rw [EffectiveModel.toDependencies, List.filter_filterMap, direct, List.filterMap_map]
  exact List.filterMap_congr fun d hd => filter_dependencyOf? h hd

theorem findSome?_staticProblem? (h : m.problems = []) :
    m.dependencies.findSome? Strategy.staticProblem? = none := by
  refine List.findSome?_eq_none_iff.mpr fun d hd => ?_
  obtain ⟨key, version, hkey, hversion, -⟩ := EffectiveModel.exists_of_problems h hd
  simp only [Strategy.staticProblem?, hkey, hversion]

/-- A model without ancestors to be loaded and without imports is built of the lineage alone. -/
theorem Resolver.eq_build_of_runs {r : Resolver} {selection : ProfileSelection} {lineage : List Pom}
    {s s' : PomStore} (hselection : r.selection = selection)
    (hroot : lineage.head?.bind (·.parent) = none)
    (himports : (EffectiveModel.build lineage selection).imports = [])
    (h : Runs (effectiveModel r lineage) s m s') : m = EffectiveModel.build lineage selection := by
  obtain ⟨whole, s₁, hcomplete, hrest⟩ := Action.runs_bind.mp h
  have hclimb : ∀ bound, climb r bound [] lineage = pure lineage := fun bound => by
    cases bound <;> simp only [climb, hroot]
  have hwhole : Runs (pure lineage : Resolving (List Pom)) s whole s₁ := by
    rw [← hclimb (s.loaded.entries.length + (PomStore.contents r.toPomSource s).length + 1)]
    exact hcomplete
  obtain ⟨rfl, rfl⟩ := Action.runs_pure.mp hwhole
  dsimp only at hrest
  rw [hselection, himports] at hrest
  exact (Action.runs_pure.mp hrest).1

end Read

namespace Strategy

/-- What a resolution amounts to. -/
def outcomeOf : Except BuildError (List Dependency) → StrategyOutcome
  | .ok ds => .resolved ds
  | .error cause => .unavailable cause.message

/-- The resolution of a project's dependencies in a repository. -/
def resolving (q : Query) (repository : String) : Resolving (List Dependency) :=
  (q.resolver repository).effectiveModel q.project.lineage >>= (q.resolver repository).resolve

theorem run_resolve {q : Query} {repository : String} (h : q.localRepository? = some repository)
    (state : QueryState) : (StateT.run (ExceptT.run (resolve q)) state).1 =
      .ok (outcomeOf
        (StateT.run (ExceptT.run (resolving q repository)) (.ofFiles state.files)).1) := by
  rw [resolve, h]
  cases hrun : StateT.run (ExceptT.run (resolving q repository)) (PomStore.ofFiles state.files) with
  | mk outcome store =>
    rw [Action.run_get_bind]
    dsimp only
    rw [resolving] at hrun
    rw [hrun]
    cases outcome <;> rfl

/-- A strategy that resolves and finds an answer has resolved the model of the project. -/
theorem exists_runs_resolve {q : Query} {state state' : QueryState} {ds : List Dependency}
    (h : Runs (resolve q) state (.resolved ds) state') :
    ∃ repository m s₁ s', Runs ((q.resolver repository).effectiveModel q.project.lineage)
      (.ofFiles state.files) m s₁ ∧ Runs ((q.resolver repository).resolve m) s₁ ds s' := by
  cases hrepository : q.localRepository? with
  | none =>
    rw [resolve, hrepository] at h
    cases (Action.runs_pure.mp h).1
  | some repository =>
    have hresult := run_resolve hrepository state
    rw [h] at hresult
    cases hrun : StateT.run (ExceptT.run (resolving q repository))
        (PomStore.ofFiles state.files) with
    | mk outcome store =>
      rw [hrun] at hresult
      cases outcome with
      | error cause => cases Except.ok.inj hresult
      | ok found =>
        obtain rfl : ds = found := StrategyOutcome.resolved.inj (Except.ok.inj hresult)
        obtain ⟨m, s₁, hmodel, hresolve⟩ := Action.runs_bind.mp hrun
        exact ⟨repository, m, s₁, store, hmodel, hresolve⟩

theorem exists_runs_of_resolving {q : Query} {repository : String} {state : QueryState}
    {ds : List Dependency} {store : PomStore} (hrepository : q.localRepository? = some repository)
    (h : Runs (resolving q repository) (.ofFiles state.files) ds store) :
    ∃ state', Runs (resolve q) state (.resolved ds) state' := by
  have hresult := run_resolve hrepository state
  rw [h] at hresult
  exact ⟨_, Prod.ext hresult rfl⟩

/-- Where the farthest document has no parent and nothing is imported, the dependencies that can be
    read off are those that resolving finds first, but for one on the project itself. -/
theorem readStatically_prefix {q : Query} {state state' : QueryState} {ds : List Dependency}
    (hroot : q.project.lineage.head?.bind (·.parent) = none)
    (himports :
      (EffectiveModel.build q.project.lineage q.project.request.selection).imports = [])
    (h : Runs (run q .resolver) state (.resolved ds) state') :
    ∃ own, (∀ t, Runs (run q .staticParse) t (.resolved own) t) ∧
      own.filter (fun e => decide (⟨e.groupId, e.artifactId⟩ ∉
        ownKey (EffectiveModel.build q.project.lineage q.project.request.selection))) <+: ds := by
  obtain ⟨repository, m, s₁, s', hmodel, hresolve⟩ := exists_runs_resolve h
  have hselection : (q.resolver repository).selection = q.project.request.selection := rfl
  have hbuild := Resolver.eq_build_of_runs hselection hroot himports hmodel
  rw [← hbuild]
  obtain ⟨visits, hvisits, rfl⟩ := Resolver.exists_visits hresolve
  have hproblems := Resolver.problems_of_resolve hresolve
  refine ⟨m.toDependencies, fun t => ?_, ?_⟩
  · have hread : readStatically q = .resolved m.toDependencies := by
      rw [readStatically, ← hbuild]
      simp only [findSome?_staticProblem? hproblems]
    exact Action.runs_pure.mpr ⟨hread.symm, rfl⟩
  · rw [filter_toDependencies hproblems]
    refine hvisits.front_prefix (direct m) [] (List.append_nil _).symm ?_
    have hkeys := EffectiveModel.nodup_keys_build q.project.lineage q.project.request.selection
    rw [← hbuild] at hkeys
    rwa [direct, List.filterMap_map]

/-- A project that depends on `g:a:1`. -/
def plainListing : String :=
  "<project><artifactId>r</artifactId><dependencies><dependency><groupId>g</groupId>" ++
  "<artifactId>a</artifactId><version>1</version></dependency></dependencies></project>"

/-- A query for its dependencies in a local repository. -/
def plainQuery : Query :=
  ⟨Project.new (Document.ofChars plainListing.toList) []
      { Request.standard with query := .safe, repository := some "/m2", offline := true },
    ⟨⟨⟨none, false⟩, "", fun _ _ => .error .notFound, ""⟩, Table.empty, .empty, none, false⟩⟩

/-- The files of a local repository that has nothing but the POM of `g:a:1`. -/
def plainFiles : FileTree :=
  FileTree.empty.writeAt ["m2", "g", "a", "1", "a-1.pom"] Resolver.emptyPom

theorem lineage_plainQuery : plainQuery.project.lineage =
    [⟨none, some "r", none, none, none, Table.empty,
      [⟨some "g", some "a", some "1", none, none, none, false, []⟩], [], []⟩] := by
  decide +kernel

theorem runs_resolving_plain : Runs (resolving plainQuery "/m2") (.ofFiles plainFiles)
    [⟨"g", "a", some "1", none, "jar", "compile"⟩]
    ⟨plainFiles, Table.ofList [(⟨"g", "a", "1"⟩,
      ⟨none, none, none, none, none, Table.empty, [], [], []⟩)], []⟩ := by
  have hmodel : Runs ((plainQuery.resolver "/m2").effectiveModel plainQuery.project.lineage)
      (.ofFiles plainFiles) (EffectiveModel.build plainQuery.project.lineage .none)
      (.ofFiles plainFiles) := by
    rw [lineage_plainQuery]
    decide +kernel
  refine Action.runs_bind.mpr ⟨_, _, hmodel, ?_⟩
  rw [lineage_plainQuery]
  refine Resolver.runs_resolve_of_rounds (n := 3) (by decide +kernel) ?_
  decide +kernel

theorem readStatically_prefix_plain :
    plainQuery.project.lineage.head?.bind (·.parent) = none ∧
    (EffectiveModel.build plainQuery.project.lineage plainQuery.project.request.selection).imports =
      [] ∧
    ∃ state', Runs (run plainQuery .resolver) (.ofFiles plainFiles)
        (.resolved [⟨"g", "a", some "1", none, "jar", "compile"⟩]) state' ∧
      ∃ own, (∀ t, Runs (run plainQuery .staticParse) t (.resolved own) t) ∧
        own.filter (fun e => decide (⟨e.groupId, e.artifactId⟩ ∉ ownKey
          (EffectiveModel.build plainQuery.project.lineage
            plainQuery.project.request.selection))) <+:
          [⟨"g", "a", some "1", none, "jar", "compile"⟩] := by
  have hroot : plainQuery.project.lineage.head?.bind (·.parent) = none := by
    rw [lineage_plainQuery]
    rfl
  have himports : (EffectiveModel.build plainQuery.project.lineage
      plainQuery.project.request.selection).imports = [] := by
    rw [lineage_plainQuery]
    decide +kernel
  have hruns : ∃ state', Runs (resolve plainQuery) (.ofFiles plainFiles)
      (.resolved [⟨"g", "a", some "1", none, "jar", "compile"⟩]) state' :=
    exists_runs_of_resolving rfl runs_resolving_plain
  obtain ⟨state', hruns⟩ := hruns
  exact ⟨hroot, himports, state', hruns, readStatically_prefix hroot himports hruns⟩

end Strategy

end MavenPom
