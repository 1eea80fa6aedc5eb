import MavenPom.Proofs.Query.Direct

/-!
# Queries without Maven

A query that may use nothing but safe strategies runs no program, and whatever the project's POMs
are it fails only where its local repository cannot be made. What it finds are the dependencies that
the resolver resolves, or else those that can be read off, or else none. Any other query does the
same where the resolver answers.
-/

namespace MavenPom

open MavenPom.Action (Runs)

namespace Chain

variable {σ ε : Type} [Modifiable σ] {commands : List (Command σ ε)}

theorem run_forward_cons (c : Command σ ε) (ran rest : List (Command σ ε)) (s : σ) :
    StateT.run (ExceptT.run (forward ran (c :: rest))) s =
      match StateT.run (ExceptT.run c.execute) s with
      | (.ok .handled, s') => (.ok (c :: ran, true), noteHandled c s')
      | (.ok .notApplicable, s') => StateT.run (ExceptT.run (forward (c :: ran) rest)) s'
      | (.error e, s') => (.error e, s') := by
  rw [forward, Action.run_bind]
  rcases StateT.run (ExceptT.run c.execute) s with ⟨⟨e⟩ | ⟨⟨⟩ | ⟨⟩⟩, s'⟩
  · rfl
  · rfl
  · rfl

/-- Where no command has anything left to do on the way out, a chain ends with its way in. -/
theorem run_run_of_quiet (h : ∀ c ∈ commands, c.postProcess = pure false) (s : σ) :
    StateT.run (ExceptT.run (run commands)) s =
      ((StateT.run (ExceptT.run (forward [] commands)) s).1.map (·.2),
        (StateT.run (ExceptT.run (forward [] commands)) s).2) := by
  unfold run
  rw [Action.run_bind]
  cases hforward : StateT.run (ExceptT.run (forward [] commands)) s with
  | mk result s' =>
    cases result with
    | error e => rfl
    | ok ended =>
      obtain ⟨ran, handled⟩ := ended
      have hquiet : ∀ c ∈ ran, c.postProcess = pure false := fun c hc =>
        h c ((mem_of_runs_forward hforward c hc).resolve_left List.not_mem_nil)
      have hback : backward (ran ++ []) = (pure () : Action σ ε Unit) := backward_append hquiet
      rw [List.append_nil] at hback
      dsimp only
      rw [hback]
      rfl

end Chain

namespace EffectiveModel

/-- Every dependency has a group, an artifact and a version. -/
def IsComplete (m : EffectiveModel) : Prop :=
  ∀ d ∈ m.dependencies, d.groupId.isSome ∧ d.artifactId.isSome ∧ d.version.isSome

instance (m : EffectiveModel) : Decidable m.IsComplete :=
  inferInstanceAs (Decidable (∀ d ∈ m.dependencies, _))

theorem staticProblem?_eq_none {d : DeclaredDependency} :
    Strategy.staticProblem? d = none ↔
      d.groupId.isSome ∧ d.artifactId.isSome ∧ d.version.isSome := by
  rw [Strategy.staticProblem?, DeclaredDependency.key?]
  cases d.groupId <;> cases d.artifactId <;> cases d.version <;> simp

theorem isComplete_iff {m : EffectiveModel} :
    m.IsComplete ↔ m.dependencies.findSome? Strategy.staticProblem? = none := by
  simp only [IsComplete, List.findSome?_eq_none_iff, staticProblem?_eq_none]

end EffectiveModel

namespace Query

variable {q : Query} {files : FileTree}

/-! ## What there is to find -/

/-- The files once the local repository is made. -/
def prepare (q : Query) (files : FileTree) : Except RequestError FileTree :=
  match q.localRepository? with
  | none => .ok files
  | some repository =>
    match StateT.run (ExceptT.run (FileTree.makeDirectories repository)) files with
    | (.ok _, made) => .ok made
    | (.error cause, _) => .error (.project (.unreadable repository cause))

/-- What the resolver resolves. -/
def resolved? (q : Query) (files : FileTree) : Option (List Dependency) :=
  q.localRepository?.bind fun repository =>
    (StateT.run (ExceptT.run (Strategy.resolving q repository)) (.ofFiles files)).1.toOption

/-- What can be read off, if the project's model is complete. -/
def readOff? (q : Query) : Option (List Dependency) :=
  let m := EffectiveModel.build q.project.lineage q.project.request.selection
  if m.IsComplete then some m.toDependencies else none

/-- The query with another Maven, or with another way to run it. -/
def withMaven (q : Query) (maven : MavenSetting) : Query :=
  { q with environment := { q.environment with maven } }

/-! ## What the commands do -/

/-- A query changes no documents, so there is nothing to take note of. -/
@[simp] theorem noteHandled_eq (c : Command QueryState RequestError) (s : QueryState) :
    Chain.noteHandled c s = s := by
  rw [Chain.noteHandled]
  have hmutation : Modifiable.isMutation s = false := rfl
  rw [hmutation, Bool.and_false, if_neg Bool.false_ne_true]

theorem run_makeRepository (q : Query) (s : QueryState) :
    match q.prepare s.files with
    | .ok made => StateT.run (ExceptT.run q.makeRepository.execute) s =
        (.ok .notApplicable, { s with files := made })
    | .error e => ∃ files, StateT.run (ExceptT.run q.makeRepository.execute) s =
        (.error e, { s with files }) := by
  rw [prepare, makeRepository]
  dsimp only
  cases q.localRepository? with
  | none => rfl
  | some repository =>
    dsimp only
    rw [Action.run_bind, Action.run_onPart]
    rcases StateT.run (ExceptT.run (FileTree.makeDirectories repository)) s.files with
      ⟨⟨cause⟩ | ⟨⟩, made⟩
    · exact ⟨made, rfl⟩
    · rfl

/-- Resolving touches the files of repositories and asks for some, whatever comes of it. -/
theorem run_attempt_resolver (q : Query) (s : QueryState) :
    ∃ files requests, StateT.run (ExceptT.run (q.attempt .resolver).execute) s =
      match q.resolved? s.files with
      | some ds => (.ok .handled, { s with files, requests, answer := some ds })
      | none => (.ok .notApplicable, { s with files, requests }) := by
  rw [attempt, resolved?]
  dsimp only [Strategy.run, Strategy.resolve]
  rw [Action.run_bind]
  cases q.localRepository? with
  | none => exact ⟨s.files, s.requests, rfl⟩
  | some repository =>
    rw [Action.run_get_bind, Option.bind_some, ← Strategy.resolving]
    rcases StateT.run (ExceptT.run (Strategy.resolving q repository)) (.ofFiles s.files) with
      ⟨⟨cause⟩ | ⟨ds⟩, store⟩
    · exact ⟨store.files, s.requests ++ store.requests, rfl⟩
    · exact ⟨store.files, s.requests ++ store.requests, rfl⟩

theorem readStatically_eq (q : Query) :
    (∃ reason, Strategy.readStatically q = .unavailable reason ∧ q.readOff? = none) ∨
      ∃ ds, Strategy.readStatically q = .resolved ds ∧ q.readOff? = some ds := by
  rw [Strategy.readStatically, readOff?]
  simp only [EffectiveModel.isComplete_iff]
  split
  · next reason hproblem => exact .inl ⟨reason, rfl, by simp [hproblem]⟩
  · next hnone => exact .inr ⟨_, rfl, by simp [hnone]⟩

theorem run_attempt_staticParse (q : Query) (s : QueryState) :
    StateT.run (ExceptT.run (q.attempt .staticParse).execute) s =
      match q.readOff? with
      | some ds => (.ok .handled, { s with answer := some ds })
      | none => (.ok .notApplicable, s) := by
  rw [attempt]
  dsimp only [Strategy.run]
  rcases readStatically_eq q with ⟨reason, hread, hoff⟩ | ⟨ds, hread, hoff⟩
  · rw [hread, hoff]
    rfl
  · rw [hread, hoff]
    rfl

/-! ## The run of a query -/

/-- The commands of a query that may not run Maven. -/
def safeCommands (q : Query) : List (Command QueryState RequestError) :=
  [q.makeRepository, q.attempt .resolver, q.attempt .staticParse]

/-- The query does without Maven: it may not use it, or the resolver answers first. -/
def DoesWithoutMaven (q : Query) (files : FileTree) : Prop :=
  q.project.request.query = .safe ∨
    q.project.request.query = .any ∧
      ∀ made, q.prepare files = .ok made → (q.resolved? made).isSome

theorem isMutation_of_doesWithoutMaven (h : q.DoesWithoutMaven files) :
    q.project.request.isMutation = false := by
  rcases h with h | ⟨h, -⟩
  · simp [Request.isMutation, h]
  · simp [Request.isMutation, h]

theorem quiet_commands (q : Query) : ∀ c ∈ q.commands, c.postProcess = pure false := by
  intro c hc
  rcases List.mem_cons.mp hc with rfl | hc
  · rfl
  · obtain ⟨strategy, -, rfl⟩ := List.mem_map.mp hc
    rfl

/-- What is given once the strategies were tried, and the state that is left. -/
def conclude {α : Type} (tried : Except RequestError α × QueryState) :
    Except RequestError (List Dependency) × QueryState :=
  (tried.1.map fun _ => tried.2.answer.getD [], tried.2)

theorem run_eq_conclude (hquery : q.project.request.isMutation = false) (s : QueryState) :
    StateT.run (ExceptT.run q.run) s =
      conclude (StateT.run (ExceptT.run (Chain.forward [] q.commands)) s) := by
  rw [run, hquery, if_neg Bool.false_ne_true, Action.run_bind,
    Chain.run_run_of_quiet q.quiet_commands]
  rcases StateT.run (ExceptT.run (Chain.forward [] q.commands)) s with ⟨⟨e⟩ | ⟨ended⟩, s'⟩
  · rfl
  · rfl

/-- The strategies that run Maven are not come to. -/
theorem forward_commands (h : q.DoesWithoutMaven files) :
    StateT.run (ExceptT.run (Chain.forward [] q.commands)) (.ofFiles files) =
      StateT.run (ExceptT.run (Chain.forward [] q.safeCommands)) (.ofFiles files) := by
  rcases h with hsafe | ⟨hany, hanswers⟩
  · rw [commands, hsafe]
    rfl
  · have hcommands : q.commands = q.makeRepository :: q.attempt .resolver ::
        [q.attempt .embedder, q.attempt .invoker, q.attempt .staticParse] := by
      rw [commands, hany]
      rfl
    have hmake := q.run_makeRepository (.ofFiles files)
    rw [hcommands, safeCommands, Chain.run_forward_cons, Chain.run_forward_cons]
    cases hprepare : q.prepare files with
    | error e =>
      rw [show (QueryState.ofFiles files).files = files from rfl, hprepare] at hmake
      obtain ⟨files', hmake⟩ := hmake
      rw [hmake]
    | ok made =>
      rw [show (QueryState.ofFiles files).files = files from rfl, hprepare] at hmake
      rw [hmake]
      dsimp only
      obtain ⟨ds, hds⟩ := Option.isSome_iff_exists.mp (hanswers made hprepare)
      obtain ⟨files', requests, hresolver⟩ :=
        q.run_attempt_resolver { QueryState.ofFiles files with files := made }
      rw [hds] at hresolver
      rw [Chain.run_forward_cons, Chain.run_forward_cons, hresolver]

/-- What comes of the safe strategies. -/
theorem conclude_safeCommands (q : Query) (files : FileTree) :
    ∃ files' requests answer,
      conclude (StateT.run (ExceptT.run (Chain.forward [] q.safeCommands)) (.ofFiles files)) =
        ((q.prepare files).map fun made => ((q.resolved? made).or q.readOff?).getD [],
          ⟨files', [], requests, answer⟩) := by
  have hmake := q.run_makeRepository (.ofFiles files)
  rw [safeCommands, Chain.run_forward_cons]
  cases hprepare : q.prepare files with
  | error e =>
    rw [show (QueryState.ofFiles files).files = files from rfl, hprepare] at hmake
    obtain ⟨files', hmake⟩ := hmake
    rw [hmake]
    exact ⟨files', [], none, rfl⟩
  | ok made =>
    rw [show (QueryState.ofFiles files).files = files from rfl, hprepare] at hmake
    rw [hmake]
    obtain ⟨files', requests, hresolver⟩ :=
      q.run_attempt_resolver { QueryState.ofFiles files with files := made }
    dsimp only [Except.map]
    rw [Chain.run_forward_cons, hresolver]
    dsimp only
    cases q.resolved? made with
    | some ds => exact ⟨files', requests, some ds, rfl⟩
    | none =>
      dsimp only
      rw [Chain.run_forward_cons, run_attempt_staticParse]
      cases q.readOff? with
      | some ds => exact ⟨files', requests, some ds, rfl⟩
      | none => exact ⟨files', requests, none, rfl⟩

/-- A query that does without Maven runs no program, and it gives the same and leaves the same with
    any other Maven. It fails exactly where the local repository cannot be made. Otherwise it
    gives what the resolver resolves, or else what can be read off, or else nothing. -/
theorem run_without_maven (h : q.DoesWithoutMaven files) :
    (StateT.run (ExceptT.run q.run) (.ofFiles files)).2.invocations = [] ∧
    (∀ maven, StateT.run (ExceptT.run (q.withMaven maven).run) (.ofFiles files) =
      StateT.run (ExceptT.run q.run) (.ofFiles files)) ∧
    (StateT.run (ExceptT.run q.run) (.ofFiles files)).1 =
      (q.prepare files).map fun made => ((q.resolved? made).or q.readOff?).getD [] := by
  have hrun {p : Query} (hp : p.DoesWithoutMaven files) :
      StateT.run (ExceptT.run p.run) (.ofFiles files) =
        conclude (StateT.run (ExceptT.run (Chain.forward [] p.safeCommands)) (.ofFiles files)) := by
    rw [run_eq_conclude (isMutation_of_doesWithoutMaven hp), forward_commands hp]
  obtain ⟨files', requests, answer, hconclude⟩ := q.conclude_safeCommands files
  refine ⟨?_, fun maven => ?_, ?_⟩
  · rw [hrun h, hconclude]
  · have hother : (q.withMaven maven).DoesWithoutMaven files := h
    have hcommands : (q.withMaven maven).safeCommands = q.safeCommands := rfl
    rw [hrun hother, hrun h, hcommands]
  · rw [hrun h, hconclude]

/-- The query of a project that may use Maven. -/
def anyhow (q : Query) : Query :=
  { q with project := { q.project with request := { q.project.request with query := .any } } }

theorem prepare_plain : Strategy.plainQuery.prepare Strategy.plainFiles =
    .ok Strategy.plainFiles := by
  decide +kernel

theorem resolved?_plain : Strategy.plainQuery.resolved? Strategy.plainFiles =
    some [⟨"g", "a", some "1", none, "jar", "compile"⟩] := by
  have hrepository : Strategy.plainQuery.localRepository? = some "/m2" := rfl
  rw [resolved?, hrepository, Option.bind_some, Strategy.runs_resolving_plain]
  rfl

/-- The query for the dependencies of a project resolves them, also where it may use Maven. -/
theorem run_without_maven_plain :
    (Strategy.plainQuery.project.request.query = .safe ∧
      (StateT.run (ExceptT.run Strategy.plainQuery.run) (.ofFiles Strategy.plainFiles)).1 =
        .ok [⟨"g", "a", some "1", none, "jar", "compile"⟩]) ∧
    (Strategy.plainQuery.anyhow.project.request.query = .any ∧
      (StateT.run (ExceptT.run Strategy.plainQuery.anyhow.run)
        (.ofFiles Strategy.plainFiles)).2.invocations = [] ∧
      (StateT.run (ExceptT.run Strategy.plainQuery.anyhow.run) (.ofFiles Strategy.plainFiles)).1 =
        .ok [⟨"g", "a", some "1", none, "jar", "compile"⟩]) := by
  have hresult : ((Strategy.plainQuery.prepare Strategy.plainFiles).map fun made =>
      ((Strategy.plainQuery.resolved? made).or Strategy.plainQuery.readOff?).getD []) =
        .ok [⟨"g", "a", some "1", none, "jar", "compile"⟩] := by
    rw [prepare_plain]
    dsimp only [Except.map]
    rw [resolved?_plain]
    rfl
  have hanswers : ∀ made, Strategy.plainQuery.anyhow.prepare Strategy.plainFiles = .ok made →
      (Strategy.plainQuery.anyhow.resolved? made).isSome := by
    intro made hmade
    obtain rfl := Except.ok.inj (prepare_plain.symm.trans hmade)
    exact Option.isSome_iff_exists.mpr ⟨_, resolved?_plain⟩
  obtain ⟨-, -, hsafe⟩ :=
    @run_without_maven Strategy.plainQuery Strategy.plainFiles (.inl rfl)
  obtain ⟨hinvocations, -, hany⟩ :=
    @run_without_maven Strategy.plainQuery.anyhow Strategy.plainFiles (.inr ⟨rfl, hanswers⟩)
  exact ⟨⟨rfl, hsafe.trans hresult⟩, rfl, hinvocations, hany.trans hresult⟩

end Query

end MavenPom
