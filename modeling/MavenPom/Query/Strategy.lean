import MavenPom.Query.Basic

/-!
# Strategies

The ways in which a query finds dependencies: resolving them from repositories, having Maven print
them, or reading off those that the POMs declare themselves. A strategy that cannot answer says
why, and the next one is tried.
-/

namespace MavenPom

inductive Strategy where
  | resolver
  /-- Maven printing into a file. -/
  | embedder
  /-- Maven printing into its log. -/
  | invoker
  | staticParse
  deriving DecidableEq, Repr

inductive StrategyOutcome where
  | resolved (dependencies : List Dependency)
  | unavailable (reason : String)
  deriving DecidableEq, Repr

namespace Strategy

def name : Strategy → String
  | .resolver => "resolver"
  | .embedder => "embedder"
  | .invoker => "invoker"
  | .staticParse => "static-parse"

/-- Whether a strategy runs nothing of the project's. -/
def isSafe : Strategy → Bool
  | .resolver => true
  | .embedder => false
  | .invoker => false
  | .staticParse => true

/-- All strategies, those that are tried first before the others. -/
def all : List Strategy := [.resolver, .embedder, .invoker, .staticParse]

/-- The strategies that a request may use. -/
def selected : QueryType → List Strategy
  | .none => []
  | .safe => all.filter isSafe
  | .any => all

/-- Resolves dependencies from repositories. -/
def resolve (q : Query) : Querying StrategyOutcome := do
  match q.localRepository? with
  | none => pure (.unavailable "no local repository could be determined")
  | some repository => do
    let r := q.resolver repository
    let resolving : Resolving (List Dependency) := do
      r.resolve (← r.effectiveModel q.project.lineage)
    let (outcome, store) := StateT.run (ExceptT.run resolving) (PomStore.ofFiles (← get).files)
    modify fun s => { s with files := store.files, requests := s.requests ++ store.requests }
    match outcome with
    | .ok dependencies => pure (.resolved dependencies)
    | .error cause => pure (.unavailable cause.message)

/-- The dependencies in a printed tree, which must not be empty. -/
def treeDependencies (tree : String) : Except BuildError (List Dependency) :=
  if Text.isAllBlank tree then .error (.unreadableOutput "empty dependency tree output")
  else (TreeEntry.parse tree).map fun entries => entries.map (·.dependency)

/-- What a run of Maven that printed a tree, or failed to, amounts to. Maven's own failure without
    a tree is expected of a run that prints into a file. -/
def judge (s : Strategy) (mode : InvocationMode) (run : TreeRun) :
    Except RequestError StrategyOutcome :=
  let read := treeDependencies run.tree
  if run.output.succeeded then
    match read with
    | .ok dependencies => .ok (.resolved dependencies)
    | .error cause => .error (.strategyFailed s.name cause)
  else if mode = .embedded ∧ run.output.code = some 1 ∧ ¬read.isOk then
    .ok (.unavailable
      ("\x60" ++ run.command ++ "\x60 exited with code 1 without a dependency tree"))
  else .error (.strategyFailed s.name run.error)

/-- What is asked of Maven for a query. -/
def treeRequest (q : Query) (pom : String) : TreeRequest :=
  { pom
    localRepository := q.localRepository?
    offline := q.offline
    profiles := q.project.request.selection.argument? }

/-- Has Maven print the dependencies. -/
def askMaven (q : Query) (s : Strategy) (mode : InvocationMode) : Querying StrategyOutcome := do
  match q.project.target.source.path? with
  | none => pure (.unavailable "target POM is not a file on disk")
  | some pom => do
    let state ← get
    let running := q.environment.maven.dependencyTree state.files (treeRequest q pom) mode
    let (outcome, invocations) := StateT.run (ExceptT.run running) state.invocations
    set { state with invocations }
    match outcome with
    | .error (.executableNotFound name) =>
      pure (.unavailable ("Maven executable \x60" ++ name ++ "\x60 not found"))
    | .error cause => throw (.strategyFailed s.name cause)
    | .ok run =>
      match judge s mode run with
      | .ok outcome => pure outcome
      | .error e => throw e

/-- What keeps a dependency from being read off. -/
def staticProblem? (d : DeclaredDependency) : Option String :=
  match d.key?, d.version with
  | none, _ => some "a dependency is missing groupId or artifactId"
  | some key, none => some (key.text ++ " has no version and no managed version")
  | some _, some _ => none

/-- Reads off the dependencies that the project's POMs declare. -/
def readStatically (q : Query) : StrategyOutcome :=
  let m := EffectiveModel.build q.project.lineage q.project.request.selection
  match m.dependencies.findSome? staticProblem? with
  | some reason => .unavailable reason
  | none => .resolved m.toDependencies

/-- Tries a strategy. -/
def run (q : Query) : Strategy → Querying StrategyOutcome
  | .resolver => resolve q
  | .embedder => askMaven q .embedder .embedded
  | .invoker => askMaven q .invoker .external
  | .staticParse => pure (readStatically q)

end Strategy

end MavenPom
