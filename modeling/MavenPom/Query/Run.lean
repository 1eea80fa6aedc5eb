import MavenPom.Query.Strategy

/-!
# Running queries

Trying strategies in their order until one answers. A query that none answers finds nothing.
-/

namespace MavenPom.Query

/-- Makes the local repository, before any strategy needs it. -/
def makeRepository (q : Query) : Command QueryState RequestError where
  name := "check-local-repository"
  isSupport := true
  execute := do
    match q.localRepository? with
    | none => pure .notApplicable
    | some repository => do
      Action.onPart QueryState.files (fun s files => { s with files })
        (fun cause => .project (.unreadable repository cause)) (FileTree.makeDirectories repository)
      pure .notApplicable
  postProcess := pure false

/-- The command that tries a strategy. -/
def attempt (q : Query) (s : Strategy) : Command QueryState RequestError where
  name := s.name
  isSupport := false
  execute := do
    match ← s.run q with
    | .unavailable _ => pure .notApplicable
    | .resolved dependencies => do
      modify fun state => { state with answer := some dependencies }
      pure .handled
  postProcess := pure false

/-- The commands of a query. -/
def commands (q : Query) : List (Command QueryState RequestError) :=
  q.makeRepository :: (Strategy.selected q.project.request.query).map q.attempt

/-- The dependencies of the query's project. A request for no dependencies finds none. -/
def run (q : Query) : Querying (List Dependency) := do
  if q.project.request.isMutation then pure []
  else do
    let _ ← Chain.run q.commands
    pure ((← get).answer.getD [])

end MavenPom.Query
