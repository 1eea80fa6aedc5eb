import MavenPom.Maven.DependencyTree
import MavenPom.Maven.Run
import MavenPom.Project.Basic
import MavenPom.Repository.Environment
import MavenPom.Repository.Resolution
import MavenPom.Request.Basic

/-!
# Queries

What a query for a project's dependencies is about, what it works with, and what it has done so
far.
-/

namespace MavenPom

/-- What queries work with. -/
structure QueryEnvironment where
  maven : MavenSetting
  remote : Remote
  environment : MavenEnvironment
  /-- The local repository, unless the request names one. -/
  localRepository : Option String
  /-- Whether every query is offline. -/
  offline : Bool

/-- A project to be asked for its dependencies, and what is used for that. -/
structure Query where
  project : Project
  environment : QueryEnvironment

namespace Query

def localRepository? (q : Query) : Option String :=
  q.environment.environment.localRepository?
    (q.project.request.repository.or q.environment.localRepository)

def offline (q : Query) : Bool := q.project.request.offline || q.environment.offline

/-- Where POMs come from: from the local repository, and unless offline from the remote one. -/
def resolver (q : Query) (repository : String) : Resolver :=
  { repository
    remote := if q.offline then none else some q.environment.remote
    selection := q.project.request.selection }

end Query

/-- What a query has done so far. -/
structure QueryState where
  files : FileTree
  invocations : List Invocation
  /-- The paths asked of the remote repository. -/
  requests : List String
  answer : Option (List Dependency)
  deriving DecidableEq, Repr

/-- A step of a query. -/
abbrev Querying (α : Type) := Action QueryState RequestError α

namespace QueryState

/-- Nothing done yet. -/
def ofFiles (files : FileTree) : QueryState := ⟨files, [], [], none⟩

/-- A query changes no documents. -/
instance : Modifiable QueryState where
  isMutation _ := false
  markModified s := s

end QueryState

end MavenPom
