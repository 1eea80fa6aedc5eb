import MavenPom.Query.Basic
import MavenPom.Settings.Basic

/-!
# Queries under settings

What queries work with as far as settings say it. All else is left as it is.
-/

namespace MavenPom

namespace QueryEnvironment

/-- No program can be run, no POM can be fetched and no variable is set. -/
def isolated : QueryEnvironment :=
  { maven := ⟨MavenConfig.standard, "", fun _ _ => .error .notFound, "dependency-tree.txt"⟩
    remote := Table.empty
    environment := MavenEnvironment.empty
    localRepository := none
    offline := false }

/-- The environment with what settings say about Maven. -/
def configured (e : QueryEnvironment) (s : Settings) : QueryEnvironment :=
  { e with
    maven := { e.maven with config := s.maven.config }
    localRepository := s.maven.localRepository
    offline := s.maven.offline }

end QueryEnvironment

end MavenPom
