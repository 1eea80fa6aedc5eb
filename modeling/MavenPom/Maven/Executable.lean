import MavenPom.Files.Path
import MavenPom.Files.Tree

/-!
# Maven's executable

Which program runs Maven for a project: the configured one, then the wrapper that the project or a
directory above it holds, then one of the directories for programs.
-/

namespace MavenPom

structure MavenConfig where
  /-- The program to run. A bare name is looked up among the directories for programs. -/
  executable : Option String
  /-- Whether a wrapper that the project holds counts over an installed Maven. -/
  preferWrapper : Bool
  deriving DecidableEq, Repr

namespace MavenConfig

def standard : MavenConfig := ⟨none, true⟩

/-- The first file of one of the names in the directories of a search path, which colons part. -/
def findInPath (files : FileTree) (searchPath : String) (names : List String) : Option String :=
  ((Text.fields ':' searchPath).flatMap fun dir => names.map (Path.join dir)).find? files.isFile

/-- The nearest wrapper in a directory and those above it. -/
def findWrapper (files : FileTree) (projectDir : String) : Option String :=
  ((Path.ancestors projectDir).map fun dir => Path.join dir "mvnw").find? files.isFile

/-- The program that runs Maven for the project in a directory. -/
def locate (c : MavenConfig) (files : FileTree) (searchPath projectDir : String) :
    Option String :=
  match c.executable with
  | some executable =>
    if Path.isBare executable then findInPath files searchPath [executable]
    else if files.isFile executable then some executable
    else none
  | none =>
    let wrapper := if c.preferWrapper then findWrapper files projectDir else none
    wrapper.or (findInPath files searchPath ["mvn", "mvnw"])

end MavenConfig

end MavenPom
