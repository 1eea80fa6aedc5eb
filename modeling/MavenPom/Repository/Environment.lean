import MavenPom.Files.Path
import MavenPom.Table
import MavenPom.Text.Blank

/-!
# Maven's environment

The parts of a process's environment that decide where Maven keeps its local repository, and the
order in which they count.
-/

namespace MavenPom

/-- The system properties that Maven sees. -/
abbrev SystemProperties := Table String String

namespace SystemProperties

def isQuote (c : Char) : Bool := c == '"' || c == '\''

/-- The text without the quotes at either end. -/
def unquoted (cs : List Char) : String :=
  String.ofList (Text.dropEndWhile isQuote (cs.dropWhile isQuote))

/-- The property that an option `-Dname=value` defines, with the value `true` where none is
    given. -/
def definition? (option : String) : Option (String × String) :=
  (Text.strip? "-D".toList option.toList).bind fun definition =>
    let (name, value) := (Text.cut? ['='] definition).getD (definition, "true".toList)
    if name.isEmpty then none else some (String.ofList name, unquoted value)

/-- The properties with those that a text of options defines. -/
def addOptions (props : SystemProperties) (options : String) : SystemProperties :=
  ((Text.words options).filterMap definition?).foldl (fun t (name, value) => t.insert name value)
    props

end SystemProperties

structure MavenEnvironment where
  m2Repo : Option String
  systemProperties : SystemProperties
  home : Option String
  deriving DecidableEq, Repr

namespace MavenEnvironment

def empty : MavenEnvironment := ⟨none, Table.empty, none⟩

/-- The environment that a process's variables describe. A home that is set counts, even if it is
    empty, over the one of the user profile. -/
def ofVariables (valueOf? : String → Option String) : MavenEnvironment :=
  { m2Repo := (valueOf? "M2_REPO").filter (!·.isEmpty)
    systemProperties := ["JAVA_TOOL_OPTIONS", "MAVEN_OPTS"].foldl
      (fun props name => props.addOptions ((valueOf? name).getD "")) Table.empty
    home := ((valueOf? "HOME").or (valueOf? "USERPROFILE")).filter (!·.isEmpty) }

/-- The local repository: the one asked for, or else that of the first setting that there is. -/
def localRepository? (e : MavenEnvironment) (explicit : Option String) : Option String :=
  let configured := (e.systemProperties.get? "maven.repo.local").filter (!·.isEmpty)
  let standard := e.home.map fun home => Path.join (Path.join home ".m2") "repository"
  ((explicit.or e.m2Repo).or configured).or standard

end MavenEnvironment

end MavenPom
