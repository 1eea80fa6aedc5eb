import MavenPom.Chain
import MavenPom.Maven.Error
import MavenPom.Maven.Executable
import MavenPom.Text.Cut

/-!
# Running Maven

Having Maven print a project's dependency tree. What a program does when it is run is a parameter:
the outcome of each run, given the number of runs before it.
-/

/-!
## Maven's log

What Maven says about a failure. Its closing advice is the same for every build and is left out,
with all that follows it.
-/

namespace MavenPom.Log

/-- The beginning of Maven's closing advice. -/
def advice : List Char := "To see the full stack trace of the errors".toList

/-- The message of an error line. -/
def errorMessage? (line : List Char) : Option (List Char) :=
  (Text.strip? "[ERROR]".toList (Text.dropEndWhile Text.isBlank line)).map Text.trimChars

/-- The messages of the error lines before the closing advice. Empty ones are left out. -/
def errorsOf (stdout stderr : String) : List String :=
  let messages := (Text.lines stdout ++ Text.lines stderr).filterMap errorMessage?
  ((messages.takeWhile fun m => !advice.isPrefixOf m).filter (!·.isEmpty)).map String.ofList

end MavenPom.Log

/-! ## Runs -/

namespace MavenPom

structure Invocation where
  directory : String
  program : String
  arguments : List String
  deriving DecidableEq, Repr

/-- What a run leaves behind. -/
structure RunOutput where
  /-- The exit code, unless a signal ended the run. -/
  code : Option Int
  stdout : String
  stderr : String
  /-- The file that the run was told to write. -/
  written : Option Bytes
  deriving DecidableEq, Repr

def RunOutput.succeeded (o : RunOutput) : Bool := o.code == some 0

/-- What programs do. -/
abbrev Runner := Nat → Invocation → Except IoError RunOutput

/-- How the tree is printed. -/
inductive InvocationMode where
  /-- Into a file, and nothing else is logged. -/
  | embedded
  /-- Into the log. -/
  | external
  deriving DecidableEq, Repr

structure TreeRequest where
  pom : String
  localRepository : Option String
  offline : Bool
  /-- Profiles as the argument of Maven's `-P`. -/
  profiles : Option String
  deriving DecidableEq, Repr

namespace TreeRequest

/-- The arguments for a run that prints into `treeFile` or the log. -/
def arguments (r : TreeRequest) (mode : InvocationMode) (treeFile : String) : List String :=
  ["-B"] ++ (if mode = .embedded then ["-q"] else []) ++ ["-f", r.pom] ++
    (r.localRepository.map ("-Dmaven.repo.local=" ++ ·)).toList ++
    (if r.offline then ["-o"] else []) ++
    (match r.profiles with
      | some profiles => ["-P", profiles]
      | none => []) ++
    ["dependency:tree"] ++
    if mode = .embedded then
      ["-DoutputFile=" ++ treeFile, "-DoutputType=text", "-DappendOutput=false"]
    else []

end TreeRequest

/-- A run that was to print a tree. -/
structure TreeRun where
  command : String
  output : RunOutput
  /-- The printed text. -/
  tree : String
  deriving DecidableEq, Repr

/-- The run as an error. -/
def TreeRun.error (r : TreeRun) : BuildError :=
  .commandFailed
    { command := r.command
      code := r.output.code
      errors := Log.errorsOf r.output.stdout r.output.stderr
      stdout := r.output.stdout
      stderr := r.output.stderr }

/-- What Maven is run with. -/
structure MavenSetting where
  config : MavenConfig
  /-- The directories for programs, parted by colons. -/
  searchPath : String
  runner : Runner
  /-- A new file for a tree to be printed into. -/
  treeFile : String

namespace MavenSetting

/-- The printed text: that of the file, if it is text at all, or the log. -/
def printed (mode : InvocationMode) (o : RunOutput) : String :=
  match mode with
  | .embedded => ((o.written.bind Utf8.decode).map String.ofList).getD ""
  | .external => o.stdout

/-- Has Maven print the dependency tree of a POM. A run that fails is no error of this; a program
    that cannot be run is. All invocations are kept. -/
def dependencyTree (m : MavenSetting) (files : FileTree) (r : TreeRequest)
    (mode : InvocationMode) : Action (List Invocation) BuildError TreeRun := do
  let directory := Path.directory r.pom
  match m.config.locate files m.searchPath directory with
  | none => throw (.executableNotFound "mvn")
  | some program => do
    let arguments := r.arguments mode m.treeFile
    let invocation : Invocation := ⟨directory, program, arguments⟩
    let earlier ← get
    set (earlier ++ [invocation])
    match m.runner earlier.length invocation with
    | .error .notFound => throw (.executableNotFound program)
    | .error cause => throw (.io cause)
    | .ok output =>
      pure ⟨" ".intercalate (program :: arguments), output, printed mode output⟩

end MavenSetting

end MavenPom
