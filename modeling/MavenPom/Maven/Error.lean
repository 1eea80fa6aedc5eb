import MavenPom.Project.Error

/-!
# What goes wrong with builds

The causes for which Maven cannot be run or understood, or for which an artifact's model cannot be
had from a repository.
-/

namespace MavenPom

/-- How a run of a program that went wrong ended. -/
structure FailedRun where
  command : String
  /-- The exit code, unless a signal ended the run. -/
  code : Option Int
  errors : List String
  stdout : String
  stderr : String
  deriving DecidableEq, Repr

inductive BuildError where
  | io (cause : IoError)
  | commandFailed (run : FailedRun)
  | executableNotFound (name : String)
  | unreadableOutput (reason : String)
  | http (url message : String)
  | artifactMissing (coordinate reason : String)
  | invalidModel (coordinate : String) (problems : List String)
  | project (cause : ProjectError)
  deriving DecidableEq, Repr

/-- A list of errors after a message: one on its line, more on lines of their own. -/
def errorList : List String → String
  | [] => ""
  | [error] => ": " ++ error
  | errors => ":" ++ String.join (errors.map ("\n  " ++ ·))

/-- The exit code, as it is reported. -/
def FailedRun.codeText (r : FailedRun) : String :=
  match r.code with
  | some code => "Some(" ++ toString code ++ ")"
  | none => "None"

/-- The error as it is reported. -/
def BuildError.message : BuildError → String
  | .io cause => cause.message
  | .commandFailed run =>
    "maven command \x60" ++ run.command ++ "\x60 failed with exit code " ++ run.codeText ++
      errorList run.errors
  | .executableNotFound name => "could not find a \x60" ++ name ++ "\x60 executable"
  | .unreadableOutput reason => "failed to parse build output: " ++ reason
  | .http url message => "HTTP request for " ++ url ++ " failed: " ++ message
  | .artifactMissing coordinate reason =>
    "artifact " ++ coordinate ++ " is not available: " ++ reason
  | .invalidModel coordinate problems =>
    "invalid model for " ++ coordinate ++ ": " ++ "; ".intercalate problems
  | .project cause => cause.message

end MavenPom
