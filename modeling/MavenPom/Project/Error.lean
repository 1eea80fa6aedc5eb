import MavenPom.Files.Error
import MavenPom.Markup.Error

/-!
# What is wrong with a project

The causes for which a POM, a hierarchy of POMs or a coordinate cannot be used.
-/

namespace MavenPom

/-- Why a path to a parent is refused. -/
inductive PathFault where
  /-- The file is already part of the hierarchy. -/
  | loop
  /-- The path leads out of the project's directory. -/
  | escapesBoundary
  /-- Absolute and home-relative paths are never followed. -/
  | absolute
  deriving DecidableEq, Repr

def PathFault.message : PathFault → String
  | .loop => "parent hierarchy loops back to an already loaded POM"
  | .escapesBoundary => "path escapes the top-level project directory"
  | .absolute => "absolute parent paths are not allowed"

/-- Why a text is no coordinate. -/
inductive CoordinateFault where
  | tooFewSegments
  | tooManySegments
  | emptyName
  deriving DecidableEq, Repr

def CoordinateFault.message : CoordinateFault → String
  | .tooFewSegments => "expected at least groupId:artifactId:version"
  | .tooManySegments => "too many segments"
  | .emptyName => "groupId and artifactId must not be empty"

inductive ProjectError where
  | unreadable (path : String) (cause : IoError)
  /-- The document at `location` is no readable markup. -/
  | malformed (location : String) (cause : Markup.Error)
  /-- The document at `location` is not well-formed, though its markup can be read. -/
  | notWellFormed (location : String)
  | invalidPath (path : String) (fault : PathFault)
  | invalidCoordinate (text : String) (fault : CoordinateFault)
  | fetch (url message : String)
  | model (message : String)
  deriving DecidableEq, Repr

/-- The error as it is reported. -/
def ProjectError.message : ProjectError → String
  | .unreadable path cause => "failed to read " ++ path ++ ": " ++ cause.message
  | .malformed location cause => "failed to parse XML in " ++ location ++ ": " ++ cause.message
  | .notWellFormed location => "failed to parse POM " ++ location
  | .invalidPath path fault => "invalid parent path " ++ path ++ ": " ++ fault.message
  | .invalidCoordinate text fault =>
    "invalid dependency coordinate \x60" ++ text ++ "\x60: " ++ fault.message
  | .fetch url message => "failed to fetch " ++ url ++ ": " ++ message
  | .model message => "invalid project model: " ++ message

end MavenPom
