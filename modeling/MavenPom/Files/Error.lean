/-!
# Failures of the system

The kinds of failure that reading, writing or running a program can meet.
-/

namespace MavenPom

inductive IoError where
  | notFound
  | permissionDenied
  | timedOut
  | isADirectory
  | notADirectory
  | alreadyExists
  | invalidData
  /-- A path has a character that no path can have. -/
  | invalidInput
  /-- A path has a name that is too long. -/
  | invalidFilename
  deriving DecidableEq, Repr

/-- The failure as it is reported. -/
def IoError.message : IoError → String
  | .notFound => "No such file or directory (os error 2)"
  | .permissionDenied => "Permission denied (os error 13)"
  | .timedOut => "timed out"
  | .isADirectory => "Is a directory (os error 21)"
  | .notADirectory => "Not a directory (os error 20)"
  | .alreadyExists => "File exists (os error 17)"
  | .invalidData => "stream did not contain valid UTF-8"
  | .invalidInput => "file name contained an unexpected NUL byte"
  | .invalidFilename => "File name too long (os error 36)"

end MavenPom
