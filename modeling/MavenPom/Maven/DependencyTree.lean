import MavenPom.Dependency
import MavenPom.Maven.Error
import MavenPom.Text.Cut

/-!
# Dependency trees as text

Reading the tree that Maven's `dependency:tree` prints, as it is in a file or as it is logged. The
first line that is a coordinate is the project itself. Each line below it has three columns for
every level, and the first that is no such line ends the tree.
-/

namespace MavenPom

/-- A dependency in a tree. Those of the project itself have depth 1. -/
structure TreeEntry where
  dependency : Dependency
  depth : Nat
  optional : Bool
  deriving DecidableEq, Repr

namespace TreeEntry

/-- The dependency that the parts of a coordinate describe: a classifier is given only together
    with a scope. -/
def ofParts? : List String → Option Dependency
  | [g, a, packaging, version] => some ⟨g, a, some version, none, packaging, "compile"⟩
  | [g, a, packaging, version, scope] => some ⟨g, a, some version, none, packaging, scope⟩
  | [g, a, packaging, classifier, version, scope] =>
    some ⟨g, a, some version, some classifier, packaging, scope⟩
  | _ => none

/-- The dependency whose coordinate is the first word of a line. -/
def coordinate? (line : List Char) : Option Dependency :=
  (Text.words (String.ofList line)).head?.bind fun word =>
    let parts := Text.fields ':' word
    if parts.contains "" then none else ofParts? parts

/-- The characters that draw a tree's branches. -/
def isBranch (c : Char) : Bool := c == '|' || c == '+' || c == '\\' || c == '-' || c == ' '

/-- A line without the mark of Maven's log. -/
def unlogged (line : List Char) : List Char :=
  let rest := (Text.strip? "[INFO] ".toList line).or (Text.strip? "[INFO]".toList line)
  Text.dropEndWhile Text.isBlank (rest.getD line)

/-- Whether a line is the heading under which Maven logs a tree. -/
def isHeading (line : List Char) : Bool :=
  Text.contains "maven-dependency-plugin" line && Text.contains ":tree" line

/-- The lines after the first heading, or all if there is none. -/
def afterHeading (lines : List (List Char)) : List (List Char) :=
  match lines.dropWhile (!isHeading ·) with
  | [] => lines
  | _ :: rest => rest

/-- The entries of the lines that are entries, up to the first that is none. A line with branches
    has to have a coordinate too. -/
def ofLines : List (List Char) → Except BuildError (List TreeEntry)
  | [] => .ok []
  | line :: rest =>
    let branches := line.takeWhile isBranch
    let body := line.dropWhile isBranch
    if branches.isEmpty ∨ body.isEmpty then .ok []
    else
      match coordinate? body with
      | none =>
        .error (.unreadableOutput
          ("unrecognized tree line \x60" ++ String.ofList line ++ "\x60"))
      | some dependency => do
        let entries ← ofLines rest
        return ⟨dependency, branches.length / 3, Text.contains "(optional" body⟩ :: entries

/-- The dependencies of a printed tree, without the project itself. -/
def parse (text : String) : Except BuildError (List TreeEntry) :=
  let lines := afterHeading ((Text.lines text).map unlogged)
  match lines.dropWhile fun line => (coordinate? line).isNone with
  | [] => .error (.unreadableOutput "no dependency tree root found")
  | _ :: below => ofLines below

end TreeEntry

end MavenPom
