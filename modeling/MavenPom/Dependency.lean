import MavenPom.Project.Error
import MavenPom.Text.Cut

/-!
# Dependencies

A dependency with its defaults filled in, and its coordinate: the colon-separated text in which
the number of segments decides what each of them means.
-/

namespace MavenPom

/-- What tells one artifact from another: its version does not. -/
structure ArtifactKey where
  groupId : String
  artifactId : String
  deriving DecidableEq, Repr

/-- The key as `groupId:artifactId`. -/
def ArtifactKey.text (k : ArtifactKey) : String := k.groupId ++ ":" ++ k.artifactId

/-- The order of keys by group, then by artifact. -/
def ArtifactKey.le (a b : ArtifactKey) : Bool :=
  if a.groupId = b.groupId then a.artifactId ≤ b.artifactId else a.groupId ≤ b.groupId

structure Dependency where
  groupId : String
  artifactId : String
  version : Option String
  classifier : Option String
  packaging : String
  scope : String
  deriving DecidableEq, Repr

namespace Dependency

/-- A dependency on a jar, needed to compile. -/
def ofKey (key : ArtifactKey) (version : Option String) : Dependency :=
  ⟨key.groupId, key.artifactId, version, none, "jar", "compile"⟩

def key (d : Dependency) : ArtifactKey := ⟨d.groupId, d.artifactId⟩

/-- The coordinate, without classifier and scope. -/
def coordinate (d : Dependency) : String :=
  d.groupId ++ ":" ++ d.artifactId ++ ":" ++ d.packaging ++
    match d.version with
    | some v => ":" ++ v
    | none => ""

/-- A segment's text, unless it is empty. -/
def nonEmpty? (segment : String) : Option String :=
  if segment.isEmpty then none else some segment

/-- The packaging that a segment gives: `jar` when it is empty. -/
def packagingOf (segment : String) : String := (nonEmpty? segment).getD "jar"

/-- The dependency that the segments of a coordinate describe. -/
def ofSegments : List String → Except CoordinateFault Dependency
  | groupId :: artifactId :: version :: more =>
    if more.length > 3 then .error .tooManySegments
    else if groupId.isEmpty ∨ artifactId.isEmpty then .error .emptyName
    else
      let plain := ofKey ⟨groupId, artifactId⟩ none
      match more with
      | [] => .ok { plain with version := nonEmpty? version }
      | [last] => .ok { plain with packaging := packagingOf version, version := nonEmpty? last }
      | classifier :: last :: scope =>
        .ok { plain with
          packaging := packagingOf version
          classifier := nonEmpty? classifier
          version := nonEmpty? last
          scope := (scope.head?.bind nonEmpty?).getD plain.scope }
  | _ => .error .tooFewSegments

/-- Reads `g:a:v`, `g:a:packaging:v`, `g:a:packaging:classifier:v` or
    `g:a:packaging:classifier:v:scope`, with blanks around the segments. -/
def parse (text : String) : Except ProjectError Dependency :=
  match ofSegments ((Text.fields ':' (Text.trim text)).map Text.trim) with
  | .ok d => .ok d
  | .error fault => .error (.invalidCoordinate text fault)

end Dependency

end MavenPom
