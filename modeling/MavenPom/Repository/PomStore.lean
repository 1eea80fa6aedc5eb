import MavenPom.Chain
import MavenPom.Files.Path
import MavenPom.Files.Tree
import MavenPom.Maven.Error
import MavenPom.Pom.Basic

/-!
# POMs from repositories

Reading POMs from a local repository, from where the file of an artifact is in it. Those it lacks
are fetched from a remote one and kept in the local one, unless the build is offline. No POM is read
or asked for again once it is loaded.
-/

namespace MavenPom.Repository

/-- A group's directory: its dots part directories. -/
def groupPath (groupId : String) : String :=
  groupId.map fun c => if c = '.' then '/' else c

/-- The path of an artifact's file, relative to the repository. -/
def artifactPath (groupId artifactId version : String) (classifier : Option String)
    (extension : String) : String :=
  let stem := artifactId ++ "-" ++ version
  let name := match classifier with
    | some c => stem ++ "-" ++ c
    | none => stem
  groupPath groupId ++ "/" ++ artifactId ++ "/" ++ version ++ "/" ++ name ++ "." ++ extension

/-- The path of an artifact's POM, relative to the repository. -/
def pomPath (groupId artifactId version : String) : String :=
  artifactPath groupId artifactId version none "pom"

/-- The path of an artifact's POM in a repository. -/
def pomFile (repository groupId artifactId version : String) : String :=
  (Text.fields '/' (pomPath groupId artifactId version)).foldl Path.join repository

end MavenPom.Repository

namespace MavenPom

/-- What a remote repository answers, by the path of a file. All other files it does not have. -/
abbrev Remote := Table String (Except BuildError Bytes)

/-- What names one POM. -/
structure PomKey where
  groupId : String
  artifactId : String
  version : String
  deriving DecidableEq, Repr

/-- The key as `groupId:artifactId:version`. -/
def PomKey.text (k : PomKey) : String := k.groupId ++ ":" ++ k.artifactId ++ ":" ++ k.version

/-- The files, the POMs loaded from them, and the paths asked of the remote repository. -/
structure PomStore where
  files : FileTree
  loaded : Table PomKey Pom
  requests : List String
  deriving DecidableEq, Repr

/-- Where POMs come from. -/
structure PomSource where
  /-- The local repository's directory. -/
  repository : String
  /-- The remote repository, unless the build is offline. -/
  remote : Option Remote

namespace PomStore

/-- A store of nothing but files. -/
def ofFiles (files : FileTree) : PomStore := ⟨files, Table.empty, []⟩

/-- Whether a version is a range or is not interpolated, so that it names no one POM. -/
def isOpen (version : String) : Bool :=
  (match version.toList.head? with
    | some c => c == '[' || c == '('
    | none => false) || Pom.opensReference version

/-- Puts a file at a path, in a directory that is made for it. -/
def keep (path : String) (content : Bytes) : Action FileTree IoError Unit :=
  match Path.parent? path with
  | none => throw .notFound
  | some dir => do
    FileTree.makeDirectories dir
    let files ← get
    match files.target path with
    | .error cause => throw cause
    | .ok (l, _) =>
      if files.isDirectoryAt l then throw .isADirectory else set (files.put l (.file content))

/-- Fetches a POM that the local repository lacks, and keeps it there. -/
def fetch (source : PomSource) (key : PomKey) (path : String) :
    Action PomStore BuildError Bytes := do
  match source.remote with
  | none => throw (.artifactMissing key.text "not in the local repository and offline")
  | some remote => do
    let relative := Repository.pomPath key.groupId key.artifactId key.version
    modify fun s => { s with requests := s.requests ++ [relative] }
    match remote.get? relative with
    | none => throw (.artifactMissing key.text "not found in the remote repository")
    | some (.error cause) => throw cause
    | some (.ok content) => do
      Action.onPart files (fun s files => { s with files }) .io (keep path content)
      pure content

/-- The content of a POM's file. -/
def content (source : PomSource) (key : PomKey) : Action PomStore BuildError Bytes := do
  let path := Repository.pomFile source.repository key.groupId key.artifactId key.version
  let files := (← get).files
  if files.isFile path then
    match files.read path with
    | .ok content => pure content
    | .error cause => throw (.io cause)
  else fetch source key path

/-- Loads a POM. -/
def load (source : PomSource) (key : PomKey) : Action PomStore BuildError Pom := do
  match (← get).loaded.get? key with
  | some pom => pure pom
  | none => do
    if isOpen key.version then
      throw (.invalidModel key.text ["cannot resolve version \x60" ++ key.version ++ "\x60"])
    let bytes ← content source key
    match Pom.parse (String.ofList (Utf8.decodeLossy bytes)) key.text with
    | .error cause => throw (.project cause)
    | .ok pom => do
      modify fun s => { s with loaded := s.loaded.insert key pom }
      pure pom

/-- The contents of all files that may be POMs to load. -/
def contents (source : PomSource) (s : PomStore) : List Bytes :=
  let present := s.files.entries.entries.filterMap fun (_, entry) =>
    match entry with
    | .file content => some content
    | .directory => none
  let offered := ((source.remote.getD Table.empty).entries).filterMap fun (_, answer) =>
    answer.toOption
  present ++ offered

/-- The POMs that are loaded or can be. -/
def supply (source : PomSource) (s : PomStore) : List Pom :=
  s.loaded.entries.map (·.2) ++ (contents source s).filterMap fun bytes =>
    (Pom.parse (String.ofList (Utf8.decodeLossy bytes)) "").toOption

end PomStore

end MavenPom
