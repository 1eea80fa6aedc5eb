import MavenPom.Files.Tree
import MavenPom.Maven.Executable
import MavenPom.Text.Blank
import MavenPom.Toml.Document

/-!
# Settings

What is configured in a TOML file: logging, the Maven that queries run, and the repository that
missing POMs come from. Whatever is left out has a default, and unknown names are refused.
-/

namespace MavenPom

structure LoggingSettings where
  /-- A level, or a whole filter. -/
  level : String
  json : Bool
  deriving DecidableEq, Repr

structure MavenSettings where
  executable : Option String
  preferWrapper : Bool
  /-- The limit for a run of Maven in seconds; 0 is none. -/
  timeoutSeconds : Option Nat
  localRepository : Option String
  offline : Bool
  deriving DecidableEq, Repr

structure QuerySettings where
  remoteRepository : String
  deriving DecidableEq, Repr

structure Settings where
  logging : LoggingSettings
  maven : MavenSettings
  query : QuerySettings
  deriving DecidableEq, Repr

/-- Why settings cannot be loaded. -/
inductive SettingsError where
  | unreadable (path : String) (cause : IoError)
  | malformed
  deriving DecidableEq, Repr

namespace MavenSettings

/-- The limit for a run of Maven, if there is one. -/
def timeout? (s : MavenSettings) : Option Nat := s.timeoutSeconds.filter (· > 0)

def config (s : MavenSettings) : MavenConfig := ⟨s.executable, s.preferWrapper⟩

end MavenSettings

namespace QuerySettings

/-- The remote repository's address, without slashes at its end. -/
def baseUrl (s : QuerySettings) : String :=
  String.ofList (Text.dropEndWhile (· == '/') s.remoteRepository.toList)

end QuerySettings

namespace Settings

open Toml (Value Entries)

/-- The repository that Maven uses where nothing is configured. -/
def central : String := "https://repo.maven.apache.org/maven2"

def standard : Settings := ⟨⟨"info", false⟩, ⟨none, true, none, none, false⟩, ⟨central⟩⟩

/-! ## Fields -/

def string? : Value → Option String
  | .string s => some s
  | _ => none

def boolean? : Value → Option Bool
  | .boolean b => some b
  | _ => none

def natural? : Value → Option Nat
  | .integer n => if 0 ≤ n then some n.toNat else none
  | _ => none

/-- The values of fields by their names. A list gives the first fields in their order; what it has
    beyond them does not count. A table gives no others. -/
def fields? (names : List String) : Value → Option Entries
  | .list values => some (names.zip values)
  | .table _ entries =>
    if entries.all fun (name, _) => names.contains name then some entries else none
  | _ => none

/-- A field's value as something, or a default where there is none. -/
def field? {α : Type} (entries : Entries) (name : String) (read : Value → Option α) (default : α) :
    Option α :=
  match entries.lookup name with
  | none => some default
  | some v => read v

/-! ## Sections -/

def logging? (v : Value) : Option LoggingSettings := do
  let entries ← fields? ["level", "json"] v
  let level ← field? entries "level" string? standard.logging.level
  let json ← field? entries "json" boolean? standard.logging.json
  return ⟨level, json⟩

def maven? (v : Value) : Option MavenSettings := do
  let entries ← fields?
    ["executable", "prefer_wrapper", "timeout_secs", "local_repository", "offline"] v
  let executable ← field? entries "executable" (fun v => (string? v).map some) none
  let preferWrapper ← field? entries "prefer_wrapper" boolean? standard.maven.preferWrapper
  let timeoutSeconds ← field? entries "timeout_secs" (fun v => (natural? v).map some) none
  let localRepository ← field? entries "local_repository" (fun v => (string? v).map some) none
  let offline ← field? entries "offline" boolean? standard.maven.offline
  return ⟨executable, preferWrapper, timeoutSeconds, localRepository, offline⟩

def query? (v : Value) : Option QuerySettings := do
  let entries ← fields? ["remote_repository"] v
  return ⟨← field? entries "remote_repository" string? central⟩

/-- The settings that entries give. -/
def ofEntries? (entries : Entries) : Option Settings := do
  let entries ← fields? ["logging", "maven", "query"] (.table .header entries)
  let logging ← field? entries "logging" logging? standard.logging
  let maven ← field? entries "maven" maven? standard.maven
  let query ← field? entries "query" query? standard.query
  return ⟨logging, maven, query⟩

/-- The settings that a text gives. -/
def parse (text : String) : Except SettingsError Settings :=
  match (Toml.parse? text).bind ofEntries? with
  | some settings => .ok settings
  | none => .error .malformed

/-- The settings in the file at a path. -/
def load (files : FileTree) (path : String) : Except SettingsError Settings :=
  match files.read path with
  | .error cause => .error (.unreadable path cause)
  | .ok bytes =>
    match Utf8.decode bytes with
    | none => .error (.unreadable path .invalidData)
    | some cs => parse (String.ofList cs)

end Settings

end MavenPom
