import MavenPom.Maven.Run
import MavenPom.Shell.Run

/-!
# Running programs

What comes of a program that is found by its path and run within a time limit, on a machine that has
a shell and a few small programs.
-/

namespace MavenPom.Shell

/-! ## The machine -/

/-- The names of all programs. -/
def programNames : List String :=
  Interpreter.launchers ++
    ["true", "false", "echo", "printf", "test", "[", "cat", "head", "tail", "wc", "tr", "sort",
      "uniq", "cut", "rev", "tac", "seq", "yes", "basename", "dirname", "sleep"]

/-- The directories that are there before anything is run. -/
def machineDirectories : List Location :=
  [["bin"], ["dev"], ["etc"], ["home"], ["lib"], ["opt"], ["proc"], ["root"], ["tmp"], ["usr"],
    ["usr", "bin"], ["usr", "lib"], ["var"], ["work"]]

/-- The files that are no programs. -/
def machineFiles : List Location :=
  [["dev", "full"], ["dev", "null"], ["dev", "zero"], ["etc", "passwd"]]

def machine : FileTree :=
  { workingDirectory := ["work"]
    entries := Table.ofList
      (machineDirectories.map (fun l => (l, Entry.directory)) ++
        machineFiles.map (fun l => (l, .file [])) ++
        Interpreter.programDirectories.flatMap fun dir =>
          programNames.map fun name => (dir ++ [name], Entry.file [])) }

/-- The variables that every program is given. -/
def environment : List (String × String) :=
  [("HOME", "/root"),
    ("PATH", "/usr/local/sbin:/usr/local/bin:/usr/sbin:/usr/bin:/sbin:/bin"), ("PWD", "/work")]

/-- How many steps are taken before a script counts as endless. -/
def stepLimit : Nat := 1500000

/-- A session at its start, with an empty input. -/
def Session.start : Session :=
  { name := "", id := 4711, level := 0, lone := false, parameters := []
    bindings := Table.ofList (environment.map fun (name, value) =>
      (name, ⟨some value, true, false⟩))
    functions := Table.empty, aliases := Table.empty, tracked := [], limits := Table.empty
    frames := [], calls := 0
    streams := Table.ofList [(0, .nowhere), (1, .sink outputSink), (2, .sink errorSink)]
    options := [], traps := Table.empty, status := 0, saved := none, written := none, line := 0
    reached := 1, command := none, loops := 0, directory := machine.workingDirectory, mask := 18
    index := 1, place := 0, jobs := [], background := none, job := 0, clock := 0, files := machine
    sources := Table.empty
    sinks := Table.ofList [(outputSink, []), (errorSink, [])], fresh := 4712, steps := stepLimit
    signals := [], fates := Table.empty }

/-! ## Running -/

/-- The name of the program at a path, or why there is none. -/
def programName (path : String) : Except IoError String :=
  if path.isEmpty then .error .notFound
  else if path.toList.contains '/' then Interpreter.programAt machine path
  else if path = "." ∨ path = ".." then .error .permissionDenied
  else if Interpreter.isProgram path then .ok path
  else .error .notFound

/-- How often it is looked whether a program has ended, in milliseconds. -/
def pollInterval : Nat := 20

/-- Whether a program that runs for some time is still running when its limit is found to have been
    reached. -/
def exceeds (elapsed limit : Nat) : Bool :=
  (limit + pollInterval - 1) / pollInterval * pollInterval < elapsed + 1

/-- What has been written to a sink. -/
def Session.writtenTo (s : Session) (sink : Nat) : String :=
  String.ofList (Utf8.decodeLossy (toBytes (textOf ((s.sinks.get? sink).getD []))))

/-- Runs a program with an empty input, within a limit in milliseconds if there is one. -/
def execute (path : String) (arguments : List String) (limit : Option Nat) :
    Except IoError RunOutput := do
  if (path :: arguments).any fun a => a.toList.contains '\x00' then throw .invalidInput
  let program ← programName path
  let action := Interpreter.runProgram (Interpreter.run Interpreter.depthLimit) 100 program
    (octets path) (arguments.map octets)
  let (ending, s) := StateT.run (ExceptT.run action) Session.start
  let ended := match ending with
    | .error .endless => false
    | _ => !(limit.map (exceeds (s.clock / 1000))).getD false
  if ended then
    return {
      code := match ending with
        | .error (.signal _) => none
        | _ => some (s.status % 256)
      stdout := s.writtenTo outputSink
      stderr := s.writtenTo errorSink
      written := none }
  else throw .timedOut

/-- What programs do where there are only those above, each within a limit. -/
def runner (limit : Option Nat) : Runner := fun _ i => execute i.program i.arguments limit

end MavenPom.Shell
