import MavenPom.Shell.Builtin

/-!
# Processes

How scripts are run that are given as text, what becomes of a process when it ends or gets a signal,
and which programs there are. How a script is run that has been read is a parameter.
-/

namespace MavenPom.Shell

/-- How scripts are run, given whether something else depends on their success. -/
abbrev Interpreter := Bool → Script → Running Unit

namespace Interpreter

/-! ## Scripts as text -/

/-- Runs the lines of a script, of which there are no more than a number. Each is read with the
    aliases that the ones before it have left. -/
def runLines (run : Interpreter) (tested : Bool) : Nat → Source → Running Unit
  | 0, _ => pure ()
  | n + 1, source => do
    match (source.withAliases (← get).aliases).line? with
    | .error fault => do
      modify fun s => { s with line := fault.line }
      abort ("Syntax error: " ++ fault.error.message)
    | .ok (script, rest) => do
      modify fun s => { s with reached := rest.line }
      run tested script
      if rest.rest.isEmpty then pure () else runLines run tested n rest

/-- Whether nothing but blanks and line breaks is in a text. -/
def isBlankText (cs : List Char) : Bool := cs.all fun c => c == ' ' || c == '\t' || c == '\n'

/-- Runs a script. One that is empty succeeds. -/
def runText (run : Interpreter) (tested : Bool) (cs : List Char) : Running Unit := do
  let cs := cs.filter (· != '\x00')
  if isBlankText cs then setStatus 0
  else do
    let before := (← get).reached
    afterwards (runLines run tested (cs.length + 1) (.ofText 1 cs)) fun s =>
      { s with reached := before }

/-- Runs a script that leaves the status as it is, unless it ends everything or a function with a
    status. -/
def runAside (run : Interpreter) (text : String) : Running Unit :=
  ExceptT.mk fun s =>
    let action := run.runText false text.toList
    let (result, s') :=
      StateT.run (ExceptT.run action) { s with saved := s.saved <|> some s.status }
    let s' := { s' with saved := s.saved }
    match result with
    | .error (.return true) => (result, s')
    | .error e => (result, if e.isFinal then s' else { s' with status := s.status })
    | .ok () => (result, { s' with status := s.status })

/-- Takes the signals that have come for the process. -/
def deliver (run : Interpreter) : Running Unit := do
  let s ← get
  if s.signals.isEmpty then pure ()
  else do
    let (own, others) := s.arrived
    set { s with signals := others }
    own.forM fun sending =>
      match s.trap? sending.signal with
      | some text => run.runAside text
      | none => suffer sending

/-- Runs something as all that a process does, and then what is to be run at its end. This finds the
    status of the process, and leaves it unless it ends by itself. -/
def toEnd (run : Interpreter) (action : Running Unit) : Running Unit :=
  ExceptT.mk fun s =>
    match StateT.run (ExceptT.run action) s with
    | (.error (.signal number), s') => (.error (.signal number), s')
    | (.error .endless, s') => (.error .endless, s')
    | (_, s') =>
      match s'.traps.get? 0 with
      | none => (.ok (), s')
      | some text =>
        let (result, s'') := StateT.run (ExceptT.run (run.runText false text.toList))
          { s' with
            traps := s'.traps.erase 0, command := none, loops := 0, saved := some s'.status }
        match result with
        | .error e =>
          if e.isFinal then (.error e, s'') else (.ok (), { s'' with status := s'.status })
        | .ok () => (.ok (), { s'' with status := s'.status })

/-- Takes over the end of an inner process. -/
def settle (outcome : Outcome) (clock : Nat) : Running Unit := do
  modify fun s => { s with clock := max s.clock clock, status := outcome.status }
  match outcome with
  | .signal number => Builtin.reportSignal number
  | .endless => throw .endless
  | .code _ => pure ()

/-! ## Shells -/

/-- What the arguments of a shell ask for. -/
structure ShellPlan where
  options : List Char
  /-- The options, if they are to be shown. -/
  listing : List Char
  /-- Its script, or the file that this is in, or the standard input. -/
  script : Option (Bool × String)
  /-- The name that it has, if it has one of its own, and its parameters. -/
  name : Option String
  parameters : List String

/-- What the arguments of a shell ask for. -/
def shellPlan (arguments : List String) : Except String ShellPlan := do
  let action := Builtin.switches true (arguments.length + 1) arguments
  let (result, options) := StateT.run (ExceptT.run action) []
  let switched ← result
  let rest := switched.rest
  let plan : ShellPlan :=
    ⟨options.filter fun c => c != 'c' && c != 'l', switched.listing, none, none, rest⟩
  match rest with
  | [] => if options.contains 'c' then .error "-c requires an argument" else return plan
  | a :: rest =>
    if options.contains 'c' then
      return { plan with script := some (true, a), name := rest.head?, parameters := rest.tail }
    else if options.contains 's' then return plan
    else return { plan with script := some (false, a), name := some a, parameters := rest }

/-- The variables that a shell starts with if it is not given any. -/
def ownVariables : List (String × String) :=
  [("IFS", " \t\n"), ("OPTIND", "1"), ("PS1", "# "), ("PS2", "> "), ("PS4", "+ ")]

/-- The variables of a shell that is given some by the process with a number. -/
def startingBindings (parent : Nat) (given : Table String Binding) : Table String Binding :=
  let own := Table.ofList (ownVariables.map fun (name, value) =>
    (name, Binding.mk (some value) false false))
  let all := own.extend
    ⟨given.entries.filterMap fun (name, binding) =>
      if binding.exported ∧ binding.value.isSome ∧ name ≠ "IFS" then
        some (name, { binding with fixed := false })
      else none⟩
  all.insert "PPID" ⟨some (toString parent), ((all.get? "PPID").map (·.exported)).getD false, false⟩

/-- Runs a shell of some name. -/
def shell (run : Interpreter) (name : String) (arguments : List String) : Running Unit := do
  let id ← newId
  modify fun s =>
    { s with
      name, id, level := 0, parameters := [], bindings := startingBindings s.id s.bindings
      functions := Table.empty, aliases := Table.empty, tracked := [], frames := [], calls := 0
      options := [], traps := ⟨s.traps.entries.filter fun t => t.2.isEmpty⟩, status := 0
      saved := none, written := none, line := 0, reached := 1, command := none, loops := 0
      index := 1, place := 0, jobs := [], background := none }
  match shellPlan arguments with
  | .error problem => abort problem
  | .ok plan => do
    let _ ← writeOn 1 plan.listing
    let s ← get
    let started (name : String) : Running Unit :=
      modify fun s =>
        { s with name, parameters := plan.parameters, options := plan.options, line := 1 }
    match plan.script with
    | some (true, text) => do
      started (plan.name.getD name)
      run.toEnd (run.runText false text.toList)
    | some (false, path) =>
      match scriptAt s path with
      | .error cause => abort (openingFault path false cause)
      | .ok text => do
        started path
        run.toEnd (run.runText false text)
    | none => do
      started name
      let feed := s.feed (s.streams.get? 0)
      leaveUnread 0 ⟨[], feed.ends⟩
      run.toEnd (run.runText false feed.text)

/-! ## Programs -/

/-- Writes and waits as a program of some name does. It notices when its output is lost. -/
def perform (name : String) (effect : Effect) : Running Unit := do
  let written ← effect.writes.mapM fun (isError, text) => do
    return (← writeOn (if isError then 2 else 1) text) || isError
  let s ← get
  set { s with status := effect.code, clock := s.clock + effect.delay }
  if effect.reads then leaveUnread 0 ⟨[], (s.feed (s.streams.get? 0)).ends⟩
  if ¬written.all id then do
    writeError (name ++ ": write error: " ++ lossReason ((← get).streams.get? 1))
    setStatus 1
  else if ¬effect.ends then throw .endless

/-- The directories that programs are in. -/
def programDirectories : List Location := [["usr", "bin"], ["bin"]]

/-- The programs that run others. -/
def launchers : List String := ["sh", "dash", "env", "printenv", "timeout", "tee"]

def isProgram (name : String) : Bool := (Program.named? name).isSome || launchers.contains name

/-- The name of the program at a path, or why there is none. -/
def programAt (t : FileTree) (path : String) : Except IoError String := do
  let l ← t.locate path
  match t.entry? l, l.getLast? with
  | some (.file _), some name =>
    if programDirectories.contains l.dropLast ∧ isProgram name then return name
    else throw .permissionDenied
  | _, _ => throw .permissionDenied

/-- Where programs are looked for if nothing says where. -/
def standardPath : String := "/bin:/usr/bin"

/-- The path of the program that a name leads to in some directories. -/
def pathIn (t : FileTree) (name : String) (directories : List String) : Option String :=
  (directories.map fun dir => if dir.isEmpty then name else dir ++ "/" ++ name).find? fun path =>
    (programAt t path).isOk

/-- The program that a name leads to on a path, and its own path. -/
def findOn (path : String) (s : Session) (name : String) : Except IoError (String × String) :=
  if name.toList.contains '/' then (programAt s.tree name).map fun program => (program, name)
  else
    match pathIn s.tree name (Text.fields ':' path) with
    | some path => (programAt s.tree path).map fun program => (program, path)
    | none => .error .notFound

/-- The program that a name leads to, and its path. -/
def findProgram (s : Session) (name : String) : Except IoError (String × String) :=
  findOn ((s.stored? "PATH").getD "") s name

/-- Runs something that ends when some time has passed at the latest, and says whether it has ended
    before. -/
def within (limit : Nat) (action : Running Unit) : Running (Option Outcome) := do
  let job ← newId
  let start := (← get).clock
  let (outcome, clock) ← fork (fun p => { p.inner with level := p.level, job }) action
  if limit = 0 ∨ (outcome ≠ .endless ∧ clock ≤ start + limit) then do
    modify fun s => { s with clock }
    return some outcome
  else do
    modify fun s => { s with clock := start + limit }
    Builtin.cutJob job
    return none

/-- The assignments at the beginning of arguments, and the arguments after them. -/
def leadingAssignments (arguments : List String) : List (String × String) × List String :=
  let pairs := arguments.map (Text.splitOnce? '=')
  let count := (pairs.takeWhile Option.isSome).length
  ((pairs.take count).filterMap id, arguments.drop count)

/-- Runs a program by its name among programs, given the name that it was called by. Programs that
    run others may be inside each other to some depth. -/
def runProgram (run : Interpreter) :
    Nat → (program called : String) → List String → Running Unit
  | 0, _, _, _ => throw .endless
  | n + 1, program, called, arguments =>
    match program with
    | "sh" => shell run called arguments
    | "dash" => shell run called arguments
    | "printenv" => do
      let s ← get
      let exported := s.bindings.entries.filter fun b => b.2.exported
      match arguments with
      | [] => perform called (environment exported)
      | name :: _ =>
        match (exported.lookup name).bind (·.value) with
        | some value => perform called (.print (Effect.line value))
        | none => perform called (.exit 1)
    | "tee" => do
      let s ← get
      let feed := s.feed (s.streams.get? 0)
      let files := arguments.filter fun a => !a.startsWith "-"
      files.forM fun path => do
        match ← openForWriting path (arguments.head? != some "-a") with
        | .ok handle => do
          let _ ← writeTo (some handle) feed.text
        | .error _ => pure ()
      perform called ⟨[(false, feed.text)], 0, 0, true, feed.ends⟩
    | "timeout" =>
      match if arguments.head? = some "-s" then arguments.drop 2 else arguments with
      | duration :: name :: rest => do
        match Program.interval? duration with
        | none =>
          perform called (.fail 125 [called ++ ": invalid time interval '" ++ duration ++ "'",
            Program.hint called])
        | some limit => do
          match ← within (limit.getD 0)
              (launch n called ": failed to run command '" name rest) with
          | none => setStatus 124
          | some .endless => throw .endless
          | some outcome => setStatus outcome.status
      | _ => perform called (.fail 125 [Program.hint called])
    | "env" => do
      let empty := arguments.head? = some "-i" ∨ arguments.head? = some "-"
      if empty then modify fun s =>
        { s with bindings := ⟨s.bindings.entries.filter fun b => !b.2.exported⟩ }
      let (assigned, rest) := leadingAssignments (if empty then arguments.tail else arguments)
      assigned.forM fun (name, value) =>
        modify fun s => { s with bindings := s.bindings.insert name ⟨some value, true, false⟩ }
      match rest with
      | [] => do
        perform called (environment ((← get).bindings.entries.filter fun b => b.2.exported))
      | name :: rest => launch n called ": '" name rest
    | _ => do
      match Program.named? program with
      | some action => perform called (action called arguments (← get).reader)
      | none => setStatus 127
where
  environment (bindings : List (String × Binding)) : Effect :=
    .print (Program.unlines (bindings.filterMap fun (name, binding) =>
      binding.value.map fun value => (name ++ "=" ++ value).toList))
  launch (n : Nat) (launcher problem name : String) (arguments : List String) : Running Unit := do
    let s ← get
    match findOn ((s.stored? "PATH").getD standardPath) s name with
    | .ok (program, _) => runProgram run n program name arguments
    | .error cause =>
      perform launcher (.fail (if cause = .notFound then 127 else 126)
        [launcher ++ problem ++ name ++ "': " ++ Program.reason cause])

/-- Runs a program by the name that a script calls it by. -/
def runExternal (run : Interpreter) (name : String) (arguments : List String) : Running Unit := do
  match findProgram (← get) name with
  | .ok (program, _) => runProgram run 100 program name arguments
  | .error cause =>
    if name.isEmpty then do
      complain ": Permission denied"
      setStatus 127
    else if cause = .notFound ∨ cause = .notADirectory then do
      complain (name ++ ": not found")
      setStatus 127
    else do
      complain (name ++ ": " ++ Program.reason cause)
      setStatus 126

end Interpreter

end MavenPom.Shell
