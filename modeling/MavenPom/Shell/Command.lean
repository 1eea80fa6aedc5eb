import MavenPom.Shell.Expansion
import MavenPom.Shell.Launch

/-!
# Simple commands

What a command does that is given by words: its streams are directed, its assignments made, and then
a function, a command of the shell or a program is run.
-/

namespace MavenPom.Shell

namespace Interpreter

/-- Runs a script that is part of a word. -/
def inWord (run : Interpreter) (script : Script) : Running Unit := run.toEnd (run false script)

/-! ## Redirections -/

/-- Directs a stream to a handle, or reports why there is none. -/
def direct (stream : Nat) (handle : Except String Handle) : Running Bool := do
  match handle with
  | .ok handle => do
    modify fun s => { s with streams := s.streams.insert stream handle }
    return true
  | .error problem => do
    refuse problem
    return false

/-- Directs a stream, and says whether that was possible. -/
def redirect (run : Interpreter) : Redirection → Running Bool
  | .mk stream (.document _) target => do
    match ← caught (expandWhole run.inWord target) with
    | some text => direct stream (.ok (← newSource ⟨text.toList, true⟩))
    | none => return false
  | .mk stream direction target => do
    let text ← expandWhole run.inWord target
    match direction with
    | .read => direct stream (← openForReading text)
    | .both => direct stream (← openForWriting text false)
    | .write => direct stream (← openForWriting text true)
    | .append => direct stream (← openForWriting text false)
    | _ =>
      let s ← get
      if text = "-" then do
        set { s with streams := s.streams.erase stream }
        return true
      else
        match Text.number? 10 text.toList with
        | none => do
          set { s with line := s.reached }
          abort "Syntax error: Bad fd number"
        | some n =>
          match s.streams.get? n with
          | some handle => direct stream (.ok handle)
          | none =>
            if stream = 2 then do
              setStatus 2
              return false
            else direct stream (.error (text ++ ": Bad file descriptor"))

/-- Directs streams, up to the first for which that is not possible. -/
def redirectAll (run : Interpreter) : List Redirection → Running Bool
  | [] => return true
  | r :: rest => do
    if ← run.redirect r then run.redirectAll rest else return false

/-- The stream that a redirection directs. -/
def redirected : Redirection → Nat
  | .mk stream _ _ => stream

/-- Runs something and directs some streams as before after it, however it ends. -/
def withStreams (streams : List Nat) (action : Running Unit) : Running Unit := do
  let before := (← get).streams
  afterwards action fun s =>
    { s with streams := streams.foldl (fun t stream => match before.get? stream with
        | some handle => t.insert stream handle
        | none => t.erase stream) s.streams }

/-- Runs something with streams directed, or something else if that is not possible. -/
def withRedirections (run : Interpreter) (rs : List Redirection)
    (action otherwise : Running Unit) : Running Unit := do
  if ← run.redirectAll rs then action else otherwise

/-- Runs something with streams directed, or something else if that is not possible, and directs
    them as before after it. -/
def directed (run : Interpreter) (rs : List Redirection) (action otherwise : Running Unit) :
    Running Unit :=
  if rs.isEmpty then action
  else withStreams (rs.map redirected) (run.withRedirections rs action otherwise)

/-! ## Words -/

/-- The commands whose arguments may be assignments. -/
def declares (words : List String) : Bool :=
  match words with
  | "command" :: name :: _ => ["alias", "export", "local", "readonly"].contains name
  | name :: _ => ["alias", "export", "local", "readonly"].contains name
  | [] => false

/-- The arguments that words stand for, after those that have been found. -/
def arguments (run : Interpreter) (found : List String) : List Word → Running (List String)
  | [] => return found
  | word :: rest => do
    match if declares found then assignment? word else none with
    | some (name, value) => do
      let text ← expandAssigned run.inWord value
      run.arguments (found ++ [name ++ "=" ++ text]) rest
    | none => do
      let more ← expand run.inWord word
      run.arguments (found ++ more) rest

/-- How the assignments of a command are made. -/
inductive Scope where
  /-- For good. -/
  | lasting
  /-- For good, and what is run is given them. -/
  | given
  /-- Until the command ends, and what is run is given them. -/
  | passing
  deriving DecidableEq, Repr

/-- Makes assignments, and gives them as they would be written. -/
def assignAll (run : Interpreter) (scope : Scope) : List (String × Word) → Running (List String)
  | [] => return []
  | (name, value) :: rest => do
    let text ← expandAssigned run.inWord value
    match scope with
    | .passing => do
      assignWithin name text
      markExported name
    | .given => do
      assign name text
      markExported name
    | .lasting => assign name text
    return (name ++ "=" ++ text) :: (← run.assignAll scope rest)

/-- Shows a command that is about to be run where this has been asked for. -/
def trace (handle : Option Handle) (words : List String) : Running Unit := do
  let s ← get
  if s.hasOption 'x' ∧ ¬words.isEmpty then do
    let start := (s.stored? "PS4").getD ""
    let _ ← writeTo handle (Effect.line (start ++ " ".intercalate words))

/-! ## Functions and commands -/

/-- How many functions may be running inside each other. -/
def functionLimit : Nat := 1000

/-- Runs something up to where it is left as a function is. -/
def untilReturn (action : Running Unit) : Running Unit :=
  ExceptT.mk fun s =>
    match StateT.run (ExceptT.run action) s with
    | (.error (.return _), s') => (.ok (), s')
    | (result, s') => (result, s')

/-- Runs a function with arguments. -/
def call (run : Interpreter) (tested : Bool) (body : Script) (arguments : List String) :
    Running Unit := do
  let s ← get
  if functionLimit ≤ s.calls then
    abort ("Maximum function recursion depth (" ++ toString functionLimit ++ ") reached")
  else do
    set { s with
      parameters := arguments, lone := false, loops := 0, index := 1, place := 0
      calls := s.calls + 1 }
    afterwards (untilReturn (run tested body)) fun s' =>
      { s' with
        parameters := s.parameters, loops := s.loops, index := s.index, place := s.place
        calls := s.calls }

/-- Runs something with the name of a command for messages. -/
def naming (name : String) (action : Running Unit) : Running Unit := do
  let before := (← get).command
  modify fun s => { s with command := some name }
  afterwards action fun s => { s with command := before }

/-- Remembers a program that has been found by its name. -/
def track (name : String) : Running Unit :=
  modify fun s =>
    if name.toList.contains '/' ∨ s.tracked.contains name then s
    else { s with tracked := s.tracked ++ [name] }

/-- What is run by a name. -/
inductive Meaning where
  | alias (text : String)
  | keyword
  | function
  | builtin (special : Bool)
  | program (path : String) (tracked : Bool)
  | unknown
  deriving DecidableEq, Repr

/-- What is run by a name. A program that is found is remembered. -/
def meaning (name : String) : Running Meaning := do
  let s ← get
  if Source.keywords.contains name then return .keyword
  else
    match s.aliases.get? name with
    | some text => return .alias text
    | none =>
      if (s.functions.get? name).isSome then return .function
      else if Builtin.isBuiltin name then return .builtin (Builtin.isSpecial name)
      else
        match findProgram s name with
        | .ok (_, path) => do
          track name
          return .program path (s.tracked.contains name)
        | .error _ => return .unknown

/-- What is said of something that is run by a name. -/
def Meaning.describe : Meaning → String
  | .alias text => " is an alias for " ++ text
  | .keyword => " is a shell keyword"
  | .function => " is a shell function"
  | .builtin special => if special then " is a special shell builtin" else " is a shell builtin"
  | .program path tracked => (if tracked then " is a tracked alias for " else " is ") ++ path
  | .unknown => ": not found"

/-- By what something would be run that is run by a name. -/
def Meaning.locate? (name : String) : Meaning → Option (List Char)
  | .alias text => some ("alias ".toList ++ Builtin.aliasText name text)
  | .program path _ => some path.toList
  | .unknown => none
  | _ => some name.toList

/-- Says of each name what it is. -/
def describeAll (names : List String) : Running Unit := do
  let meanings ← names.mapM meaning
  printOut (Program.unlines ((names.zip meanings).map fun (name, m) =>
    (name ++ m.describe).toList))
  if meanings.contains .unknown then setStatus 127

/-- Prints by what names would be run. -/
def locateAll (names : List String) : Running Unit := do
  let meanings ← names.mapM meaning
  printOut (Program.unlines ((names.zip meanings).filterMap fun (name, m) => m.locate? name))
  if meanings.contains .unknown then setStatus 127

/-- Lists the programs that have been found, or finds those that are named. -/
def hash : Builtin := fun arguments => Builtin.withOptions "r" arguments fun letters names => do
  setStatus 0
  let s ← get
  if letters.contains 'r' then set { s with tracked := [] }
  else if names.isEmpty then
    let sorted := Listing.ordered Listing.programBuckets (fun name : String => name) s.tracked
    printOut (Program.unlines (sorted.filterMap fun name =>
      (findProgram s name).toOption.map (·.2.toList)))
  else names.forM fun name => do
    modify fun s => { s with tracked := s.tracked.filter (· != name) }
    let s ← get
    if (s.functions.get? name).isNone ∧ ¬Builtin.isBuiltin name then
      match findProgram s name with
      | .ok _ => track name
      | .error _ => do
        complain (name ++ ": not found")
        setStatus 1

/-- Runs the script in a file. -/
def source (run : Interpreter) : List String → Running Unit
  | [] => setStatus 0
  | path :: _ => do
    let s ← get
    let directories := Text.fields ':' ((s.stored? "PATH").getD "")
    let candidates := directories.map (· ++ "/" ++ path)
    let found := if path.toList.contains '/' then path
      else (candidates.find? s.tree.isFile).getD path
    if ¬path.toList.contains '/' ∧ found = path then abort (path ++ ": not found")
    else
      match scriptAt s found with
      | .error cause => abort (openingFault path false cause)
      | .ok text => do
        naming path (untilReturn (run.runText false text))
        modify fun s' => { s' with line := s.line }

/-- Runs arguments as a script. -/
def evaluate (run : Interpreter) (tested : Bool) (arguments : List String) : Running Unit := do
  let line := (← get).line
  modify fun s => { s with lone := false }
  run.runText tested (" ".intercalate arguments).toList
  modify fun s => { s with line }

/-- Runs a program in place of the script. What is to be run at its end is left out, unless there is
    no such program. -/
def exec (run : Interpreter) : List String → Running Unit
  | [] => setStatus 0
  | name :: arguments => do
    if (findProgram (← get) name).isOk then modify fun s => { s with traps := s.traps.erase 0 }
    run.runExternal name arguments
    throw .exit

/-- Runs a program beside the script, and waits for it. -/
def external (run : Interpreter) (name : String) (arguments : List String) : Running Unit := do
  if (← get).lone then run.runExternal name arguments
  else do
    if (findProgram (← get) name).isOk then
      track name
      makeRoom
    let (outcome, clock) ← fork Process.inner (run.runExternal name arguments)
    settle outcome clock

/-- Runs a command of the shell. What is wrong in one that is not special does not end the
    script. -/
def guarded (special : Bool) (name : String) (action : Running Unit) : Running Unit := do
  let action := naming name action
  if special then action
  else
    let _ ← caught action

/-- Runs what a name leads to other than a function. -/
def runNamed (run : Interpreter) (tested special : Bool) (name : String)
    (arguments : List String) : Running Unit := do
  match name, (Builtin.special? name) <|> (Builtin.regular? name) with
  | _, some builtin => guarded special name (builtin arguments)
  | "eval", _ => guarded special name (run.evaluate tested arguments)
  | ".", _ => guarded special name (run.source arguments)
  | "exec", _ => guarded special name (run.exec arguments)
  | "type", _ => guarded special name (describeAll arguments)
  | "hash", _ => guarded special name (hash arguments)
  | _, none => run.external name arguments

/-- Runs a command that is no function, or says what one is. -/
def runCommand (run : Interpreter) (tested : Bool) (arguments : List String) : Running Unit :=
  match Builtin.options "pvV" arguments with
  | .error letter => naming "command" (refuse ("Illegal option -" ++ letter.toString))
  | .ok (letters, names) =>
    if letters.contains 'V' then naming "command" (describeAll (names.take 1))
    else if letters.contains 'v' then naming "command" (locateAll (names.take 1))
    else
      match names with
      | [] => setStatus 0
      | name :: rest => run.runNamed tested false name rest

/-- Runs what a command leads to. -/
def runWords (run : Interpreter) (tested : Bool) (name : String) (arguments : List String) :
    Running Unit := do
  let special := Builtin.isSpecial name
  match (← get).functions.get? name with
  | some body =>
    if special then run.runNamed tested special name arguments
    else run.call tested body arguments
  | none =>
    if name = "command" then run.runCommand tested arguments
    else run.runNamed tested special name arguments

/-- The words of a command without those that say that it is no function. -/
def stripCommand : List String → List String
  | "command" :: "--" :: rest => stripCommand rest
  | "command" :: "-p" :: rest => stripCommand rest
  | "command" :: rest => stripCommand rest
  | words => words

/-- Ends the script if it is to end when a command fails and nothing depends on that. -/
def check (tested : Bool) : Running Unit := do
  let s ← get
  if ¬tested ∧ s.hasOption 'e' ∧ s.status ≠ 0 then throw .exit

/-- Runs a simple command. -/
def simple (run : Interpreter) (tested : Bool) (line : Nat) (assignments : List (String × Word))
    (words : List Word) (rs : List Redirection) : Running Unit := do
  step
  modify fun s => { s with line, written := none }
  let arguments ← run.arguments [] words
  let errors := (← get).streams.get? 2
  match arguments with
  | [] => do
    let action : Running Unit := do
      let shown ← run.assignAll .lasting assignments
      trace errors shown
      setStatus ((← get).written.getD 0)
    run.directed rs action (pure ())
  | name :: arguments => do
    let special := Builtin.isSpecial name
    let replaces := (stripCommand (name :: arguments)).head? = some "exec"
    let scope : Scope := if ¬special then .passing
      else if name = "exec" ∧ ¬arguments.isEmpty then .given else .lasting
    let action : Running Unit := do
      let shown ← run.assignAll scope assignments
      trace errors (shown ++ name :: arguments)
      run.runWords tested name arguments
    let otherwise : Running Unit := if special then throw .fault else pure ()
    let action := if replaces then run.withRedirections rs action otherwise
      else run.directed rs action otherwise
    if special then action else inFrame action
  run.deliver
  check tested

end Interpreter

end MavenPom.Shell
