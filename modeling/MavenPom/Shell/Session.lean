import MavenPom.Files.Tree
import MavenPom.Shell.Commands
import MavenPom.Shell.Job
import MavenPom.Shell.Limit
import MavenPom.Shell.Program

/-!
# Shell sessions

What a running script works with. Some of it belongs to one process, so that an inner process starts
with a copy and leaves that of the outer one alone; the rest is the world, which all of them share.
What is written is kept with its time, because processes that run beside each other are run one
after the other here.
-/

namespace MavenPom.Shell

/-- Where a stream of a process leads. -/
inductive Handle where
  | nowhere
  | source (id : Nat)
  | sink (id : Nat)
  /-- To the end of a file. -/
  | file (l : Location)
  /-- To a directory, which cannot be read. -/
  | directory
  /-- To where there is no space for what is written. -/
  | full
  deriving DecidableEq, Repr

structure Binding where
  value : Option String
  exported : Bool
  fixed : Bool
  deriving DecidableEq, Repr

/-- What is put back when a command ends: bindings of names, the last one first, and the options. -/
structure Frame where
  bindings : List (String × Option Binding)
  options : Option (List Char)
  deriving DecidableEq, Repr

/-- Text written at some time by a job. -/
structure Write where
  time : Nat
  job : Nat
  text : List Char
  deriving DecidableEq, Repr

/-- A signal that a job sends to a process at some time. -/
structure Sending where
  time : Nat
  job : Nat
  process : Nat
  signal : Nat
  deriving DecidableEq, Repr

structure Process where
  /-- What its own name stands for, in messages as well. -/
  name : String
  /-- What its own number stands for. -/
  id : Nat
  /-- How many processes it is inside of that have the same number. -/
  level : Nat
  /-- Whether it runs nothing but one command, so that a program can take its place. -/
  lone : Bool
  parameters : List String
  bindings : Table String Binding
  functions : Table String Script
  aliases : Table String String
  /-- The programs that have been found by their names. -/
  tracked : List String
  limits : Table Char Limit
  /-- What the commands that are running have replaced, the innermost first. -/
  frames : List Frame
  /-- How many functions are running. -/
  calls : Nat
  streams : Table Nat Handle
  /-- The letters of the options that are set. -/
  options : List Char
  /-- What is run when a signal comes or, as the number 0, at the end. -/
  traps : Table Nat String
  status : Nat
  /-- The status before what is being run for a signal or at the end. -/
  saved : Option Nat
  /-- The status of what has been run for the words of the current command. -/
  written : Option Nat
  line : Nat
  /-- The line up to which the script has been read. -/
  reached : Nat
  /-- The command that messages name. -/
  command : Option String
  loops : Nat
  directory : Location
  mask : Nat
  /-- The number of the next argument that is read for options. -/
  index : Nat
  /-- The place in the argument before it from which the next option is read. -/
  place : Nat
  jobs : List Job
  /-- The number of the last process that was started to run beside the script. -/
  background : Option Nat
  /-- The job that it is part of. -/
  job : Nat
  /-- The microseconds since the start. -/
  clock : Nat

structure World where
  files : FileTree
  sources : Table Nat Feed
  /-- What has been written to each sink, the last first. -/
  sinks : Table Nat (List Write)
  /-- A number that nothing has yet. -/
  fresh : Nat
  /-- How many steps are still taken. -/
  steps : Nat
  signals : List Sending
  /-- What becomes of the processes that run beside others. -/
  fates : Table Nat Fate

structure Session extends Process, World

/-- How a script ends before its last command. -/
inductive Ending where
  | exit
  /-- Something is wrong, which ends the script unless it is in a command that is not special. -/
  | fault
  | signal (number : Nat)
  /-- A number of loops is left, or all but the last of them, which is continued. -/
  | leave (loops : Nat) (continued : Bool)
  /-- A function is left, perhaps with a status of its own. -/
  | return (explicit : Bool)
  /-- The script goes on for more steps than are taken. -/
  | endless
  deriving DecidableEq, Repr

/-- Whether nothing more of the script is run. -/
def Ending.isFinal : Ending → Bool
  | .leave .. => false
  | .return _ => false
  | _ => true

abbrev Running (α : Type) := Action Session Ending α

/-- Runs something and then changes the state in any case. -/
def afterwards {α : Type} (action : Running α) (change : Session → Session) : Running α :=
  ExceptT.mk fun s =>
    let (result, s') := StateT.run (ExceptT.run action) s
    (result, change s')

/-- What something gives unless something is wrong in it. -/
def caught {α : Type} (action : Running α) : Running (Option α) :=
  ExceptT.mk fun s =>
    match StateT.run (ExceptT.run action) s with
    | (.ok a, s') => (.ok (some a), s')
    | (.error .fault, s') => (.ok none, s')
    | (.error e, s') => (.error e, s')

/-! ## Messages and the status -/

def setStatus (code : Nat) : Running Unit := modify fun s => { s with status := code }

/-- The sinks of the program itself. -/
def outputSink : Nat := 0

def errorSink : Nat := 1

/-- Writes to where a handle leads, and says whether it can be written to. -/
def writeTo (handle : Option Handle) (cs : List Char) : Running Bool := do
  let s ← get
  match handle with
  | some .nowhere => return true
  | some (.sink id) => do
    let entry : Write := ⟨s.clock, s.job, cs⟩
    if ¬cs.isEmpty then
      set { s with sinks := s.sinks.insert id (entry :: (s.sinks.get? id).getD []) }
    return true
  | some (.file l) => do
    match s.files.readAt l with
    | .ok content =>
      set { s with files := s.files.put l (.file (content ++ toBytes cs)) }
    | .error _ => pure ()
    return true
  | _ => return cs.isEmpty

/-- Writes to a stream. -/
def writeOn (stream : Nat) (cs : List Char) : Running Bool := do
  writeTo ((← get).streams.get? stream) cs

def writeError (line : String) : Running Unit := do
  let _ ← writeOn 2 (line.toList ++ ['\n'])

/-- Writes what is wrong in a line of the script, and with which command. -/
def complain (text : String) : Running Unit := do
  let s ← get
  let command := (s.command.map (· ++ ": ")).getD ""
  writeError (s.name ++ ": " ++ toString s.line ++ ": " ++ command ++ text)

/-- Complains, and has the command fail. -/
def refuse (text : String) : Running Unit := do
  complain text
  setStatus 2

/-- Complains, and ends the script or the command that is not special. -/
def abort {α : Type} (text : String) : Running α := do
  refuse text
  throw .fault

/-- Writes more output of a command that is part of the shell. -/
def printMore (cs : List Char) : Running Unit := do
  if ¬(← writeOn 1 cs) then do
    complain (((← get).command.getD "") ++ ": I/O error")
    setStatus 1

/-- Writes the output of a command that is part of the shell. -/
def printOut (cs : List Char) : Running Unit := do
  setStatus 0
  printMore cs

/-- A step of the script. There are only so many. -/
def step : Running Unit := do
  let s ← get
  match s.steps with
  | 0 => throw .endless
  | n + 1 => set { s with steps := n }

/-! ## Variables -/

namespace Session

def hasOption (s : Session) (letter : Char) : Bool := s.options.contains letter

/-- The value of a variable that has one. -/
def stored? (s : Session) (name : String) : Option String :=
  (s.bindings.get? name).bind (·.value)

/-- All options with a letter in the order in which they are shown. -/
def optionLetters : List Char := "pubaCEVvxsnmiIfe".toList

/-- The value of a variable or parameter that has one. -/
def value? (s : Session) (name : String) : Option String :=
  match name with
  | "?" => some (toString s.status)
  | "$" => some (toString s.id)
  | "!" => s.background.map toString
  | "#" => some (toString s.parameters.length)
  | "-" => some (String.ofList (optionLetters.filter s.hasOption))
  | "0" => some s.name
  | _ =>
    match Text.number? 10 name.toList with
    | some n => s.parameters[n - 1]?
    | none => s.stored? name

/-- The characters at which values are split. -/
def separators (s : Session) : List Char := ((s.stored? "IFS").getD " \t\n").toList

end Session

/-- The number that a text writes. -/
def number? (text : String) : Option Nat :=
  match Condition.number text with
  | .ok n => if 0 ≤ n ∧ n < 0x80000000 then some n.toNat else none
  | .error _ => none

def illegalNumber (text : String) : String := "Illegal number: " ++ text

/-- Does what depends on the value of a variable, when that changes. -/
def adapt (name value : String) : Running Unit := do
  if name = "OPTIND" then
    match number? value with
    | some n => modify fun s => { s with index := max n 1, place := 0 }
    | none => abort (illegalNumber value)
  else if name = "PATH" then modify fun s => { s with tracked := [] }

/-- Changes how a variable is bound. -/
def rebind (name : String) (change : Binding → Binding) : Running Unit :=
  modify fun s =>
    { s with bindings :=
        s.bindings.insert name (change ((s.bindings.get? name).getD ⟨none, false, false⟩)) }

def isVariable (name : String) : Bool := isName name.toList

def isFixed (s : Session) (name : String) : Bool :=
  ((s.bindings.get? name).map (·.fixed)).getD false

/-- Gives a variable a value, and does nothing more about it. -/
def bind (name value : String) : Running Unit := do
  let s ← get
  if isFixed s name then abort (name ++ ": is read only")
  else rebind name fun b =>
    { b with value := some value, exported := b.exported || s.hasOption 'a' }

/-- Gives a variable a value, if it may have another one. -/
def assign (name value : String) : Running Unit := do
  if ¬isFixed (← get) name then adapt name value
  bind name value

def markExported (name : String) : Running Unit :=
  rebind name fun binding => { binding with exported := true }

/-- Leaves a variable without a value. -/
def unbind (name : String) : Running Unit :=
  modify fun s => { s with bindings := s.bindings.erase name }

/-! ## Frames -/

/-- Remembers how a name is bound, until the innermost frame ends. -/
def keep (name : String) (binding : Option Binding) : Running Unit :=
  modify fun s =>
    match s.frames with
    | frame :: rest =>
      { s with frames := { frame with bindings := (name, binding) :: frame.bindings } :: rest }
    | [] => s

/-- Gives a variable a value until the innermost frame ends. -/
def assignWithin (name value : String) : Running Unit := do
  let before := (← get).bindings.get? name
  assign name value
  keep name before

/-- Remembers the options until the innermost frame ends. -/
def keepOptions : Running Unit :=
  modify fun s =>
    match s.frames with
    | frame :: rest =>
      { s with frames := { frame with options := frame.options <|> some s.options } :: rest }
    | [] => s

/-- Binds a name as before. One that had no binding has to be a name for that. -/
def restore (name : String) (binding : Option Binding) : Running Unit := do
  match binding with
  | some binding => do
    binding.value.forM (adapt name)
    modify fun s => { s with bindings := s.bindings.insert name binding }
  | none => do
    if ¬isVariable name then abort (name ++ ": bad variable name")
    adapt name ""
    unbind name

/-- Puts back what frames have replaced. -/
def leaveFrames : List Frame → Running Unit
  | [] => return
  | frame :: rest => do
    modify fun s => { s with options := frame.options.getD s.options }
    frame.bindings.forM fun (name, binding) => restore name binding
    leaveFrames rest

/-- Runs something in a frame of its own. What it has replaced is put back, unless the script ends:
    what is run at its end then finds everything as it was. -/
def inFrame (action : Running Unit) : Running Unit :=
  ExceptT.mk fun s =>
    let (result, s') := StateT.run (ExceptT.run action) { s with frames := ⟨[], none⟩ :: s.frames }
    match result with
    | .error e => if e.isFinal then (result, s') else left s.frames s' result
    | _ => left s.frames s' result
where
  left (outer : List Frame) (s : Session) (result : Except Ending Unit) :
      Except Ending Unit × Session :=
    let inner := s.frames.take (s.frames.length - outer.length)
    let (ended, s') := StateT.run (ExceptT.run (leaveFrames inner)) { s with frames := outer }
    (ended.bind fun _ => result, s')

/-! ## Files -/

/-- The location that a path leads to in a session. -/
def Session.tree (s : Session) : FileTree := { s.files with workingDirectory := s.directory }

/-- A number that nothing has yet. -/
def newId : Running Nat := do
  let s ← get
  set { s with fresh := s.fresh + 1 }
  return s.fresh

/-- Something new to be read. -/
def newSource (feed : Feed) : Running Handle := do
  let id ← newId
  modify fun s => { s with sources := s.sources.insert id feed }
  return .source id

/-- The stream that a path names. -/
def streamOf? (path : String) : Option Nat :=
  match path with
  | "/dev/stdin" => some 0
  | "/dev/stdout" => some 1
  | "/dev/stderr" => some 2
  | _ =>
    match Text.cut? "/dev/fd/".toList path.toList with
    | some ([], digits) => Text.number? 10 digits
    | _ => none

/-- What can be read at a path. -/
def contentAt (s : Session) (path : String) : Except IoError Feed :=
  if path = "/dev/null" then .ok ⟨[], true⟩
  else if path = "/dev/zero" then .ok ⟨List.replicate s.steps '\x00', false⟩
  else (s.tree.read path).map fun content => ⟨ofBytes content, true⟩

/-- The script at a path. There is nothing in a directory. -/
def scriptAt (s : Session) (path : String) : Except IoError (List Char) :=
  match contentAt s path with
  | .ok feed => .ok feed.text
  | .error .isADirectory => .ok []
  | .error cause => .error cause

/-- What can be read from where a handle leads. -/
def Session.feed (s : Session) : Option Handle → Feed
  | some (.source id) => (s.sources.get? id).getD ⟨[], true⟩
  | _ => ⟨[], true⟩

/-- What a program can read from where a handle leads. -/
def Session.readFrom (s : Session) (handle : Option Handle) : Except IoError Feed :=
  if handle = some .directory then .error .isADirectory else .ok (s.feed handle)

/-- Why nothing can be written to where a handle leads. -/
def lossReason : Option Handle → String
  | some .full => "No space left on device"
  | _ => "Bad file descriptor"

/-- Leaves what comes after something that has been read from a stream. -/
def leaveUnread (stream : Nat) (feed : Feed) : Running Unit :=
  modify fun s =>
    match s.streams.get? stream with
    | some (.source id) => { s with sources := s.sources.insert id feed }
    | _ => s

/-- What a program can read by its name. -/
def Session.reader (s : Session) (path : String) : Except IoError Feed :=
  if path = "-" then s.readFrom (s.streams.get? 0)
  else
    match streamOf? path with
    | some stream => s.readFrom (s.streams.get? stream)
    | none => contentAt s path

/-- Why a file cannot be opened. -/
def openingFault (path : String) (written : Bool) : IoError → String
  | .notFound => absent
  | .notADirectory => absent
  | cause => start ++ Program.reason cause
where
  start : String := "cannot " ++ (if written then "create " else "open ") ++ path ++ ": "
  absent : String := start ++ if written then "Directory nonexistent" else "No such file"

/-- What a path leads to that names a stream. -/
def openedStream (s : Session) (path : String) (written : Bool) (stream : Nat) :
    Except String Handle :=
  match s.streams.get? stream with
  | some handle => .ok handle
  | none => .error (openingFault path written .notFound)

/-- What a path leads to that is read. -/
def openForReading (path : String) : Running (Except String Handle) := do
  let s ← get
  match streamOf? path with
  | some stream => return openedStream s path false stream
  | none =>
    if path = "/dev/null" then return .ok .nowhere
    else
      match contentAt s path with
      | .ok feed => return .ok (← newSource feed)
      | .error .isADirectory => return .ok .directory
      | .error cause => return .error (openingFault path false cause)

/-- What a path leads to that is written, either anew or at its end. -/
def openForWriting (path : String) (anew : Bool) : Running (Except String Handle) := do
  let s ← get
  match streamOf? path with
  | some stream => return openedStream s path true stream
  | none =>
    if path = "/dev/null" ∨ path = "/dev/zero" then return .ok .nowhere
    else if path = "/dev/full" then return .ok .full
    else
      match s.tree.target path with
      | .error cause => return .error (openingFault path true cause)
      | .ok (l, _) => do
        match s.files.entry? l with
        | some .directory => return .error (openingFault path true .isADirectory)
        | some (.file content) => do
          set { s with files := s.files.put l (.file (if anew then [] else content)) }
          return .ok (.file l)
        | none => do
          set { s with files := s.files.put l (.file []) }
          return .ok (.file l)

/-! ## Signals -/

/-- The signals that have come for the process, in their order, and all others. -/
def Session.arrived (s : Session) : List Sending × List Sending :=
  if s.level ≠ 0 then ([], s.signals)
  else
    let (own, others) := s.signals.partition fun sending =>
      sending.process = s.id && sending.time ≤ s.clock
    (own.mergeSort fun a b => a.time ≤ b.time, others)

/-- What is run when a signal comes, if anything has been asked for. -/
def Session.trap? (s : Session) (signal : Nat) : Option String :=
  if Signal.canBeTrapped signal then s.traps.get? signal else none

/-- Takes a signal for which nothing has been asked. One that ends the process does so at its
    time. -/
def suffer (sending : Sending) : Running Unit :=
  match Signal.effectOf sending.signal with
  | .ends => do
    modify fun s => { s with clock := sending.time }
    throw (.signal sending.signal)
  | .stops => throw .endless
  | .nothing => pure ()

/-! ## Processes -/

/-- How a process has ended. -/
inductive Outcome where
  | code (n : Nat)
  | signal (number : Nat)
  | endless
  deriving DecidableEq, Repr

/-- The status that a script sees. -/
def Outcome.status : Outcome → Nat
  | .code n => n
  | .signal number => 128 + number
  | .endless => 0

/-- Runs something as a process of its own, of which only what it does to the world stays. Says how
    it has ended, and when. -/
def fork (child : Process → Process) (action : Running Unit) : Running (Outcome × Nat) :=
  ExceptT.mk fun s =>
    match StateT.run (ExceptT.run action) { s with toProcess := child s.toProcess } with
    | (result, s') =>
      let outcome := match result with
        | .error (.signal number) => .signal number
        | .error .endless => .endless
        | _ => Outcome.code (s'.status % 256)
      (.ok (outcome, s'.clock), { s' with toProcess := s.toProcess })

/-- Lets a process start: a job that has been waited for may give it its number. -/
def makeRoom : Running Unit := modify fun s => { s with jobs := Job.makeRoom s.jobs }

/-- A copy of a process that has the same number. -/
def Process.inner (p : Process) : Process :=
  { p with
    level := p.level + 1, lone := false, jobs := [], reached := 1
    traps := ⟨p.traps.entries.filter fun t => t.2.isEmpty⟩ }

/-- Text in the order in which it was written. -/
def textOf (writes : List Write) : List Char :=
  (writes.reverse.mergeSort fun a b => a.time ≤ b.time).flatMap (·.text)

/-- A new sink, and something that takes what has been written to it. -/
def newSink : Running Nat := do
  let id ← newId
  modify fun s => { s with sinks := s.sinks.insert id [] }
  return id

def takeSink (id : Nat) : Running (List Char) := do
  let s ← get
  set { s with sinks := s.sinks.erase id }
  return textOf ((s.sinks.get? id).getD [])

end MavenPom.Shell
