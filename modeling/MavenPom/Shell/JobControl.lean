import MavenPom.Shell.Argument
import MavenPom.Shell.Job

/-!
# Signals and jobs of a script

The commands with which a script deals with signals and with what runs beside it.
-/

namespace MavenPom.Shell.Builtin

/-! ## Signals that are caught -/

/-- The lines that would set what is run for signals again. -/
def trapLines (traps : List (Nat × String)) : List Char :=
  Program.unlines ((traps.mergeSort fun a b => a.1 ≤ b.1).map fun (n, text) =>
    let name := if n = 0 then "EXIT" else Signal.name n
    "trap -- ".toList ++ quote text.toList ++ ' ' :: name.toList)

/-- Sets or, without a text, takes back what is run for signals. -/
def setTraps (text : Option String) : List String → Running Unit
  | [] => setStatus 0
  | name :: rest => do
    match if name.toUpper = "EXIT" then some 0 else Signal.number? name with
    | none => do
      writeError ("trap: " ++ name ++ ": bad trap")
      setStatus 1
    | some n => do
      modify fun s =>
        { s with traps := match text with
            | some text => s.traps.insert n text
            | none => s.traps.erase n }
      setTraps text rest

def trap : Builtin := fun arguments => withOptions "" arguments fun _ rest => do
  match rest with
  | [] => printOut (trapLines (← get).traps.entries)
  | [name] => setTraps none [name]
  | text :: names =>
    if text = "-" then setTraps none names
    else if (Text.number? 10 text.toList).isSome then setTraps none (text :: names)
    else setTraps (some text) names

/-! ## Sending signals -/

/-- Takes back what a job would have done after now. -/
def cutJob (id : Nat) : Running Unit :=
  modify fun s =>
    let kept (writes : List Write) := writes.filter fun w => w.job ≠ id ∨ w.time ≤ s.clock
    { s with
      sinks := ⟨s.sinks.entries.map fun (sink, writes) => (sink, kept writes)⟩
      signals := s.signals.filter fun sending => sending.job ≠ id ∨ sending.time ≤ s.clock }

/-- Sends a signal to a process, and says whether it is there. -/
def send (signal : Nat) (process : Int) : Running Bool := do
  let s ← get
  if process = Int.ofNat s.id then
    if signal ≠ 0 then
      let sending : Sending := ⟨s.clock, s.job, s.id, signal⟩
      set { s with signals := s.signals ++ [sending] }
    return true
  else
    match (s.fates.get? process.toNat).filter fun fate => 0 ≤ process ∧ ¬fate.hasEnded s.clock with
    | some _ => do
      if signal ≠ 0 ∧ Signal.effectOf signal = .ends then
        cutJob process.toNat
        let fate : Fate := ⟨128 + signal, some signal, some s.clock⟩
        modify fun s => { s with fates := s.fates.insert process.toNat fate }
      return true
    | none => do
      complain "No such process\n"
      return false

/-- The job that an argument names. -/
def job (name : String) : Running Job := do
  match Job.find (← get).jobs name with
  | .ok job => return job
  | .error fault => abort fault.message

/-- The process that an argument names. A job stands for a group of processes, as does a number
    after a minus sign. -/
def process (text : String) : Running Int := do
  match text.toList with
  | '-' :: digits => return -Int.ofNat (← number (String.ofList digits))
  | '%' :: _ => return -Int.ofNat (← job text).id
  | _ => return Int.ofNat (← number text)

/-- Sends a signal to the processes that arguments name. -/
def killAll (signal : Nat) (arguments : List String) : Running Unit := do
  if arguments.isEmpty then
    abort ("Usage: kill [-s sigspec | -signum | -sigspec] [pid | job]... or\n" ++
      "kill -l [exitstatus]")
  else do
    let found ← arguments.mapM fun a => do send signal (← process a)
    setStatus (if found.all id then 0 else 1)

/-- Prints the names of signals or the one that an exit code stands for. -/
def listSignals : Builtin
  | [] => printOut (Program.unlines (Signal.names.map String.toList))
  | a :: _ => do
    let n ← number a
    let signal := if 128 < n then n - 128 else n
    if 0 < signal ∧ signal < Signal.names.length then printOut (Effect.line (Signal.name signal))
    else abort ("invalid signal number or exit status: " ++ a)

def kill : Builtin := fun arguments => do
  match arguments with
  | [] => killAll 15 []
  | first :: rest =>
    match first.toList with
    | '-' :: c :: cs =>
      match Signal.number? (String.ofList (c :: cs)) with
      | some signal => killAll signal rest
      | none =>
        if first = "--" then killAll 15 rest
        else if first = "-l" then listSignals rest
        else if c = 's' then
          let (name, processes) :=
            if cs.isEmpty then (rest.head?.getD "", rest.tail) else (String.ofList cs, rest)
          match Signal.number? name with
          | some signal => killAll signal processes
          | none => abort ("invalid signal number or name: " ++ name)
        else abort ("Illegal option -" ++ c.toString)
    | _ => killAll 15 arguments

/-! ## Jobs -/

/-- Reports by which signal a process has been ended. -/
def reportSignal (signal : Nat) : Running Unit :=
  if Signal.isReported signal then writeError (Signal.describe signal) else pure ()

/-- Whether a process does anything about a signal. -/
def heeds (s : Session) (signal : Nat) : Bool :=
  match if Signal.canBeTrapped signal then s.traps.get? signal else none with
  | some text => !text.isEmpty
  | none => Signal.effectOf signal != .nothing

/-- Waits up to some time, and says whether that comes before any signal. -/
def waitUntil (time : Option Nat) : Running Bool := do
  let s ← get
  let own := if s.level ≠ 0 then [] else s.signals.filter fun sending =>
    sending.process = s.id && heeds s sending.signal &&
      (time.map fun time => decide (sending.time < time)).getD true
  match (own.mergeSort fun a b => a.time ≤ b.time).head?, time with
  | some sending, _ => do
    set { s with clock := max s.clock sending.time, status := 128 + sending.signal }
    return false
  | none, some time => do
    set { s with clock := max s.clock time }
    return true
  | none, none => throw .endless

/-- Waits for the end of a job and takes its status. Says whether no signal came before. -/
def waitFor (job : Job) : Running Bool := do
  let fate := ((← get).fates.get? job.id).getD ⟨0, none, some 0⟩
  let reached ← waitUntil fate.ends
  if reached then
    modify fun s =>
      { s with
        status := fate.status
        jobs := s.jobs.map fun j => if j.number = job.number then { j with waited := true } else j }
    fate.signal.forM reportSignal
  return reached

/-- Waits for the jobs that are named, up to the first signal. -/
def waitForAll : List String → Running Unit
  | [] => return
  | name :: rest => do
    if name.startsWith "%" then
      if ← waitFor (← job name) then waitForAll rest
    else
      let n ← number name
      match (← get).jobs.find? fun job => job.id = n with
      | some job => if ← waitFor job then waitForAll rest
      | none => waitForAll rest

/-- Waits for jobs, and takes the status of the last one that is found. -/
def wait : Builtin := fun arguments => withOptions "" arguments fun _ names => do
  if names.isEmpty then
    let s ← get
    let fates := s.jobs.filterMap fun job => s.fates.get? job.id
    let last := fates.foldl (fun last fate => last.bind fun last => fate.ends.map (max last))
      (some s.clock)
    setStatus 0
    if ← waitUntil last then
      modify fun s => { s with jobs := s.jobs.map fun job => { job with waited := true } }
  else do
    setStatus 127
    waitForAll names

/-- Shows a job that is one of some, and forgets it if it has ended. -/
def showJob (letters : List Char) (job : Job) : Running Unit := do
  let s ← get
  let fate := (s.fates.get? job.id).getD ⟨0, none, some 0⟩
  if letters.getLast? = some 'p' then printOut (Effect.line (toString job.id))
  else do
    printOut (job.line s.jobs (fate.state s.clock) (letters.contains 'l'))
    if fate.hasEnded s.clock then
      modify fun s => { s with jobs := s.jobs.filter fun j => j.number ≠ job.number }

def jobs : Builtin := fun arguments => withOptions "lp" arguments fun letters names => do
  setStatus 0
  if names.isEmpty then (← get).jobs.forM (showJob letters)
  else names.forM fun name => do showJob letters (← job name)

/-- Refuses to let a job go on, which only those can that are under the control of a terminal. -/
def resume : Builtin := fun arguments => withOptions "" arguments fun _ names => do
  let s ← get
  let found := match names.head? with
    | some name => Job.find s.jobs name
    | none => Job.current s.jobs
  match found with
  | .error fault => abort fault.message
  | .ok _ => abort (Job.Fault.uncontrolled names.head?).message

end MavenPom.Shell.Builtin
