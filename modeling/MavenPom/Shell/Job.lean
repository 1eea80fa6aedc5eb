import MavenPom.Shell.Octets
import MavenPom.Text.Number

/-!
# Signals and jobs

The signals that processes send each other, by their numbers, and what runs beside a script. Jobs
are kept with the last one that was started first, and each has a number, which another one gets
when the script has waited for it and starts something else.
-/

namespace MavenPom.Shell

/-! ## Signals -/

/-- What a signal does to a process that has not asked for anything else. -/
inductive SignalEffect where
  | ends
  | nothing
  | stops
  deriving DecidableEq, Repr

structure Signal where
  number : Nat
  title : String
  effect : SignalEffect
  description : String
  deriving DecidableEq, Repr

namespace Signal

def all : List Signal :=
  [⟨1, "HUP", .ends, "Hangup"⟩, ⟨2, "INT", .ends, "Interrupt"⟩, ⟨3, "QUIT", .ends, "Quit"⟩,
    ⟨4, "ILL", .ends, "Illegal instruction"⟩, ⟨5, "TRAP", .ends, "Trace/breakpoint trap"⟩,
    ⟨6, "ABRT", .ends, "Aborted"⟩, ⟨7, "BUS", .ends, "Bus error"⟩,
    ⟨8, "FPE", .ends, "Floating point exception"⟩, ⟨9, "KILL", .ends, "Killed"⟩,
    ⟨10, "USR1", .ends, "User defined signal 1"⟩, ⟨11, "SEGV", .ends, "Segmentation fault"⟩,
    ⟨12, "USR2", .ends, "User defined signal 2"⟩, ⟨13, "PIPE", .ends, "Broken pipe"⟩,
    ⟨14, "ALRM", .ends, "Alarm clock"⟩, ⟨15, "TERM", .ends, "Terminated"⟩,
    ⟨16, "16", .ends, "Stack fault"⟩, ⟨17, "CHLD", .nothing, "Child exited"⟩,
    ⟨18, "CONT", .nothing, "Continued"⟩, ⟨19, "STOP", .stops, "Stopped (signal)"⟩,
    ⟨20, "TSTP", .stops, "Stopped"⟩, ⟨21, "TTIN", .stops, "Stopped (tty input)"⟩,
    ⟨22, "TTOU", .stops, "Stopped (tty output)"⟩, ⟨23, "URG", .nothing, "Urgent I/O condition"⟩,
    ⟨24, "XCPU", .ends, "CPU time limit exceeded"⟩,
    ⟨25, "XFSZ", .ends, "File size limit exceeded"⟩,
    ⟨26, "VTALRM", .ends, "Virtual timer expired"⟩,
    ⟨27, "PROF", .ends, "Profiling timer expired"⟩, ⟨28, "WINCH", .nothing, "Window changed"⟩,
    ⟨29, "IO", .ends, "I/O possible"⟩, ⟨30, "PWR", .ends, "Power failure"⟩,
    ⟨31, "SYS", .ends, "Bad system call"⟩]

def numbered? (n : Nat) : Option Signal := all.find? (·.number = n)

/-- The first of the signals that have no meaning of their own. -/
def firstFree : Nat := 34

def describe (n : Nat) : String :=
  match numbered? n with
  | some signal => signal.description
  | none =>
    if n < firstFree then "Unknown signal " ++ toString n
    else "Real-time signal " ++ toString (n - firstFree)

/-- Whether a script is told of a process that it waited for that this signal has ended it. -/
def isReported (n : Nat) : Bool := n != 2 && n != 13

/-- The names of all signals from the number 0 on, those for the use of programs among them. -/
def names : List String :=
  "0" :: all.map (·.title) ++ ["32", "33", "RTMIN"] ++
    ((List.range 15).map fun n => "RTMIN+" ++ toString (n + 1)) ++
    ((List.range 14).map fun n => "RTMAX-" ++ toString (14 - n)) ++ ["RTMAX"]

/-- The name of a signal by its number. -/
def name (n : Nat) : String := names[n]?.getD ""

/-- The number of the signal that a text names. The number 0 stands for none. -/
def number? (text : String) : Option Nat :=
  match Text.number? 10 text.toList with
  | some n => if n < names.length then some n else none
  | none => names.findIdx? (· == text.toUpper)

/-- What becomes of a process that gets a signal. -/
def effectOf (n : Nat) : SignalEffect := ((numbered? n).map (·.effect)).getD .ends

/-- Whether a process can ask for something else. -/
def canBeTrapped (n : Nat) : Bool := n != 9 && n != 19

end Signal

/-! ## Jobs -/

/-- What becomes of a process that runs beside another one. -/
structure Fate where
  /-- The exit code, and the signal if one ends it. -/
  status : Nat
  signal : Option Nat
  /-- When it ends, in microseconds, if it does. -/
  ends : Option Nat
  deriving DecidableEq, Repr

namespace Fate

/-- Whether a process has ended at some time. -/
def hasEnded (fate : Fate) (clock : Nat) : Bool :=
  (fate.ends.map fun ends => decide (ends ≤ clock)).getD false

/-- What has become of a process at some time. -/
def state (fate : Fate) (clock : Nat) : String :=
  if ¬fate.hasEnded clock then "Running"
  else
    match fate.signal with
    | some signal => Signal.describe signal
    | none => if fate.status = 0 then "Done" else "Done(" ++ toString fate.status ++ ")"

end Fate

/-- A job that runs beside the script that has started it. -/
structure Job where
  number : Nat
  /-- The number of its last process. -/
  id : Nat
  /-- How many processes it has. -/
  size : Nat
  /-- Whether its end has been waited for. -/
  waited : Bool
  deriving DecidableEq, Repr

namespace Job

/-- The first number from one on that a new process can have, among no more than some. -/
def freeNumberFrom (jobs : List Job) : Nat → Nat → Nat
  | number, 0 => number
  | number, n + 1 =>
    if jobs.any fun job => job.number = number && !job.waited then
      freeNumberFrom jobs (number + 1) n
    else number

def freeNumber (jobs : List Job) : Nat := freeNumberFrom jobs 1 jobs.length

/-- The jobs that are kept when something new is started. -/
def makeRoom (jobs : List Job) : List Job :=
  jobs.filter fun job => job.number ≠ freeNumber jobs

/-- Why no job is named by a text. -/
inductive Fault where
  | noCurrent
  | noPrevious
  | unknown (name : String)
  | ambiguous (name : String)
  /-- It is there, but nothing that needs a terminal can be done with it. -/
  | uncontrolled (name : Option String)
  deriving DecidableEq, Repr

def Fault.message : Fault → String
  | .noCurrent => "No current job"
  | .noPrevious => "No previous job"
  | .unknown name => "No such job: " ++ name
  | .ambiguous name => name ++ ": ambiguous"
  | .uncontrolled name => "job " ++ name.getD "(null)" ++ " not created under job control"

/-- The last job. -/
def current (jobs : List Job) : Except Fault Job :=
  match jobs with
  | job :: _ => .ok job
  | [] => .error .noCurrent

/-- The job that a text names. The commands of jobs are not known, so that the empty text is found
    in each of them and no other text is. -/
def find (jobs : List Job) (name : String) : Except Fault Job :=
  match name.toList with
  | ['%'] => current jobs
  | ['%', '+'] => current jobs
  | ['%', '%'] => current jobs
  | ['%', '-'] =>
    match jobs with
    | _ :: job :: _ => .ok job
    | _ => .error .noPrevious
  | ['%', '?'] =>
    match jobs with
    | [job] => .ok job
    | [] => .error (.unknown name)
    | _ => .error (.ambiguous name)
  | '%' :: cs =>
    match (Text.number? 10 cs).bind fun n => jobs.find? (·.number = n) with
    | some job => .ok job
    | none => .error (.unknown name)
  | _ => .error (.unknown name)

/-- How many columns come before the commands of a job. -/
def commandColumn : Nat := 33

/-- The line that shows a job among others in some state, perhaps with the number of its process. -/
def line (jobs : List Job) (state : String) (numbered : Bool) (job : Job) : List Char :=
  let mark := match jobs.findIdx? (·.number = job.number) with
    | some 0 => "+"
    | some 1 => "-"
    | _ => " "
  let text := "[" ++ toString job.number ++ "] " ++ mark ++ " " ++
    (if numbered then toString job.id ++ " " else "") ++ state
  let cs := text.toList
  cs ++ List.replicate (max 1 (commandColumn - cs.length)) ' ' ++
    (List.replicate (job.size - 1) " | ".toList).flatten ++ ['\n']

end Job

end MavenPom.Shell
