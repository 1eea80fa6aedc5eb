import MavenPom.Shell.Octets
import MavenPom.Text.Number

/-!
# Limits of processes

How much of something a process may use. Each limit has a bound that counts and one up to which that
may be set.
-/

namespace MavenPom.Shell

/-- Something that is limited, in units of a number of bytes or of whatever is counted. -/
structure Resource where
  letter : Char
  name : String
  unit : Nat
  /-- The limit that there is if none has been set. -/
  standard : Option Nat
  deriving DecidableEq, Repr

/-- The bounds of a limit, of which a missing one is unlimited. -/
structure Limit where
  soft : Option Nat
  hard : Option Nat
  deriving DecidableEq, Repr

namespace Limit

def resources : List Resource :=
  [⟨'t', "time(seconds)", 1, none⟩, ⟨'f', "file(blocks)", 512, none⟩,
    ⟨'d', "data(kbytes)", 1024, none⟩, ⟨'s', "stack(kbytes)", 1024, some 8388608⟩,
    ⟨'c', "coredump(blocks)", 512, none⟩, ⟨'m', "memory(kbytes)", 1024, none⟩,
    ⟨'l', "locked memory(kbytes)", 1024, some 8388608⟩, ⟨'p', "process", 1, none⟩,
    ⟨'n', "nofiles", 1, some 1048576⟩, ⟨'v', "vmemory(kbytes)", 1024, none⟩,
    ⟨'w', "locks", 1, none⟩, ⟨'r', "rtprio", 1, some 0⟩]

/-- The letters of all resources. -/
def letters : String := String.ofList (resources.map (·.letter))

def standard (r : Resource) : Limit := ⟨r.standard, if r.letter = 's' then none else r.standard⟩

/-- Which bound is meant. Where none is named, both are set and the one that counts is shown. -/
inductive Bound where
  | both
  | soft
  | hard
  deriving DecidableEq, Repr

def get (l : Limit) : Bound → Option Nat
  | .hard => l.hard
  | _ => l.soft

def set (l : Limit) (value : Option Nat) : Bound → Limit
  | .both => ⟨value, value⟩
  | .soft => { l with soft := value }
  | .hard => { l with hard := value }

/-- Whether the bound that counts is no higher than the other one. -/
def isSound (l : Limit) : Bool :=
  match l.soft, l.hard with
  | _, none => true
  | none, some _ => false
  | some soft, some hard => soft ≤ hard

/-- A bound in the units of a resource. -/
def print (r : Resource) (value : Option Nat) : String :=
  match value with
  | none => "unlimited"
  | some n => toString (n / r.unit)

/-- The bound that a text writes in the units of a resource. -/
def read? (r : Resource) (text : String) : Option (Option Nat) :=
  if text = "unlimited" then some none
  else if text.isEmpty then some (some 0)
  else (Text.number? 10 text.toList).map fun n => some (n * r.unit)

end Limit

end MavenPom.Shell
