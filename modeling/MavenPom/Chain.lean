import MavenPom.Action

/-!
# Chains of commands

Commands run forward until one handles the request. Then every command that ran is called again, in
reverse order, so that an early one can use on the way out what it prepared on the way in.
-/

namespace MavenPom

inductive Outcome where
  /-- The command has dealt with the request, and no further one is tried. -/
  | handled
  | notApplicable
  deriving DecidableEq, Repr

structure Command (σ ε : Type) where
  name : String
  /-- Whether the command only guards or prepares, and so never counts as having changed
      anything. -/
  isSupport : Bool
  execute : Action σ ε Outcome
  /-- The command's turn on the way out; `true` ends it. -/
  postProcess : Action σ ε Bool

/-- A state that keeps whether a command has changed what a request is about. -/
class Modifiable (σ : Type) where
  /-- Whether the request is one to change something. -/
  isMutation : σ → Bool
  markModified : σ → σ

namespace Chain

variable {σ ε : Type} [Modifiable σ]

/-- The state after a command has handled the request. -/
def noteHandled (c : Command σ ε) (s : σ) : σ :=
  if !c.isSupport && Modifiable.isMutation s then Modifiable.markModified s else s

/-- Executes commands until one handles the request. Gives the commands that ran, the last one
    first, and whether any handled it. -/
def forward (ran : List (Command σ ε)) :
    List (Command σ ε) → Action σ ε (List (Command σ ε) × Bool)
  | [] => pure (ran, false)
  | c :: rest => do
    match ← c.execute with
    | .handled => do
      modify (noteHandled c)
      pure (c :: ran, true)
    | .notApplicable => forward (c :: ran) rest

/-- Gives commands their turn on the way out, until one ends it. -/
def backward : List (Command σ ε) → Action σ ε Unit
  | [] => pure ()
  | c :: rest => do
    if ← c.postProcess then pure () else backward rest

/-- Runs a chain, and says whether any command handled the request. A failure ends the run. -/
def run (commands : List (Command σ ε)) : Action σ ε Bool := do
  let (ran, handled) ← forward [] commands
  backward ran
  pure handled

end Chain

end MavenPom
