/-!
# Actions

Steps that change a state and may fail. What such a step has changed before it fails stays changed.
-/

namespace MavenPom

/-- A step that changes a state, also where it fails. -/
abbrev Action (σ ε α : Type) := ExceptT ε (StateM σ) α

/-- Takes a step on a part of a state, and reports its failure as a cause. -/
def Action.onPart {σ τ ε ε' α : Type} (part : τ → σ) (put : τ → σ → τ) (cause : ε → ε')
    (action : Action σ ε α) : Action τ ε' α :=
  ExceptT.mk fun s =>
    let (result, p) := StateT.run (ExceptT.run action) (part s)
    (result.mapError cause, put s p)

end MavenPom
