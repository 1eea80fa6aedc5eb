import MavenPom.Table

/-!
# Interpolation

Replacing `${name}` references in text by the values of properties, again and again for the
references in the values. Unknown names stay as they are written.
-/

namespace MavenPom

/-- The values of properties by name. -/
abbrev Properties := Table String String

namespace Interpolation

/-- The name of the reference that follows a dollar sign, and what follows the reference. -/
def reference? : List Char → Option (List Char × List Char)
  | '{' :: cs =>
    let name := cs.takeWhile (· != '}')
    match cs.dropWhile (· != '}') with
    | _ :: rest => if name.isEmpty then none else some (name, rest)
    | [] => none
  | _ => none

/-- A character that stands for itself, or a reference to a property. -/
inductive Piece where
  | plain (c : Char)
  | reference (name : List Char)
  deriving DecidableEq, Repr

theorem reference?_length_lt {cs name rest : List Char} (h : reference? cs = some (name, rest)) :
    rest.length < cs.length := by
  unfold reference? at h
  split at h
  · next cs =>
    simp only at h
    split at h
    · next c after heq =>
      have hdrop := (List.dropWhile_sublist (· != '}') (l := cs)).length_le
      rw [heq, List.length_cons] at hdrop
      split at h
      · exact absurd h (by simp)
      · obtain ⟨-, rfl⟩ := Prod.mk.inj (Option.some.inj h)
        simp only [List.length_cons]
        omega
    · exact absurd h (by simp)
  · exact absurd h (by simp)

/-- The pieces of a text. -/
def pieces : List Char → List Piece
  | [] => []
  | c :: cs =>
    if c = '$' then
      match _h : reference? cs with
      | some (name, rest) => .reference name :: pieces rest
      | none => .plain c :: pieces cs
    else .plain c :: pieces cs
termination_by cs => cs.length
decreasing_by
  · exact Nat.lt_succ_of_lt (reference?_length_lt _h)
  · exact Nat.lt_succ_self _
  · exact Nat.lt_succ_self _

/-- Whether a text has a reference. -/
def hasReference (text : String) : Bool :=
  (pieces text.toList).any fun
    | .reference _ => true
    | .plain _ => false

/-- A piece as it is written. -/
def Piece.spelling : Piece → List Char
  | .plain c => [c]
  | .reference name => '$' :: '{' :: name ++ ['}']

/-- A piece with the value of its property, if it has one. -/
def Piece.value (props : Properties) : Piece → List Char
  | .plain c => [c]
  | .reference name =>
    match props.get? (String.ofList name) with
    | some v => v.toList
    | none => (Piece.reference name).spelling

/-- Replaces each reference once. -/
def expandOnce (props : Properties) (text : String) : String :=
  String.ofList ((pieces text.toList).flatMap (Piece.value props))

/-- Replaces references until nothing changes, at most so many times. -/
def expandUpTo (props : Properties) : Nat → String → String
  | 0, text => text
  | rounds + 1, text =>
    let next := expandOnce props text
    if next = text then text else expandUpTo props rounds next

/-- How many references deep a value is followed. -/
def maxDepth : Nat := 16

end Interpolation

/-- The text with its references replaced. -/
def interpolate (props : Properties) (text : String) : String :=
  Interpolation.expandUpTo props Interpolation.maxDepth text

end MavenPom
