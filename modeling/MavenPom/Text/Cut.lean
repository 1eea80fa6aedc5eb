import MavenPom.Text.Blank

/-!
# Cutting text

Taking a known text off the front, and splitting at the first place where a known text or a
character stands. The lines of a text: a line ends with `\n` or `\r\n`, and the last one need not
end.
-/

namespace MavenPom.Text

/-- What follows `front` in a text that begins with it. -/
def strip? : List Char → List Char → Option (List Char)
  | [], cs => some cs
  | _ :: _, [] => none
  | p :: front, c :: cs => if p = c then strip? front cs else none

/-- What stands before and after the first occurrence of `mark`. -/
def cut? (mark : List Char) : List Char → Option (List Char × List Char)
  | [] => (strip? mark []).map ([], ·)
  | c :: cs =>
    match strip? mark (c :: cs) with
    | some after => some ([], after)
    | none => (cut? mark cs).map fun (before, after) => (c :: before, after)

/-- What stands before and after the first `c`. -/
def splitOnce? (c : Char) (s : String) : Option (String × String) :=
  (cut? [c] s.toList).map fun (before, after) => (String.ofList before, String.ofList after)

/-- The parts between the occurrences of `c`; one part when there is none. -/
def fields (c : Char) (s : String) : List String :=
  (s.toList.splitOn c).map String.ofList

/-- The parts of `s` between runs of blanks. -/
def words (s : String) : List String :=
  ((s.toList.splitOnP isBlank).filter (· ≠ [])).map String.ofList

theorem strip?_eq_some_iff {front cs rest : List Char} :
    strip? front cs = some rest ↔ cs = front ++ rest := by
  induction front generalizing cs with
  | nil => simp [strip?, eq_comm]
  | cons p front ih =>
    cases cs with
    | nil => simp [strip?]
    | cons c cs =>
      by_cases h : p = c
      · simp [strip?, h, ih]
      · simp [strip?, h, Ne.symm h]

/-- A cut keeps every character. -/
theorem eq_of_cut? {mark cs before after : List Char} (h : cut? mark cs = some (before, after)) :
    cs = before ++ mark ++ after := by
  induction cs generalizing before after with
  | nil =>
    simp only [cut?, Option.map_eq_some_iff, Prod.mk.injEq] at h
    obtain ⟨rest, hrest, rfl, rfl⟩ := h
    simpa using strip?_eq_some_iff.mp hrest
  | cons c cs ih =>
    unfold cut? at h
    split at h
    · next rest hrest =>
      obtain ⟨rfl, rfl⟩ := Prod.mk.inj (Option.some.inj h)
      simpa using strip?_eq_some_iff.mp hrest
    · simp only [Option.map_eq_some_iff, Prod.mk.injEq, Prod.exists] at h
      obtain ⟨front, rest, hcut, rfl, rfl⟩ := h
      simpa using ih hcut

/-- How often a mark that is not empty stands in a text, without overlaps. -/
def occurrences (mark : List Char) (cs : List Char) : Nat :=
  if _hmark : mark = [] then 0
  else
    match _h : cut? mark cs with
    | none => 0
    | some (_, after) => occurrences mark after + 1
termination_by cs.length
decreasing_by
  have hlength := congrArg List.length (eq_of_cut? _h)
  have hpos := List.length_pos_iff.mpr _hmark
  simp only [List.length_append] at hlength
  omega

/-! ## Lines -/

/-- A line without the carriage return at its end. -/
def dropReturn (line : List Char) : List Char :=
  match line.getLast? with
  | some '\r' => line.dropLast
  | _ => line

/-- Lines from the parts between line feeds. Nothing after the last one is no line. -/
def linesOfParts : List (List Char) → List (List Char)
  | [] => []
  | [last] => if last.isEmpty then [] else [last]
  | part :: rest => dropReturn part :: linesOfParts rest

def lines (s : String) : List (List Char) := linesOfParts (s.toList.splitOn '\n')

/-- Whether a mark stands anywhere in a text. -/
def contains (mark : String) (cs : List Char) : Bool := (cut? mark.toList cs).isSome

end MavenPom.Text
