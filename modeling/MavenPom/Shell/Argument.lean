import MavenPom.Shell.Session

/-!
# Arguments of commands

What the commands of the shell have in common: how they take options and numbers from their
arguments, and how they print text that could stand in a script.
-/

namespace MavenPom.Shell

/-- A command of the shell, given its arguments. -/
abbrev Builtin := List String → Running Unit

namespace Builtin

/-- The letters of options at the beginning of arguments, and the arguments after them, or a letter
    that is none. -/
def options (allowed : String) : List String → Except Char (List Char × List String)
  | [] => .ok ([], [])
  | a :: rest =>
    match a.toList with
    | ['-', '-'] => .ok ([], rest)
    | '-' :: c :: cs =>
      match (c :: cs).find? fun letter => !allowed.toList.contains letter with
      | some letter => .error letter
      | none => (options allowed rest).map fun (more, rest) => (c :: cs ++ more, rest)
    | _ => .ok ([], a :: rest)

/-- The letters of options and the other arguments of a command that cannot go on without them. -/
def withOptions (allowed : String) (arguments : List String)
    (use : List Char → List String → Running Unit) : Running Unit :=
  match options allowed arguments with
  | .ok (letters, rest) => use letters rest
  | .error letter => abort ("Illegal option -" ++ letter.toString)

/-- The number that an argument writes. -/
def number (text : String) : Running Nat :=
  match number? text with
  | some n => pure n
  | none => abort (illegalNumber text)

/-- Text of no more than a number of characters between quotes. Quotes in it stand between others
    of the other kind. -/
def quoteWithin : Nat → List Char → List Char
  | 0, _ => []
  | n + 1, cs =>
    let quoted := cs.takeWhile (· != '\'')
    let ticks := (cs.drop quoted.length).takeWhile (· == '\'')
    let left := cs.drop (quoted.length + ticks.length)
    '\'' :: quoted ++ '\'' :: (if ticks.isEmpty then [] else '"' :: ticks ++ ['"']) ++
      (if left.isEmpty then [] else quoteWithin n left)

/-- Text as it would stand in a script. -/
def quote (cs : List Char) : List Char := quoteWithin (cs.length + 1) cs

end Builtin

end MavenPom.Shell
