import MavenPom.Markup.Token

/-!
# Indentation

The line breaks and the indent unit of a document, as elements added to it should use them.
-/

namespace MavenPom.Markup

inductive LineBreak where
  | lf
  | crlf
  deriving DecidableEq, Repr

namespace LineBreak

def text : LineBreak → String
  | .lf => "\n"
  | .crlf => "\r\n"

/-- The counts of `\r\n` and of bare `\n`, where `afterReturn` says whether a `\r` came last. -/
def count (afterReturn : Bool) : List Char → Nat × Nat
  | [] => (0, 0)
  | c :: cs =>
    let (pairs, bare) := count (c == '\r') cs
    if c = '\n' then if afterReturn then (pairs + 1, bare) else (pairs, bare + 1)
    else (pairs, bare)

/-- The line break that a text uses more often, or `\n` in a tie. -/
def detect (s : String) : LineBreak :=
  let (pairs, bare) := count false s.toList
  if pairs > bare then .crlf else .lf

end LineBreak

/-- How the lines of a document are broken and indented. -/
structure Indent where
  unit : String
  lineBreak : LineBreak
  deriving DecidableEq, Repr

namespace Indent

/-- Two spaces, and `\n`. -/
def standard : Indent := ⟨"  ", .lf⟩

/-- A line break and `depth` indent units. -/
def newline (i : Indent) (depth : Nat) : String :=
  i.lineBreak.text ++ String.join (List.replicate depth i.unit)

/-- An indent unit: a number of spaces or of tabs. -/
structure Measure where
  char : Char
  width : Nat
  deriving DecidableEq, Repr

def Measure.text (m : Measure) : String :=
  String.ofList (List.replicate m.width m.char)

/-- The unit of which `blanks` are `level` repetitions. -/
def measure? (blanks : List Char) (level : Nat) : Option Measure :=
  match blanks with
  | [] => none
  | first :: _ =>
    if level = 0 ∨ ¬(first = ' ' ∨ first = '\t') ∨ blanks.any (· != first) then none
    else if blanks.length % level = 0 then some ⟨first, blanks.length / level⟩
    else none

/-- The blanks after the last line break of a text that is blank. -/
def lineStart? (raw : String) : Option (List Char) :=
  if Text.isAllBlank raw ∧ raw.toList.contains '\n' then
    some (raw.toList.reverse.takeWhile (· != '\n')).reverse
  else none

/-- The units that each line's indentation suggests, given the number of elements open and the
    blanks that stand before the next token on its line. -/
def measures (depth : Nat) (pending : Option (List Char)) : List Token → List Measure
  | [] => []
  | token :: rest =>
    let at? (level : Nat) : List Measure := (pending.bind (measure? · level)).toList
    match token with
    | .startTag _ => at? depth ++ measures (depth + 1) none rest
    | .emptyTag _ => at? depth ++ measures depth none rest
    | .comment _ => at? depth ++ measures depth none rest
    | .endTag _ => at? (depth - 1) ++ measures (depth - 1) none rest
    | .text raw => measures depth (lineStart? raw) rest
    | _ => measures depth none rest

/-- Whether `a`, suggested `m` times, is to be preferred to `b`, suggested `n` times: the more
    frequent, then the narrower, then the one of the greater character. -/
def preferred (a : Measure) (m : Nat) (b : Measure) (n : Nat) : Bool :=
  if m ≠ n then m > n
  else if a.width ≠ b.width then a.width < b.width
  else a.char > b.char

/-- The preferred unit among suggestions. -/
def best? (all : List Measure) : Option Measure :=
  all.foldl (fun best m =>
    match best with
    | none => some m
    | some b => if preferred m (all.count m) b (all.count b) then some m else some b) none

/-- The indentation of a document, with two spaces where nothing shows it. -/
def infer (text : String) : Indent :=
  let tokens := (Token.scan text).lexemes.map (·.token)
  ⟨((best? (measures 0 none tokens)).map Measure.text).getD standard.unit, LineBreak.detect text⟩

end Indent

end MavenPom.Markup
