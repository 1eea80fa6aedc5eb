import MavenPom.Shell.Glob

/-!
# Cutting

What is left of a text when a match is cut off it. Several values are cut as one text with a zero
between them, and a match never goes beyond a zero. A match at the beginning is sought only in the
first value. For one at the end all values are searched from behind, in the memory in which they
lie, where some characters have a mark before them.
-/

namespace MavenPom.Shell

namespace Cut

/-- Values in memory. -/
structure Values where
  /-- The values with zeros between them. -/
  text : List Char
  quoted : Bool
  deriving DecidableEq, Repr

/-- The text up to a zero. -/
def upToZero (cs : List Char) : List Char := cs.takeWhile (· != '\x00')

/-- Whether a character has a mark before it in memory. -/
def isMarked (quoted : Bool) (c : Char) : Bool :=
  ('\x81' ≤ c && c ≤ '\x88') || (quoted && Glob.isEscaped c)

namespace Values

/-- The first value. -/
def first (v : Values) : List Char := upToZero v.text

/-- The text with marks. -/
def marked (v : Values) : List Char :=
  v.text.flatMap fun c => if isMarked v.quoted c then ['\x81', c] else [c]

/-- Whether the first value is copied behind the others to be without marks. -/
def copied (v : Values) : Bool := v.first.any (isMarked v.quoted)

/-- The memory in which beginnings are sought. -/
def front (v : Values) : List Char := if v.copied then v.first else v.marked

/-- The memory in which ends are sought, of which a pattern may be a part. -/
def back (v : Values) (pattern : List Char) : List Char :=
  if v.copied then v.marked ++ '\x00' :: pattern ++ '\x00' :: v.first else v.marked

end Values

/-- The ends of a text, the shortest first. -/
def suffixes (cs : List Char) : List (List Char) :=
  (cs.foldr (fun c found => (c :: found.headD []) :: found) [[]]).reverse

/-- Whether the text may be cut to a number of last characters for a match of a pattern at its
    beginning. That of more characters than a copy has is sought before it, where the pattern ends
    early. -/
def leaves (pattern : List Glyph) (v : Values) (n : Nat) : Bool :=
  let before := n - v.first.length
  if v.copied ∧ 0 < before then
    let memory := Glob.written pattern
    1 < before && before ≤ memory.length + 1 &&
      Glob.accepts (Glob.piecesOf (memory.take (memory.length + 1 - before))) v.first
  else Glob.accepts (Glob.pieces pattern) (upToZero (v.front.take (v.front.length - n)))

/-- The text without a match at its beginning. -/
def atFront (longest : Bool) (pattern : List Glyph) (v : Values) : List Char :=
  let ps := Glob.pieces pattern
  if longest then
    match (List.range (v.text.length + 1)).find? (leaves pattern v) with
    | some n => v.text.drop (v.text.length - n)
    | none => v.text
  else
    match (List.range (v.first.length + 1)).find? fun n => Glob.accepts ps (v.first.take n) with
    | some n => v.text.drop n
    | none => v.text

/-- The text without a match at its end. -/
def atBack (longest : Bool) (pattern : List Glyph) (v : Values) : List Char :=
  let ps := Glob.pieces pattern
  if longest then
    match (suffixes v.first).reverse.findIdx? (Glob.accepts ps) with
    | some n => v.text.take n
    | none => v.text
  else
    let ends := suffixes (v.back (Glob.written pattern))
    match (ends.take (v.text.length + 1)).findIdx? fun cs => Glob.accepts ps (upToZero cs) with
    | some n => v.text.take (v.text.length - n)
    | none => v.text

end Cut

end MavenPom.Shell
