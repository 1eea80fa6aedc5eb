import MavenPom.Shell.Octets

/-!
# Shell patterns

Patterns for texts and names of files, in which a star stands for any text, a question mark for any
character and brackets for a character among some.
-/

namespace MavenPom.Shell

/-- A character of a word that has been put in, and whether it was quoted. -/
structure Glyph where
  char : Char
  quoted : Bool
  deriving DecidableEq, Repr

namespace Glob

/-! ## Text of patterns -/

/-- Whether a character that is quoted has a backslash before it. -/
def isEscaped (c : Char) : Bool := "!*?[=~:/-]\\".toList.contains c

/-- A pattern as text in which backslashes quote. -/
def written (pattern : List Glyph) : List Char :=
  pattern.flatMap fun g => if g.quoted ∧ isEscaped g.char then ['\\', g.char] else [g.char]

/-- The glyphs of a text in which backslashes quote. -/
def glyphs : List Char → List Glyph
  | [] => []
  | '\\' :: c :: cs => ⟨c, true⟩ :: glyphs cs
  | c :: cs => ⟨c, false⟩ :: glyphs cs

/-! ## Pieces -/

def classNames : List String :=
  ["alpha", "digit", "alnum", "upper", "lower", "space", "blank", "punct", "print", "graph",
    "cntrl", "xdigit"]

/-- The classes of characters that have names. -/
def isInClass (name : String) (c : Char) : Bool :=
  match name with
  | "alpha" => c.isAlpha
  | "digit" => c.isDigit
  | "alnum" => c.isAlphanum
  | "upper" => c.isUpper
  | "lower" => c.isLower
  | "space" => c == ' ' || (0x09 ≤ c.toNat && c.toNat ≤ 0x0D)
  | "blank" => c == ' ' || c == '\t'
  | "punct" => 0x21 ≤ c.toNat && c.toNat < 0x7F && !c.isAlphanum
  | "print" => 0x20 ≤ c.toNat && c.toNat < 0x7F
  | "graph" => 0x21 ≤ c.toNat && c.toNat < 0x7F
  | "cntrl" => c.toNat < 0x20 || c.toNat == 0x7F
  | "xdigit" => c.isDigit || ('a' ≤ c && c ≤ 'f') || ('A' ≤ c && c ≤ 'F')
  | _ => false

/-- A member of a set of characters. -/
inductive Member where
  | range (low high : Char)
  | family (name : String)
  deriving DecidableEq, Repr

/-- The place of a character among all. Those beyond ASCII come first. -/
def placeOf (c : Char) : Nat := (c.toNat + 128) % 256

def Member.accepts (c : Char) : Member → Bool
  | range low high => placeOf low ≤ placeOf c && placeOf c ≤ placeOf high
  | family name => isInClass name c

/-- A piece of a pattern. -/
inductive Piece where
  | char (c : Char)
  | any
  | run
  | set (negated : Bool) (members : List Member)
  deriving DecidableEq, Repr

def Piece.accepts (c : Char) : Piece → Bool
  | char d => c == d
  | set negated members => (members.any (·.accepts c)) != negated
  | _ => true

/-- The name of a class that glyphs begin with, after its bracket and colon. -/
def className? (gs : List Glyph) : Option (String × List Glyph) :=
  let letters := (gs.takeWhile fun g => g.char.isAlpha).map (·.char)
  let name := String.ofList letters
  match gs.drop letters.length with
  | ⟨':', false⟩ :: ⟨']', false⟩ :: rest =>
    if classNames.contains name then some (name, rest) else none
  | _ => none

/-- The members up to a closing bracket, which is a member itself where it comes first. -/
def members? (first : Bool) : Nat → List Glyph → Option (List Member × List Glyph)
  | 0, _ => none
  | _, [] => none
  | n + 1, g :: rest =>
    if g.char = ']' ∧ ¬g.quoted ∧ ¬first then some ([], rest)
    else
      match if g = ⟨'[', false⟩ ∧ rest.head? = some ⟨':', false⟩ then className? rest.tail
        else none with
      | some (name, rest) =>
        (members? false n rest).map fun (ms, rest) => (.family name :: ms, rest)
      | none =>
        match rest with
        | ⟨'-', false⟩ :: high :: rest' =>
          if high.char = ']' ∧ ¬high.quoted then
            (members? false n rest).map fun (ms, rest) => (.range g.char g.char :: ms, rest)
          else
            (members? false n rest').map fun (ms, rest) => (.range g.char high.char :: ms, rest)
        | _ => (members? false n rest).map fun (ms, rest) => (.range g.char g.char :: ms, rest)

/-- The set that glyphs begin with, after its opening bracket. -/
def set? (gs : List Glyph) : Option (Piece × List Glyph) :=
  let negated := gs.head? = some ⟨'!', false⟩
  let gs := if negated then gs.tail else gs
  (members? true (gs.length + 1) gs).map fun (ms, rest) => (.set negated ms, rest)

/-- The pieces of a pattern of no more than a number of glyphs. -/
def piecesWithin : Nat → List Glyph → List Piece
  | 0, _ => []
  | _, [] => []
  | n + 1, g :: rest =>
    if g.quoted then .char g.char :: piecesWithin n rest
    else
      match g.char with
      | '*' => .run :: piecesWithin n rest
      | '?' => .any :: piecesWithin n rest
      | '[' =>
        match set? rest with
        | some (piece, rest) => piece :: piecesWithin n rest
        | none => .char '[' :: piecesWithin n rest
      | c => .char c :: piecesWithin n rest

/-- The pieces of a pattern that is given as text. -/
def piecesOf (cs : List Char) : List Piece := piecesWithin cs.length (glyphs cs)

def pieces (pattern : List Glyph) : List Piece := piecesOf (written pattern)

/-- Whether a whole text matches pieces. -/
def accepts : List Piece → List Char → Bool
  | [], cs => cs.isEmpty
  | .run :: ps, [] => accepts ps []
  | .run :: ps, c :: cs => accepts ps (c :: cs) || accepts (.run :: ps) cs
  | _ :: _, [] => false
  | p :: ps, c :: cs => p.accepts c && accepts ps cs
termination_by ps cs => ps.length + cs.length

/-- Whether a whole text matches a pattern. -/
def isMatch (pattern : List Glyph) (cs : List Char) : Bool := accepts (pieces pattern) cs

/-- Whether a word has a piece that can match several texts. -/
def isOpen (pattern : List Glyph) : Bool :=
  (pieces pattern).any fun p => match p with
    | .char _ => false
    | _ => true

end Glob

end MavenPom.Shell
