import MavenPom.Text.Blank
import MavenPom.Text.Number

/-!
# Atoms and sets of patterns

A pattern is a regular expression for the value of a field. A brace closes the field, so a pattern
has none that closes, and whatever would need one is refused. A pattern is matched byte by byte, and
where a word of any language begins or ends cannot be told in this way: such boundaries are refused
as well, unless only ASCII counts. Sets of characters in brackets may hold others, and what stands
left and right of an operator is joined, subtracted or intersected. What a set comes to does not
matter here, only how deep its parts stand in each other.
-/

namespace MavenPom.Pattern

/-! ## Atoms -/

/-- How what follows is read. -/
structure Mode where
  /-- Whether blanks and comments are left out. -/
  spaced : Bool
  /-- Whether characters are matched, rather than bytes. Bytes must be those of ASCII. -/
  unicode : Bool
  deriving DecidableEq, Repr

/-- The text after blanks and comments, in one of which it may begin. -/
def afterBlanks : Bool → List Char → List Char
  | _, [] => []
  | true, c :: rest => afterBlanks (c != '\n') rest
  | false, c :: rest =>
    if Text.isBlank c then afterBlanks false rest
    else if c = '#' then afterBlanks true rest
    else c :: rest

/-- The text after what is left out. -/
def Mode.skip (m : Mode) (cs : List Char) : List Char :=
  if m.spaced then afterBlanks false cs else cs

inductive Atom where
  | char (c : Char)
  /-- A character that is written as a byte. -/
  | byte (c : Char)
  /-- Digits, blanks or the characters of words, or all others. -/
  | family (negated : Bool)
  /-- The characters of a category. -/
  | category
  /-- All characters but line breaks. -/
  | any
  /-- The start or the end of a text. -/
  | anchor
  /-- A place where a word begins or ends, or where none does. -/
  | boundary
  deriving DecidableEq, Repr

namespace Atom

/-- Whether an atom may stand by itself. -/
def isAllowed (m : Mode) : Atom → Bool
  | char _ => true
  | byte c => m.unicode || c.toNat < 0x80
  | family negated => m.unicode || !negated
  | category => m.unicode
  | any => m.unicode
  | anchor => true
  | boundary => !m.unicode

/-- Whether an atom may be a member of a set. -/
def isMember (m : Mode) : Atom → Bool
  | char c => m.unicode || c.toNat < 0x80
  | byte c => m.unicode || c.toNat < 0x80
  | family negated => m.unicode || !negated
  | category => m.unicode
  | _ => false

def char? : Atom → Option Char
  | char c => some c
  | byte c => some c
  | _ => none

end Atom

/-! ## Escapes -/

/-- The characters with a meaning of their own. -/
def isMark (c : Char) : Bool := "\\.+*?()|[]\x7b\x7d^$#&-~".toList.contains c

/-- The character whose code point a number of hexadecimal digits write after `n`. -/
def code? (m : Mode) : Nat → Nat → List Char → Option (Char × List Char)
  | 0, n, cs => if h : n.isValidChar then some (Char.ofNatAux n h, cs) else none
  | _ + 1, _, [] => none
  | count + 1, n, c :: rest => do
    let d ← Text.digit? 16 c
    code? m count (n * 16 + d) (m.skip rest)

/-- The atom that is written after a backslash, and what follows it. -/
def escape? (m : Mode) : List Char → Option (Atom × List Char)
  | [] => none
  | c :: rest =>
    match c with
    | 'x' => (code? m 2 0 (m.skip rest)).map fun (c, rest) => (.byte c, rest)
    | 'u' => (code? m 4 0 (m.skip rest)).map fun (c, rest) => (.char c, rest)
    | 'U' => (code? m 8 0 (m.skip rest)).map fun (c, rest) => (.char c, rest)
    | 'a' => some (.char '\x07', rest)
    | 'f' => some (.char '\x0c', rest)
    | 't' => some (.char '\t', rest)
    | 'n' => some (.char '\n', rest)
    | 'r' => some (.char '\r', rest)
    | 'v' => some (.char '\x0b', rest)
    | _ =>
      if "dsw".toList.contains c then some (.family false, rest)
      else if "DSW".toList.contains c then some (.family true, rest)
      else if c = 'A' ∨ c = 'z' then some (.anchor, rest)
      else if "bB<>".toList.contains c then some (.boundary, rest)
      else if c = 'p' ∨ c = 'P' then
        match m.skip rest with
        | [] => none
        | letter :: rest =>
          if "CLMNPSZ".toList.contains letter.toUpper then some (.category, m.skip rest) else none
      else if c.toNat < 0x80 ∧ ¬c.isAlphanum then some (.char c, rest)
      else none

/-! ## Sets -/

/-- The depth of parts that stand side by side. A single one is as deep as it is by itself. -/
def together : List Nat → Nat
  | [] => 0
  | [depth] => depth
  | depths => depths.foldl max 0 + 1

/-- A set that is not closed yet. -/
structure OpenSet where
  /-- The depths of the members after the last operator. -/
  members : List Nat
  /-- The depth of what stands left of the last operator. -/
  left : Option Nat
  deriving DecidableEq, Repr

namespace OpenSet

def depth (s : OpenSet) : Nat :=
  match s.left with
  | none => together s.members
  | some left => max left (together s.members) + 1

/-- The set with one more member. -/
def add (s : OpenSet) (depth : Nat) : OpenSet := { s with members := depth :: s.members }

/-- The set with what it has so far left of an operator. -/
def operate (s : OpenSet) : OpenSet := ⟨[], some s.depth⟩

/-- The hyphens that a set begins with, each a member, and what follows them. -/
def hyphens (m : Mode) : Nat → List Char → List Nat × List Char
  | n + 1, '-' :: rest =>
    let (members, rest) := hyphens m n (m.skip rest)
    (0 :: members, rest)
  | _, cs => ([], cs)

/-- The set whose opening bracket has been read. A closing bracket that comes first is a member. -/
def ofBracket? (m : Mode) (cs : List Char) : Option (OpenSet × List Char) :=
  match m.skip cs with
  | '^' :: rest => if m.unicode then some (start (m.skip rest)) else none
  | rest => some (start rest)
where
  start (cs : List Char) : OpenSet × List Char :=
    match hyphens m cs.length cs with
    | ([], ']' :: rest) => (⟨[0], none⟩, m.skip rest)
    | (members, rest) => (⟨members, none⟩, rest)

end OpenSet

/-! ## Members -/

/-- The classes of ASCII characters that have names. -/
def classNames : List String :=
  ["alnum", "alpha", "ascii", "blank", "cntrl", "digit", "graph", "lower", "print", "punct",
    "space", "upper", "word", "xdigit"]

/-- Whether a class with a name is negated, and what follows it, where a bracket has been read. -/
def class? : List Char → Option (Bool × List Char)
  | ':' :: rest =>
    let (negated, rest) := match rest with
      | '^' :: rest => (true, rest)
      | _ => (false, rest)
    let name := rest.takeWhile (· != ':')
    match rest.drop name.length with
    | ':' :: ']' :: rest =>
      if classNames.contains (String.ofList name) then some (negated, rest) else none
    | _ => none
  | _ => none

def atom? (m : Mode) : List Char → Option (Atom × List Char)
  | [] => none
  | '\\' :: rest => escape? m rest
  | c :: rest => some (.char c, rest)

/-- What follows a member: an atom or a range. A hyphen before another one or before a closing
    bracket makes no range. -/
def afterMember? (m : Mode) (cs : List Char) : Option (List Char) := do
  let (first, rest) ← atom? m cs
  let alone := if first.isMember m then some (m.skip rest) else none
  match m.skip rest with
  | '-' :: rest =>
    match m.skip rest with
    | ']' :: _ => alone
    | '-' :: _ => alone
    | rest => do
      let (last, rest) ← atom? m rest
      let low ← first.char?
      let high ← last.char?
      if first.isMember m ∧ last.isMember m ∧ low ≤ high then some rest else none
  | _ => alone

/-- Reads a set up to its closing bracket, and the sets around it. Gives the depth of the outermost
    one, and what follows it. -/
def set? (m : Mode) : Nat → OpenSet → List OpenSet → List Char → Option (Nat × List Char)
  | 0, _, _, _ => none
  | n + 1, inner, outer, cs =>
    match m.skip cs with
    | '[' :: rest =>
      match class? rest with
      | some (negated, rest) =>
        if negated ∧ ¬m.unicode then none else set? m n (inner.add 0) outer rest
      | none => do
        let (new, rest) ← OpenSet.ofBracket? m rest
        set? m n new (inner :: outer) rest
    | ']' :: rest =>
      match outer with
      | [] => some (inner.depth + 1, rest)
      | next :: outer => set? m n (next.add (inner.depth + 1)) outer rest
    | '&' :: '&' :: rest => set? m n inner.operate outer rest
    | '-' :: '-' :: rest => set? m n inner.operate outer rest
    | '~' :: '~' :: rest => set? m n inner.operate outer rest
    | cs => do
      let rest ← afterMember? m cs
      set? m n (inner.add 0) outer rest

end MavenPom.Pattern
