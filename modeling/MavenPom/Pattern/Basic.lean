import MavenPom.Pattern.Atom
import MavenPom.Text.Letter

/-!
# Patterns

Which texts are patterns. A pattern is read from left to right with the groups that are open, since
whatever a group sets for itself ends with it.
-/

namespace MavenPom.Pattern

/-- A part of a pattern. -/
structure Item where
  /-- Whether it may be repeated. -/
  repeatable : Bool
  depth : Nat
  deriving DecidableEq, Repr

/-- A group that is not closed yet, or the whole pattern. -/
structure Group where
  /-- The mode around the group. -/
  outside : Mode
  /-- The parts after the last bar, the last one first. -/
  items : List Item
  /-- The depths of the alternatives before the last bar. -/
  branches : List Nat
  deriving DecidableEq, Repr

namespace Group

/-- The depth of the parts after the last bar. -/
def branch (g : Group) : Nat := together (g.items.map (·.depth))

def depth (g : Group) : Nat :=
  if g.branches.isEmpty then g.branch else together (g.branch :: g.branches)

def add (g : Group) (item : Item) : Group := { g with items := item :: g.items }

/-- The group with the next alternative. -/
def alternate (g : Group) : Group := ⟨g.outside, [], g.branch :: g.branches⟩

/-- The group with its last part repeated. -/
def repeated? (g : Group) : Option Group :=
  match g.items with
  | ⟨true, depth⟩ :: rest => some { g with items := ⟨true, depth + 1⟩ :: rest }
  | _ => none

end Group

/-- What has been read of a pattern. -/
structure Reading where
  mode : Mode
  inner : Group
  /-- The groups around the innermost one. -/
  outer : List Group
  /-- The names of groups. -/
  names : List (List Char)
  deriving DecidableEq, Repr

namespace Reading

def start : Reading := ⟨⟨false, true⟩, ⟨⟨false, true⟩, [], []⟩, [], []⟩

def add (r : Reading) (item : Item) : Reading := { r with inner := r.inner.add item }

/-- Opens a group in which a mode holds. -/
def openGroup (r : Reading) (mode : Mode) : Reading :=
  { r with mode, inner := ⟨r.mode, [], []⟩, outer := r.inner :: r.outer }

/-- Closes the innermost group. -/
def closeGroup? (r : Reading) : Option Reading :=
  match r.outer with
  | [] => none
  | next :: outer =>
    some { r with mode := r.inner.outside, inner := next.add ⟨true, r.inner.depth + 1⟩, outer }

/-! ## Groups -/

/-- The mode that flags set, whether a colon ends them, and what follows that. No flag may be given
    twice, and a hyphen negates those after it. -/
def flags? (m : Mode) (seen : List Char) : List Char → Option (Mode × Bool × List Char)
  | [] => none
  | c :: rest =>
    if c = ':' ∨ c = ')' then
      if seen.head? = some '-' ∨ (seen.isEmpty ∧ c = ')') then none else some (m, c = ':', rest)
    else if seen.contains c ∨ ¬"-imsUuRx".toList.contains c then none
    else
      let value := !seen.contains '-'
      let m := if c = 'x' then { m with spaced := value }
        else if c = 'u' then { m with unicode := value } else m
      flags? m (c :: seen) rest

/-- Whether a character may be in a name, perhaps at its beginning. -/
def isNameChar (c : Char) : Bool := "_.[]".toList.contains c || Text.isAlphanumeric c

def isNameStart (c : Char) : Bool := c == '_' || Text.isAlphabetic c

/-- Opens the group whose name comes next, up to an angle bracket. -/
def named? (r : Reading) (cs : List Char) : Option (Reading × List Char) :=
  let name := cs.takeWhile (· != '>')
  match name, cs.drop name.length with
  | first :: more, _ :: rest =>
    if isNameStart first ∧ more.all isNameChar ∧ ¬r.names.contains name then
      some ({ r.openGroup r.mode with names := name :: r.names }, rest)
    else none
  | _, _ => none

/-- Reads what follows an opening parenthesis. What looks ahead or behind is refused. -/
def group? (r : Reading) (cs : List Char) : Option (Reading × List Char) :=
  match r.mode.skip cs with
  | '?' :: 'P' :: '<' :: rest => r.named? rest
  | '?' :: '<' :: rest => r.named? rest
  | '?' :: rest =>
    match flags? r.mode [] rest with
    | some (mode, true, rest) => some (r.openGroup mode, rest)
    | some (mode, false, rest) => some ({ r.add ⟨false, 0⟩ with mode }, rest)
    | none => none
  | rest => some (r.openGroup r.mode, rest)

/-! ## Whole patterns -/

/-- Reads an atom. -/
def atom? (r : Reading) (atom : Atom) (rest : List Char) : Option (Reading × List Char) :=
  if atom.isAllowed r.mode then some (r.add ⟨true, 0⟩, rest) else none

/-- Reads the next part of a pattern. A question mark makes a repetition lazy. -/
def next? (r : Reading) : List Char → Option (Reading × List Char)
  | [] => none
  | c :: rest =>
    match c with
    | '(' => r.group? rest
    | ')' => r.closeGroup?.map (·, rest)
    | '|' => some ({ r with inner := r.inner.alternate }, rest)
    | '[' => do
      let (new, rest) ← OpenSet.ofBracket? r.mode rest
      let (depth, rest) ← set? r.mode (rest.length + 1) new [] rest
      return (r.add ⟨true, depth⟩, rest)
    | '\x7b' => none
    | '\\' => (escape? r.mode rest).bind fun (atom, rest) => r.atom? atom rest
    | '.' => r.atom? .any rest
    | '^' => r.atom? .anchor rest
    | '$' => r.atom? .anchor rest
    | _ =>
      if c = '?' ∨ c = '*' ∨ c = '+' then
        r.inner.repeated?.map fun inner =>
          ({ r with inner }, if rest.head? = some '?' then rest.tail else rest)
      else r.atom? (.char c) rest

/-- Reads a text to its end, in no more than a number of parts. -/
def toEnd? (r : Reading) : Nat → List Char → Option Reading
  | 0, _ => none
  | n + 1, cs =>
    match r.mode.skip cs with
    | [] => some r
    | cs => do
      let (r, rest) ← r.next? cs
      r.toEnd? n rest

end Reading

/-- How deep the parts of a pattern may stand in each other. -/
def depthLimit : Nat := 250

end Pattern

/-- Whether a text is a pattern. -/
def isPattern (cs : List Char) : Bool :=
  match Pattern.Reading.start.toEnd? (cs.length + 1) cs with
  | some r => r.outer.isEmpty && r.inner.depth ≤ Pattern.depthLimit
  | none => false

end MavenPom
