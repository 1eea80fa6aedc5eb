import MavenPom.Text.Blank
import MavenPom.Text.Cut
import MavenPom.Text.Number

/-!
# Versions

A lenient order of Maven versions. Up to three numbers lead, missing ones being zero. A known
qualifier makes a version come before its release, in the order alpha, beta, milestone, rc,
snapshot. Anything else is kept as build data, which comes after the plain release. Both are
written as identifiers with dots between them, and a version has no others.
-/

namespace MavenPom

/-- The known qualifiers, first to last. -/
inductive Stage where
  | alpha
  | beta
  | milestone
  | rc
  | snapshot
  deriving DecidableEq, Repr

namespace Stage

def label : Stage → String
  | .alpha => "alpha"
  | .beta => "beta"
  | .milestone => "milestone"
  | .rc => "rc"
  | .snapshot => "snapshot"

/-- The place in the order of stages. -/
def rank : Stage → Nat
  | .alpha => 0
  | .beta => 1
  | .milestone => 2
  | .rc => 3
  | .snapshot => 4

/-- How the stages are spelled, longer spellings before those that they begin with. -/
def spellings : List (String × Stage) :=
  [("alpha", .alpha), ("beta", .beta), ("milestone", .milestone), ("snapshot", .snapshot),
    ("rc", .rc), ("cr", .rc), ("a", .alpha), ("b", .beta), ("m", .milestone)]

end Stage

/-- A stage before the release, perhaps counted. -/
structure Prerelease where
  stage : Stage
  number : Option Nat
  deriving DecidableEq, Repr

structure Version where
  major : Nat
  minor : Nat
  patch : Nat
  prerelease : Option Prerelease
  build : List String
  deriving DecidableEq, Repr

namespace Prerelease

/-- The stage and number, parted by a dot. -/
def text (p : Prerelease) : String :=
  match p.number with
  | none => p.stage.label
  | some n => p.stage.label ++ "." ++ toString n

/-- A missing value before every other. -/
def compareNumber : Option Nat → Option Nat → Ordering
  | none, none => .eq
  | none, some _ => .lt
  | some _, none => .gt
  | some a, some b => compare a b

def order (a b : Prerelease) : Ordering :=
  (compare a.stage.rank b.stage.rank).then (compareNumber a.number b.number)

/-- The order of versions with the same numbers: the release comes after all its stages. -/
def orderRelease : Option Prerelease → Option Prerelease → Ordering
  | none, none => .eq
  | none, some _ => .gt
  | some _, none => .lt
  | some a, some b => a.order b

end Prerelease

namespace Version

/-- The order of single identifiers: numbers before words, by value and then by length, and words as
    texts. -/
def orderIdentifier (a b : String) : Ordering :=
  match Text.number? 10 a.toList, Text.number? 10 b.toList with
  | some m, some n => (compare m n).then (compare a.length b.length)
  | some _, none => .lt
  | none, some _ => .gt
  | none, none => compare a b

/-- The order of lists of identifiers: by the first ones that differ, or the shorter list first. -/
def orderBuild : List String → List String → Ordering
  | [], [] => .eq
  | [], _ :: _ => .lt
  | _ :: _, [] => .gt
  | a :: as, b :: bs => (orderIdentifier a b).then (orderBuild as bs)

def order (a b : Version) : Ordering :=
  (compare a.major b.major).then <| (compare a.minor b.minor).then <|
    (compare a.patch b.patch).then <|
      (Prerelease.orderRelease a.prerelease b.prerelease).then (orderBuild a.build b.build)

/-- Whether characters are an identifier: letters, digits and hyphens, and at least one of them. -/
def isIdentifier (cs : List Char) : Bool :=
  !cs.isEmpty && cs.all fun c => c.isAlphanum || c == '-'

/-- Whether an identifier may come before the release. A number there has no zero in front of other
    digits. -/
def isPrereleaseIdentifier (cs : List Char) : Bool :=
  isIdentifier cs && !(cs.all Char.isDigit && cs.head? == some '0' && cs.length != 1)

/-- Whether a text is empty, or consists of identifiers of the class `p` with dots between them. -/
def isIdentifierList (p : List Char → Bool) (text : String) : Bool :=
  text.isEmpty || (text.toList.splitOn '.').all p

/-- The identifiers of a text with dots between them. -/
def splitIdentifiers (text : String) : List String :=
  if text.isEmpty then [] else Text.fields '.' text

/-- What follows the numbers of a version. -/
inductive Qualifier where
  | release
  | prerelease (p : Prerelease)
  | other (identifiers : List String)
  deriving DecidableEq, Repr

namespace Qualifier

def prerelease? : Qualifier → Option Prerelease
  | .prerelease p => some p
  | _ => none

/-- What is written for a qualifier that comes before the release. -/
def prereleaseText (q : Qualifier) : String :=
  (q.prerelease?.map Prerelease.text).getD ""

/-- What is written for a qualifier that has no meaning of its own. -/
def otherText? : Qualifier → Option String
  | .other identifiers => some (".".intercalate identifiers)
  | _ => none

/-- What is written as build data, with the numbers behind the first three. -/
def buildText (extra : List Nat) (q : Qualifier) : String :=
  ".".intercalate (extra.map toString ++ q.otherText?.toList)

end Qualifier

/-- The characters that part a version's pieces. -/
def isSeparator (c : Char) : Bool := c == '-' || c == '.' || c == '_'

/-- The stage that a lower-case qualifier spells, perhaps with a number after it. -/
def prerelease? (qualifier : List Char) : Option Prerelease :=
  Stage.spellings.findSome? fun (spelling, stage) =>
    match Text.strip? spelling.toList qualifier with
    | none => none
    | some rest =>
      let rest := rest.dropWhile isSeparator
      if rest.isEmpty then some ⟨stage, none⟩
      else (Text.signedWord64? rest).map fun n => ⟨stage, some n⟩

/-- The identifiers of a qualifier that has no meaning of its own. -/
def identifiers (qualifier : List Char) : List String :=
  let clean := qualifier.map fun c => if c.isAlphanum || c == '.' then c else '-'
  ((clean.splitOn '.').filter (· ≠ [])).map String.ofList

/-- What a lower-case qualifier means. -/
def classify (qualifier : List Char) : Qualifier :=
  if ["", "ga", "final", "release"].contains (String.ofList qualifier) then .release
  else
    match prerelease? qualifier with
    | some p => .prerelease p
    | none => .other (identifiers qualifier)

/-- A version without the mark `v` before it. -/
def unmarked : List Char → List Char
  | [] => []
  | c :: cs => if c = 'v' ∨ c = 'V' then cs else c :: cs

/-- The characters of a version's numbers. -/
def isNumeric (c : Char) : Bool := c.isDigit || c == '.'

/-- The qualifier in what follows the numbers, in any letter case. -/
def Qualifier.read (rest : List Char) : Qualifier :=
  classify ((rest.dropWhile isSeparator).map Char.toLower)

/-- The version with these numbers and this qualifier, if what is written for the qualifier and as
    build data consists of identifiers. -/
def assemble? (numbers : List Nat) (q : Qualifier) : Option Version :=
  let build := q.buildText (numbers.drop 3)
  if isIdentifierList isPrereleaseIdentifier q.prereleaseText &&
      isIdentifierList isIdentifier build then
    some ⟨numbers.getD 0 0, numbers.getD 1 0, numbers.getD 2 0, q.prerelease?,
      splitIdentifiers build⟩
  else none

/-- The version that a text spells. -/
def parse? (text : String) : Option Version :=
  let cs := unmarked (Text.trimChars text.toList)
  let numeric := Text.dropEndWhile (· == '.') (cs.takeWhile isNumeric)
  ((numeric.splitOn '.').mapM Text.word64?).bind fun numbers =>
    assemble? numbers (.read (cs.dropWhile isNumeric))

/-- Whether `requested` comes after `current`, where both are versions. -/
def isNewer? (requested current : String) : Option Bool :=
  match parse? requested, parse? current with
  | some r, some c => some (r.order c == .gt)
  | _, _ => none

end Version

end MavenPom
