import MavenPom.Pattern.Basic
import MavenPom.Settings.Basic
import MavenPom.Text.Cut

/-!
# Log filters

What a filter lets through at most. A filter is a list of directives, each a level, a target, or a
span in brackets, perhaps with a level after `=`. Without one, a target or span is let through
wholly.
-/

namespace MavenPom

inductive LogLevel where
  | off
  | error
  | warn
  | info
  | debug
  | trace
  deriving DecidableEq, Repr

namespace LogLevel

def name : LogLevel → String
  | .off => "off"
  | .error => "error"
  | .warn => "warn"
  | .info => "info"
  | .debug => "debug"
  | .trace => "trace"

/-- All levels, each letting through more than those before it. -/
def all : List LogLevel := [.off, .error, .warn, .info, .debug, .trace]

/-- The place in the order of levels, which may also be written for the level. -/
def rank (l : LogLevel) : Nat := all.idxOf l

/-- The level of the two that lets through more. -/
def max (a b : LogLevel) : LogLevel := if a.rank < b.rank then b else a

/-- The level that a text names, in any case, or numbers. -/
def parse? (cs : List Char) : Option LogLevel :=
  match Text.signedWord64? cs with
  | some n => all[n]?
  | none => all.find? fun l => l.name.toList == cs.map Char.toLower

end LogLevel

namespace LogFilter

/-- What a directive lets through, and whether it looks at the values of a span's fields. -/
structure Directive where
  level : LogLevel
  hasValues : Bool
  deriving DecidableEq, Repr

/-- Whether a text may be the value that a field is to have. What is no number is a pattern. -/
def isValue (cs : List Char) : Bool := Text.isFloat cs || isPattern cs

/-- Whether a field has a value, unless it is malformed. What follows a second equals sign does not
    count. -/
def fieldHasValue? (field : List Char) : Option Bool :=
  if field.isEmpty then none
  else
    match field.splitOn '=' with
    | _ :: value :: _ => if isValue value then some true else none
    | _ => some false

/-- The part of a directive that is being read. Places are counted in bytes. -/
inductive Stage where
  | start
  /-- A level, or a target. -/
  | name
  /-- The name of a span. -/
  | span
  /-- A field of a span that begins at a place. -/
  | field (place : Nat)
  /-- After the brace that closes the fields of a span. -/
  | fields
  /-- After the bracket that closes a span. -/
  | spanEnd
  /-- The level after an equals sign, which begins at a place. -/
  | level (place : Nat)
  deriving DecidableEq, Repr

/-- The characters that a level or target begins with. -/
def isStart (c : Char) : Bool :=
  c == '-' || c == ':' || c == '_' || Text.isAlphanumeric c

/-- The level that a text names, where none is everything. -/
def levelOrAll? (cs : List Char) : Option LogLevel :=
  if cs.isEmpty then some .trace else LogLevel.parse? cs

/-- The text from one place to another. -/
def between (text : List Char) (first last : Nat) : List Char :=
  Utf8.take (last - first) (Utf8.drop first text)

/-- Reads the character at a place. Gives the stage after it, and whether a field with a value has
    been read. -/
def step? (text : List Char) (stage : Stage) (hasValues : Bool) (place : Nat) (c : Char) :
    Option (Stage × Bool) :=
  match stage with
  | .start =>
    if c = '[' then some (.span, hasValues) else if isStart c then some (.name, hasValues) else none
  | .name =>
    if c = '=' then some (.level (place + 1), hasValues)
    else if c = '[' then some (.span, hasValues)
    else some (.name, hasValues)
  | .span =>
    if c = ']' then some (.spanEnd, hasValues)
    else if c = '\x7b' then some (.field (place + 1), hasValues)
    else some (.span, hasValues)
  | .field first =>
    if c = '\x7d' then
      (fieldHasValue? (between text first place)).map fun has => (.fields, hasValues || has)
    else some (.field first, hasValues)
  | .fields => if c = ']' then some (.spanEnd, hasValues) else none
  | .spanEnd => if c = '=' then some (.level (place + 1), hasValues) else none
  | .level first => some (.level first, hasValues)

/-- Reads characters from a place on. -/
def steps? (text : List Char) : Stage → Bool → Nat → List Char → Option (Stage × Bool)
  | stage, hasValues, _, [] => some (stage, hasValues)
  | stage, hasValues, place, c :: rest => do
    let (stage, hasValues) ← step? text stage hasValues place c
    steps? text stage hasValues (place + c.utf8Size) rest

/-- A directive. Its places are counted without the blanks at its beginning, but what stands between
    two of them is taken from the text with these, and so begins and ends before it. -/
def directive? (text : List Char) : Option Directive := do
  let (stage, hasValues) ← steps? text .start false 0 (Text.trimChars text)
  match stage with
  | .name => return ⟨(LogLevel.parse? text).getD .trace, hasValues⟩
  | .level first => return ⟨← levelOrAll? (Utf8.drop first text), hasValues⟩
  | .spanEnd => return ⟨.trace, hasValues⟩
  | _ => none

/-- The directives of a filter, which commas part. Empty ones do not count. -/
def directives? (s : String) : Option (List Directive) :=
  ((s.toList.splitOn ',').filter (· ≠ [])).mapM directive?

/-- The most that directives let through. -/
def maxLevel (ds : List Directive) : LogLevel :=
  if ds.any (·.hasValues) then .trace
  else ds.foldl (fun level d => level.max d.level) .off

/-- The filter that a configured level stands for. -/
def normalized (level : String) : String :=
  let trimmed := Text.trim level
  let lower := trimmed.map Char.toLower
  if trimmed.isEmpty then "info"
  else if lower = "warning" then "warn"
  else if ["trace", "debug", "info", "warn", "error"].contains lower then lower
  else trimmed

/-- The directives of a configured level, or of `info` where it is no filter. -/
def configured (level : String) : List Directive :=
  (directives? (normalized level)).getD [⟨.info, false⟩]

/-- The directives in force: those configured together with those of the environment, or the latter
    alone, or the former. -/
def effective (level : String) (environment : Option String) : List Directive :=
  match environment.bind Text.trim? with
  | none => configured level
  | some added =>
    match directives? (normalized level ++ "," ++ added) with
    | some ds => ds
    | none => (directives? added).getD (configured level)

end LogFilter

end MavenPom
