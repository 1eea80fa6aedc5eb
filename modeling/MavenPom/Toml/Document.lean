import MavenPom.Toml.Scalar

/-!
# TOML documents

The values of keys, and the entries of a text, line by line. A header in brackets says to which
table the lines after it belong. A table remembers how it was made, since that decides what may be
added to it.
-/

namespace MavenPom.Toml

/-! ## Entries -/

/-- How a table came about. -/
inductive Origin where
  /-- By a header of its own. -/
  | header
  /-- By the header of a table in it. -/
  | implied
  /-- By a dotted key. -/
  | dotted
  /-- As a value. -/
  | inline
  deriving DecidableEq, Repr

inductive Value where
  | string (s : String)
  | integer (n : Int)
  | boolean (b : Bool)
  /-- A number with a fraction, as it is written. -/
  | fraction (word : List Char)
  /-- A date or time, as it is written. -/
  | moment (words : List Char)
  | list (values : List Value)
  | table (origin : Origin) (entries : List (String × Value))

/-- The entries of a table, in the order in which they are written. -/
abbrev Entries := List (String × Value)

namespace Entries

/-- The entries with the value of a key replaced. -/
def replace (key : String) (value : Value) : Entries → Entries
  | [] => []
  | (k, v) :: rest => if k = key then (k, value) :: rest else (k, v) :: replace key value rest

/-- Adds a value at a dotted key. It may go through tables made by dotted keys only, and the last
    part must be new. -/
def assign (value : Value) : List String → Entries → Option Entries
  | [], _ => none
  | [key], entries =>
    match entries.lookup key with
    | none => some (entries ++ [(key, value)])
    | some _ => none
  | key :: path, entries =>
    match entries.lookup key with
    | none => (assign value path []).map fun sub => entries ++ [(key, .table .dotted sub)]
    | some (.table .dotted sub) =>
      (assign value path sub).map fun sub => replace key (.table .dotted sub) entries
    | some _ => none

/-- Makes the table of a header. It must not have been made, but for the sake of a table in it. -/
def openTable : List String → Entries → Option Entries
  | [], _ => none
  | [key], entries =>
    match entries.lookup key with
    | none => some (entries ++ [(key, .table .header [])])
    | some (.table .implied sub) => some (replace key (.table .header sub) entries)
    | some _ => none
  | key :: path, entries =>
    match entries.lookup key with
    | none => (openTable path []).map fun sub => entries ++ [(key, .table .implied sub)]
    | some (.table .inline _) => none
    | some (.table origin sub) =>
      (openTable path sub).map fun sub => replace key (.table origin sub) entries
    | some _ => none

/-- Changes the entries of the table at a path. -/
def within (f : Entries → Option Entries) : List String → Entries → Option Entries
  | [], entries => f entries
  | key :: path, entries =>
    match entries.lookup key with
    | some (.table origin sub) =>
      (within f path sub).map fun sub => replace key (.table origin sub) entries
    | _ => none

end Entries

/-! ## What stands between values -/

def dropSpaces (cs : List Char) : List Char := cs.dropWhile isSpace

/-- What follows spaces, line breaks and comments, in one of which the text may begin. -/
def afterFiller? : Bool → List Char → Option (List Char)
  | _, [] => some []
  | _, '\n' :: rest => afterFiller? false rest
  | _, '\r' :: '\n' :: rest => afterFiller? false rest
  | true, c :: rest => if isPlain c then afterFiller? true rest else none
  | false, c :: rest =>
    if isSpace c then afterFiller? false rest
    else if c = '#' then afterFiller? true rest
    else some (c :: rest)

/-- What follows the end of a line, perhaps after a comment in which the text may begin. -/
def afterLine? : Bool → List Char → Option (List Char)
  | _, [] => some []
  | _, '\n' :: rest => some rest
  | _, '\r' :: '\n' :: rest => some rest
  | true, c :: rest => if isPlain c then afterLine? true rest else none
  | false, c :: rest =>
    if isSpace c then afterLine? false rest
    else if c = '#' then afterLine? true rest
    else none

/-! ## Keys -/

/-- How deep lists and tables may stand in each other, and how many parts a key may have. -/
def depthLimit : Nat := 79

/-- The characters of keys without quotes. -/
def isBare (c : Char) : Bool := c.isAlphanum || c == '_' || c == '-'

/-- A key without dots. -/
def simpleKey? : List Char → Read String
  | '"' :: rest => (basic rest).map fun (cs, rest) => (String.ofList cs, rest)
  | '\'' :: rest => (literal rest).map fun (cs, rest) => (String.ofList cs, rest)
  | cs =>
    match cs.takeWhile isBare with
    | [] => none
    | name => some (String.ofList name, cs.drop name.length)

/-- A key, the parts of which dots part, with the spaces after it. It has at most `bound` parts. -/
def keyWithin? : Nat → List Char → Option (List String × List Char)
  | 0, _ => none
  | bound + 1, cs => do
    let (name, rest) ← simpleKey? (dropSpaces cs)
    match dropSpaces rest with
    | '.' :: rest => do
      let (names, rest) ← keyWithin? bound rest
      return (name :: names, rest)
    | rest => return ([name], rest)

def key? (cs : List Char) : Option (List String × List Char) := keyWithin? depthLimit cs

/-! ## Values -/

/-- The characters of numbers, dates and truth values. -/
def isWordChar (c : Char) : Bool := isBare c || c == '+' || c == '.' || c == ':'

/-- The value that a word writes. -/
def wordValue? (word : List Char) : Option Value :=
  if word = "true".toList then some (.boolean true)
  else if word = "false".toList then some (.boolean false)
  else if isMoment word then some (.moment word)
  else if isFraction word then some (.fraction word)
  else (integer? word).map .integer

/-- A value without quotes or brackets. A space may stand between a date and a time. -/
def word? (cs : List Char) : Read Value :=
  let word := cs.takeWhile isWordChar
  let rest := cs.drop word.length
  match isDate word, rest with
  | true, ' ' :: after =>
    match after.takeWhile isWordChar with
    | [] => some (.moment word, rest)
    | time =>
      if isTimeOfDate time then some (.moment (word ++ ' ' :: time), after.drop time.length)
      else none
  | _, _ => (wordValue? word).map (·, rest)

/-- A string as a value. -/
def textValue (read : Read (List Char)) : Read Value :=
  read.map fun (cs, rest) => (.string (String.ofList cs), rest)

mutual

/-- A value in which lists and tables stand in each other no deeper than `room`. All that it takes
    to read has no more than `size` characters. -/
def value? (size room : Nat) (cs : List Char) : Option (Value × List Char) :=
  match size with
  | 0 => none
  | size + 1 =>
    match cs with
    | '"' :: '"' :: '"' :: rest => textValue (basicLines .none (dropBreak rest))
    | '"' :: rest => textValue (basic rest)
    | '\'' :: '\'' :: '\'' :: rest => textValue (literalLines (dropBreak rest))
    | '\'' :: rest => textValue (literal rest)
    | '[' :: rest =>
      if room = 0 then none
      else (values? size (room - 1) rest).map fun (vs, rest) => (.list vs, rest)
    | '\x7b' :: rest =>
      if room = 0 then none
      else
        match dropSpaces rest with
        | '\x7d' :: rest => some (.table .inline [], rest)
        | _ =>
          (fields? size (room - 1) [] rest).map fun (entries, rest) =>
            (.table .inline entries, rest)
    | _ => word? cs

/-- The values of a list, after its opening bracket or a comma. -/
def values? (size room : Nat) (cs : List Char) : Option (List Value × List Char) :=
  match size with
  | 0 => none
  | size + 1 => do
    match ← afterFiller? false cs with
    | ']' :: rest => return ([], rest)
    | cs => do
      let (v, rest) ← value? size room cs
      match ← afterFiller? false rest with
      | ']' :: rest => return ([v], rest)
      | ',' :: rest => do
        let (vs, rest) ← values? size room rest
        return (v :: vs, rest)
      | _ => none

/-- The entries of a table written as a value, after its opening bracket or a comma. -/
def fields? (size room : Nat) (entries : Entries) (cs : List Char) :
    Option (Entries × List Char) :=
  match size with
  | 0 => none
  | size + 1 => do
    match ← key? cs with
    | (path, '=' :: rest) => do
      let (v, rest) ← value? size room (dropSpaces rest)
      let entries ← entries.assign v path
      match dropSpaces rest with
      | '\x7d' :: rest => return (entries, rest)
      | ',' :: rest => fields? size room entries rest
      | _ => none
    | _ => none

end

/-! ## Documents -/

/-- The entries read so far, and the header that came last. -/
structure Document where
  header : List String
  entries : Entries

namespace Document

/-- Reads a line that is not blank: a header, or an entry of the table whose header came last. -/
def line? (d : Document) (cs : List Char) : Option (Document × List Char) := do
  match cs with
  | '[' :: rest =>
    match ← key? rest with
    | (path, ']' :: rest) => do
      let entries ← d.entries.openTable path
      return (⟨path, entries⟩, ← afterLine? false rest)
    | _ => none
  | _ =>
    match ← key? cs with
    | (path, '=' :: rest) => do
      let (v, rest) ← value? cs.length depthLimit (dropSpaces rest)
      let entries ← d.entries.within (·.assign v path) d.header
      return ({ d with entries }, ← afterLine? false rest)
    | _ => none

/-- Reads lines, of which there are no more than `bound`. -/
def lines? (d : Document) : Nat → List Char → Option Document
  | 0, _ => none
  | bound + 1, cs => do
    match ← afterFiller? false cs with
    | [] => return d
    | cs => do
      let (d, rest) ← d.line? cs
      d.lines? bound rest

end Document

/-- The entries of a TOML text. A byte order mark at its beginning does not count. -/
def parse? (s : String) : Option Entries :=
  let cs := match s.toList with
    | '\uFEFF' :: cs => cs
    | cs => cs
  ((⟨[], []⟩ : Document).lines? (cs.length + 1) cs).map (·.entries)

end MavenPom.Toml
