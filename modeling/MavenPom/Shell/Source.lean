import MavenPom.Shell.Script
import MavenPom.Table

/-!
# The text of a script

What is left of a script that is being read, what it can go on with, and what can be wrong with it.
Documents that a line announces are read behind it.
-/

namespace MavenPom.Shell

/-- What a script can go on with. -/
inductive Lexeme where
  | endOfFile
  | newline
  | redirection
  | word
  /-- An operator or a keyword. -/
  | mark (text : String)
  deriving DecidableEq, Repr

def Lexeme.name : Lexeme → String
  | .endOfFile => "end of file"
  | .newline => "newline"
  | .redirection => "redirection"
  | .word => "word"
  | .mark text => "\"" ++ text ++ "\""

/-- What is wrong with a script. -/
inductive SyntaxError where
  | unexpected (found : Lexeme) (wanted : Option Lexeme)
  | openQuote
  | openBackquote
  | openBrace
  | openExpression
  | loopVariable
  | functionName
  deriving DecidableEq, Repr

def SyntaxError.message : SyntaxError → String
  | .unexpected found none => found.name ++ " unexpected"
  | .unexpected found (some wanted) =>
    found.name ++ " unexpected (expecting " ++ wanted.name ++ ")"
  | .openQuote => "Unterminated quoted string"
  | .openBackquote => "EOF in backquote substitution"
  | .openBrace => "Missing '\x7d'"
  | .openExpression => "Missing '))'"
  | .loopVariable => "Bad for loop variable"
  | .functionName => "Bad function name"

/-- An alias whose text is being read. -/
structure Replacement where
  name : String
  /-- How many characters are left when its text has been read. -/
  left : Nat
  /-- Whether its text ends with a blank. The word after it may be an alias then as well. -/
  spreads : Bool
  deriving DecidableEq, Repr

/-- A document that a redirection asks for. -/
structure Announcement where
  number : Nat
  /-- The line that ends it. -/
  last : List Char
  /-- Whether tabs at the beginnings of its lines are left out. -/
  tabbed : Bool
  /-- Whether nothing in it has a meaning. -/
  literal : Bool
  deriving DecidableEq, Repr

structure Documents where
  /-- Those that have not been read, in their order. -/
  announced : List Announcement
  read : Table Nat Word

namespace Documents

def none : Documents := ⟨[], Table.empty⟩

/-- A number that no document has yet. -/
def fresh (d : Documents) : Nat := d.announced.length + d.read.entries.length

/-- The text of a document, which is empty if the script ends before it. -/
def text (d : Documents) (number : Nat) : Word := (d.read.get? number).getD []

end Documents

structure Source where
  rest : List Char
  line : Nat
  documents : Documents
  /-- No less than the number of characters that are left or that aliases can still add. -/
  bound : Nat
  aliases : Table String String
  /-- The aliases whose texts have been put in. -/
  replacements : List Replacement
  /-- How many aliases are still replaced. -/
  allowance : Nat

/-- What a word may be besides a word, where it stands. -/
inductive Slot where
  | plain
  | alias
  | keyword
  /-- A keyword or an alias. -/
  | command
  deriving DecidableEq, Repr

def Slot.mayBeKeyword : Slot → Bool
  | .keyword => true
  | .command => true
  | _ => false

def Slot.mayBeAlias : Slot → Bool
  | .alias => true
  | .command => true
  | _ => false

/-- The slot of the first word of an alias. -/
def Slot.ofAlias : Slot → Slot
  | .plain => .alias
  | .keyword => .command
  | slot => slot

namespace Source

def ofText (line : Nat) (cs : List Char) : Source :=
  ⟨cs, line, Documents.none, cs.length, Table.empty, [], 0⟩

/-- How many aliases are replaced in one line. -/
def aliasLimit : Nat := 1000

/-- The source with aliases for what is read next. -/
def withAliases (s : Source) (aliases : Table String String) : Source :=
  if aliases.entries.isEmpty ∧ s.aliases.entries.isEmpty then s
  else
    let longest := aliases.entries.foldl (fun n entry => max n entry.2.length) 0
    { s with
      aliases, allowance := aliasLimit, bound := s.rest.length + aliasLimit * (longest + 1) }

/-- The source after a character. -/
def after (s : Source) (c : Char) (rest : List Char) : Source :=
  if c = '\n' then { s with rest, line := s.line + 1 } else { s with rest }

/-- The source after some of its characters. -/
def drop (s : Source) : Nat → Source
  | 0 => s
  | n + 1 =>
    match s.rest with
    | [] => s
    | c :: rest => (s.after c rest).drop n

/-- The source after blanks and a comment, in which it may begin. A line break after a backslash
    counts as a blank. -/
def skipFrom (s : Source) : Bool → List Char → Source
  | _, [] => { s with rest := [] }
  | true, '\n' :: rest => { s with rest := '\n' :: rest }
  | true, _ :: rest => s.skipFrom true rest
  | false, '\\' :: '\n' :: rest => (s.after '\n' rest).skipFrom false rest
  | false, c :: rest =>
    if c = ' ' ∨ c = '\t' then s.skipFrom false rest
    else if c = '#' then s.skipFrom true rest
    else { s with rest := c :: rest }

def skip (s : Source) : Source := s.skipFrom false s.rest

/-- A text without line breaks after backslashes, as far as its characters are of a kind and in
    front of the first one that is not, and how many these are. -/
def joinWhile (kind : Char → Bool) : List Char → List Char × Nat
  | [] => ([], 0)
  | '\\' :: '\n' :: rest =>
    let (cs, n) := joinWhile kind rest
    (cs, n + 1)
  | c :: rest =>
    if kind c then
      let (cs, n) := joinWhile kind rest
      (c :: cs, n)
    else (c :: rest, 0)

/-- The source with lines joined as far as its characters are of a kind. -/
def join (kind : Char → Bool) (s : Source) : Source :=
  let (rest, n) := joinWhile kind s.rest
  if n = 0 then s else { s with rest, line := s.line + n }

/-- The characters that end a word. -/
def isDelimiter (c : Char) : Bool := " \t\n;&|<>()".toList.contains c

/-- The characters of operators that may be longer. -/
def isOperator (c : Char) : Bool := c == ';' || c == '&' || c == '|'

/-- The characters of redirections. -/
def directs (c : Char) : Bool := c.isDigit || "<>&|-".toList.contains c

/-- Whether a character has no meaning in a word. -/
def isOrdinary (c : Char) : Bool := !isDelimiter c && !"'\"$\x60\\".toList.contains c

/-- The source after blanks and a comment, with lines joined after the first character of the
    operator or in the beginning of the word that follows. -/
def atLexeme (s : Source) : Source :=
  let s := s.skip
  match s.rest with
  | [] => s
  | c :: rest =>
    if isOperator c then
      let (rest, n) := joinWhile (fun _ => false) rest
      if n = 0 then s else { s with rest := c :: rest, line := s.line + n }
    else s.join isOrdinary

/-- The operators, of two that begin alike the longer one first. -/
def operators : List String := ["&&", "||", ";;", ";", "&", "|", "(", ")"]

def keywords : List String :=
  ["!", "case", "do", "done", "elif", "else", "esac", "fi", "for", "if", "in", "then", "until",
    "while", "\x7b", "\x7d"]

/-- Whether a text begins with a redirection, perhaps with the number of a stream. -/
def redirects : List Char → Bool
  | '<' :: _ => true
  | '>' :: _ => true
  | c :: '<' :: _ => c.isDigit
  | c :: '>' :: _ => c.isDigit
  | _ => false

/-- The keyword that a text begins with. -/
def keyword? (cs : List Char) : Option String :=
  let word := cs.takeWhile fun c => c.isAlpha || "!\x7b\x7d".toList.contains c
  if ((cs.drop word.length).head?.map isDelimiter).getD true then
    keywords.find? (· == String.ofList word)
  else none

/-- Whether a text ends with a blank. -/
def endsWithBlank (cs : List Char) : Bool :=
  (cs.getLast?.map fun c => c == ' ' || c == '\t').getD false

/-- Whether the word that comes next is the first one after an alias that spreads, if some number of
    characters had been left before the blanks in front of it. -/
def followsAlias (s : Source) (before : Nat) : Bool :=
  !s.replacements.isEmpty &&
    let now := s.rest.length
    s.replacements.any fun r => r.spreads && now ≤ r.left && r.left < before

/-- The source with the text of an alias in place of the word that comes next, if that is one. The
    name of an alias is a word like others in its own text. -/
def replaced? (s : Source) : Option Source :=
  match s.allowance with
  | 0 => none
  | n + 1 =>
    let word := s.rest.takeWhile fun c => !isDelimiter c
    let name := String.ofList word
    let now := s.rest.length
    let current := s.replacements.filter fun r => r.left < now
    if current.any (·.name = name) then none
    else
      match s.aliases.get? name with
      | none => none
      | some text =>
        let behind := s.rest.drop word.length
        let cs := text.toList
        some { s with
          rest := cs ++ behind, allowance := n
          replacements := if cs.isEmpty then current
            else ⟨name, behind.length, endsWithBlank cs⟩ :: current }

/-- What the source goes on with after blanks, where a keyword may stand or not. -/
def lexeme (mayBeKeyword : Bool) (s : Source) : Lexeme :=
  match s.rest with
  | [] => .endOfFile
  | '\n' :: _ => .newline
  | cs =>
    if redirects cs then .redirection
    else
      match operators.find? fun t => t.toList.isPrefixOf cs with
      | some text => .mark text
      | none =>
        match if mayBeKeyword then keyword? cs else none with
        | some text => .mark text
        | none => .word

end Source

/-- An error in a line. -/
structure SyntaxFault where
  line : Nat
  error : SyntaxError
  deriving DecidableEq, Repr

abbrev Reading (α : Type) := StateT Source (Except SyntaxFault) α

namespace Reading

def fail {α : Type} (error : SyntaxError) : Reading α := do throw ⟨(← get).line, error⟩

def drop (n : Nat) : Reading Unit := modify (·.drop n)

/-- What comes after blanks and after no more than a number of aliases. -/
def peekAmong : Slot → Nat → Reading Lexeme
  | slot, 0 => do
    modify Source.atLexeme
    return (← get).lexeme slot.mayBeKeyword
  | slot, n + 1 => do
    let start ← get
    let s := start.atLexeme
    set s
    let before := if start.replacements.isEmpty then 0 else start.rest.length
    let found := s.lexeme slot.mayBeKeyword
    if found = .word ∧ (slot.mayBeAlias ∨ s.followsAlias before) then
      match s.replaced? with
      | some s => do
        set s
        peekAmong slot.ofAlias n
      | none => return found
    else return found

/-- What comes after blanks. -/
def peek (slot : Slot) : Reading Lexeme := do
  peekAmong slot (← get).allowance

/-- Refuses what comes next, and says what was wanted. -/
def refuse {α : Type} (found : Lexeme) (wanted : Option Lexeme) : Reading α := do
  if found = .newline then drop 1
  fail (.unexpected found wanted)

/-- Reads a certain operator or keyword. A word that stands in its place is read before it is
    refused. -/
def expect (skipWord : Reading Unit) (slot : Slot) (text : String) : Reading Unit := do
  let found ← peek slot
  if found = .mark text then drop text.length
  else do
    if found = .word then skipWord
    refuse found (some (.mark text))

/-- Reads another text from a line on, and leaves this one as it is. -/
def apart {α : Type} (line : Nat) (cs : List Char) (reading : Reading α) : Reading α := do
  let s ← get
  match reading.run ((Source.ofText line cs).withAliases s.aliases) with
  | .ok (a, _) => return a
  | .error fault => throw fault

end Reading

end MavenPom.Shell
