import MavenPom.Shell.Words
import MavenPom.Text.Number

/-!
# Reading commands

How commands are read from a script, line by line: what comes before a line that cannot be read is
still run.
-/

namespace MavenPom.Shell

namespace Reading

/-! ## Redirections -/

/-- The redirections by their operators, of two that begin alike the longer one first. Those without
    a direction are directed to documents. -/
def directions : List (String × Option Direction) :=
  [("<<-", none), ("<<", none), ("<&", some .copy), ("<>", some .both), ("<", some .read),
    (">>", some .append), (">&", some .copy), (">|", some .write), (">", some .write)]

/-- Announces the document that a line ends, and gives its number. -/
def announce (tabbed literal : Bool) (last : List Char) : Reading Nat := do
  let documents := (← get).documents
  let number := documents.fresh
  modify fun s =>
    { s with documents :=
        { documents with announced := documents.announced ++ [⟨number, last, tabbed, literal⟩] } }
  return number

/-- The redirection that comes next. -/
def redirection (script : Reading Script) : Reading Redirection := do
  modify (·.join Source.directs)
  let s ← get
  let stream? := s.rest.head?.bind (Text.digit? 10)
  let cs := if stream?.isSome then s.rest.tail else s.rest
  match directions.find? fun d => d.1.toList.isPrefixOf cs with
  | none => refuse .redirection none
  | some (operator, direction) => do
    let stream := stream?.getD (if operator.startsWith "<" then 0 else 1)
    drop (operator.length + if stream?.isSome then 1 else 0)
    match ← peek .plain with
    | .word => do
      match direction with
      | some direction => return ⟨stream, direction, ← word script⟩
      | none => do
        let (last, quoted) := (plainText? (← verbatimWord script)).getD ([], false)
        let number ← announce (operator = "<<-") quoted last
        return ⟨stream, .document number, []⟩
    | found => refuse found none

/-- The redirections that come next. -/
def redirectionsOf (script : Reading Script) : Nat → Reading (List Redirection)
  | 0 => return []
  | n + 1 => do
    if (← peek .plain) = .redirection then
      let r ← redirection script
      return r :: (← redirectionsOf script n)
    else return []

/-! ## Simple commands -/

/-- The parts of a simple command. -/
structure Simple where
  /-- The line in which the first of them ends. -/
  line : Option Nat
  assignments : List (String × Word)
  words : List Word
  redirections : List Redirection

/-- The parts of a simple command that come next, after some in reverse order. -/
def simpleParts (script : Reading Script) : Nat → Simple → Reading Simple
  | 0, parts => return parts
  | n + 1, parts => do
    match ← peek (if parts.words.isEmpty then .alias else .plain) with
    | .redirection => do
      let line := (← get).line
      let r ← redirection script
      simpleParts script n
        { parts with line := parts.line <|> some line, redirections := r :: parts.redirections }
    | .word => do
      let w ← word script
      let parts := { parts with line := parts.line <|> some (← get).line }
      match if parts.words.isEmpty then assignment? w else none with
      | some assignment =>
        simpleParts script n { parts with assignments := assignment :: parts.assignments }
      | none => simpleParts script n { parts with words := w :: parts.words }
    | _ => return parts

/-- The words that come next. -/
def wordsOf (script : Reading Script) : Nat → Reading (List Word)
  | 0 => return []
  | n + 1 => do
    if (← peek .plain) = .word then
      let w ← word script
      return w :: (← wordsOf script n)
    else return []

/-- The names that no function can have. -/
def reservedNames : List String :=
  [".", ":", "break", "continue", "eval", "exec", "exit", "export", "readonly", "return", "set",
    "shift", "times", "trap", "unset"]

/-- The keywords and operators that end a list of commands. -/
def closers : List String :=
  [")", ";;", "do", "done", "elif", "else", "esac", "fi", "then", "\x7d"]

def isCloser : Lexeme → Bool
  | .mark text => closers.contains text
  | _ => false

/-! ## Compound commands -/

mutual

/-- Commands over several lines, up to a keyword or operator that ends them. -/
def list (mayBeEmpty : Bool) : Nat → Reading Script
  | 0 => return .nothing
  | n + 1 => do
    match ← peekBeyondLines (list true n) .command with
    | .endOfFile => return .nothing
    | l =>
      if mayBeEmpty ∧ isCloser l then return .nothing
      else do
        let (first, goesOn) ← separated n
        if goesOn then return .sequence first (← list true n) else return first
termination_by structural n => n

/-- A command with what it is joined to, and whether others may follow. -/
def separated : Nat → Reading (Script × Bool)
  | 0 => return (.nothing, false)
  | n + 1 => do
    let script ← joined n (← pipeline n)
    match ← peek .command with
    | .mark "&" => do
      drop 1
      return (.background script, true)
    | .mark ";" => do
      drop 1
      return (script, true)
    | .newline => return (script, true)
    | _ => return (script, false)
termination_by structural n => n

/-- A script and what is joined to it. -/
def joined : Nat → Script → Reading Script
  | 0, first => return first
  | n + 1, first => do
    match ← peek .command with
    | .mark "&&" => do
      drop 2
      let _ ← peekBeyondLines (list true n) .command
      joined n (.both first (← pipeline n))
    | .mark "||" => do
      drop 2
      let _ ← peekBeyondLines (list true n) .command
      joined n (.either first (← pipeline n))
    | _ => return first
termination_by structural n => n

/-- Commands that read what the ones before them write. -/
def pipeline : Nat → Reading Script
  | 0 => return .nothing
  | n + 1 => do
    let negated := (← peek .command) = .mark "!"
    if negated then do
      drop 1
      let _ ← peek .command
    let first ← command (← get).line n
    let script ← match ← piped n with
      | [] => pure first
      | more => pure (.pipeline (first :: more))
    return if negated then .negation script else script
termination_by structural n => n

/-- The commands after a bar. -/
def piped : Nat → Reading (List Script)
  | 0 => return []
  | n + 1 => do
    if (← peek .command) = .mark "|" then do
      drop 1
      let line := (← get).line
      let _ ← peekBeyondLines (list true n) .command
      let next ← command line n
      return next :: (← piped n)
    else return []
termination_by structural n => n

/-- One command, given the line in which it is looked for. -/
def command (line : Nat) : Nat → Reading Script
  | 0 => return .nothing
  | n + 1 => do
    let found ← peek .command
    match found with
    | .word => simple n
    | .redirection => simple n
    | .mark "if" => do
      drop 2
      directed line n (← choice n)
    | .mark "while" => do
      drop 5
      directed line n (← loop true n)
    | .mark "until" => do
      drop 5
      directed line n (← loop false n)
    | .mark "for" => do
      drop 3
      directed line n (← each line n)
    | .mark "case" => do
      drop 4
      directed line n (← select line n)
    | .mark "(" => do
      drop 1
      let script ← list false n
      expect (skipWord n) .command ")"
      directed line n (.inner script)
    | .mark "\x7b" => do
      drop 1
      let script ← list false n
      expect (skipWord n) .command "\x7d"
      directed line n script
    | _ => refuse found none
termination_by structural n => n

/-- A compound command with the redirections after it. -/
def directed (line : Nat) : Nat → Script → Reading Script
  | 0, script => return script
  | n + 1, script => do
    match ← redirectionsOf (list true n) n with
    | [] => return script
    | rs => return .redirected line script rs
termination_by structural n => n

/-- A simple command, or the definition of a function. -/
def simple : Nat → Reading Script
  | 0 => return .nothing
  | n + 1 => do
    let parts ← simpleParts (list true n) (← get).bound ⟨none, [], [], []⟩
    match parts, ← peek .plain with
    | ⟨_, [], [name], []⟩, .mark "(" => do
      drop 1
      expect (skipWord n) .plain ")"
      match plainText? name with
      | some (cs, quoted) =>
        if isName cs ∧ ¬quoted ∧ ¬reservedNames.contains (String.ofList cs) then do
          let line := (← get).line
          let _ ← peekBeyondLines (list true n) .command
          return .define (String.ofList cs) (← command line n)
        else fail .functionName
      | none => fail .functionName
    | _, _ =>
      let line := parts.line.getD (← get).line
      return .simple line parts.assignments.reverse parts.words.reverse parts.redirections.reverse
termination_by structural n => n

/-- Reads a word for nothing but the errors in it. -/
def skipWord : Nat → Reading Unit
  | 0 => return
  | n + 1 => do let _ ← word (list true n)
termination_by structural n => n

/-- What follows `if` or `elif`. -/
def choice : Nat → Reading Script
  | 0 => return .nothing
  | n + 1 => do
    let test ← list false n
    expect (skipWord n) .command "then"
    let first ← list false n
    match ← peek .command with
    | .mark "elif" => do
      drop 4
      return .choice test first (← choice n)
    | .mark "else" => do
      drop 4
      let second ← list false n
      expect (skipWord n) .command "fi"
      return .choice test first second
    | _ => do
      expect (skipWord n) .command "fi"
      return .choice test first .nothing
termination_by structural n => n

/-- What follows `while` or `until`. -/
def loop (expected : Bool) : Nat → Reading Script
  | 0 => return .nothing
  | n + 1 => do
    let test ← list false n
    expect (skipWord n) .command "do"
    let body ← list false n
    expect (skipWord n) .command "done"
    return .loop test expected body
termination_by structural n => n

/-- What follows `for`. -/
def each (line : Nat) : Nat → Reading Script
  | 0 => return .nothing
  | n + 1 => do
    if (← peek .plain) ≠ .word then fail .loopVariable
    match plainText? (← word (list true n)) with
    | some (name, false) =>
      if ¬isName name then fail .loopVariable
      else do
        let words ← eachWords n
        let _ ← peekBeyondLines (list true n) .command
        expect (skipWord n) .command "do"
        let body ← list false n
        expect (skipWord n) .command "done"
        return .each line (String.ofList name) words body
    | _ => fail .loopVariable
termination_by structural n => n

/-- The words that a loop runs over. Without any it runs over the parameters. -/
def eachWords : Nat → Reading (List Word)
  | 0 => return []
  | n + 1 => do
    match ← peekBeyondLines (list true n) .command with
    | .mark "in" => do
      drop 2
      let words ← wordsOf (list true n) (← get).bound
      match ← peek .plain with
      | .newline => do
        drop 1
        return words
      | .mark ";" => do
        drop 1
        return words
      | found => refuse found none
    | found => do
      if found = .mark ";" then drop 1
      return [[.quoted [.value "@" .plain []]]]
termination_by structural n => n

/-- What follows `case`. -/
def select (line : Nat) : Nat → Reading Script
  | 0 => return .nothing
  | n + 1 => do
    match ← peek .plain with
    | .word => do
      let w ← word (list true n)
      let _ ← peekBeyondLines (list true n) .keyword
      expect (skipWord n) .keyword "in"
      return .select line w (← cases n)
    | found => refuse found (some .word)
termination_by structural n => n

/-- The cases up to the end of a selection. -/
def cases : Nat → Reading (List (List Word × Script))
  | 0 => return []
  | n + 1 => do
    if (← peekBeyondLines (list true n) .keyword) = .mark "esac" then do
      drop 4
      return []
    else do
      if (← peek .plain) = .mark "(" then drop 1
      let patterns ← patternsOf n
      expect (skipWord n) .plain ")"
      let body ← list true n
      if (← peekBeyondLines (list true n) .command) = .mark "esac" then do
        drop 4
        return [(patterns, body)]
      else do
        expect (skipWord n) .command ";;"
        return (patterns, body) :: (← cases n)
termination_by structural n => n

/-- Patterns with bars between them. -/
def patternsOf : Nat → Reading (List Word)
  | 0 => return []
  | n + 1 => do
    match ← peek .plain with
    | .word => do
      let w ← word (list true n)
      if (← peek .plain) = .mark "|" then do
        drop 1
        return w :: (← patternsOf n)
      else return [w]
    | .mark text => do
      drop text.length
      return [[]]
    | .newline => do
      drop 1
      return [[]]
    | found => refuse found (some (.mark ")"))
termination_by structural n => n

end

/-- How deep commands may stand in each other where a script of some length is read. -/
def depthFor (length : Nat) : Nat := 8 * (length + 1)

/-- The commands in the rest of a line. -/
def lineWithin (depth : Nat) : Nat → Reading Script
  | 0 => return .nothing
  | n + 1 => do
    match ← peek .command with
    | .endOfFile => return .nothing
    | .newline => do
      drop 1
      announcedDocuments (list true depth)
      return .nothing
    | _ => do
      let (script, goesOn) ← separated depth
      match ← peek .command, goesOn with
      | _, true => return .sequence script (← lineWithin depth n)
      | .endOfFile, _ => return script
      | found, false => do
        if found = .word then skipWord depth
        refuse found none

end Reading

/-- The commands of the next line of a script, and what is left of it. -/
def Source.line? (s : Source) : Except SyntaxFault (Script × Source) :=
  (Reading.withOwnDocuments (Reading.lineWithin (Reading.depthFor s.bound) s.bound)).run s

end MavenPom.Shell
