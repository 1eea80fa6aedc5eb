import MavenPom.Shell.Source

/-!
# Reading words

How words are read from a script, with their quotes and with the scripts and expressions that stand
in them.
-/

namespace MavenPom.Shell

/-- What ends a run of parts. -/
inductive Closer where
  | delimiter
  | quote
  | brace
  /-- Two closing parentheses, after those that close others. -/
  | parentheses (opened : Nat)
  | document
  deriving DecidableEq, Repr

structure Context where
  closer : Closer
  /-- Whether text counts as quoted. -/
  quoted : Bool
  /-- Whether no value is put in. -/
  verbatim : Bool
  /-- The document that the parts stand in. -/
  document : Option Announcement
  /-- Whether a line of it begins here. -/
  lineStart : Bool
  deriving DecidableEq, Repr

namespace Context

def word : Context := ⟨.delimiter, false, false, none, false⟩

/-- Within a context, and closed by something else. -/
def within (ctx : Context) (closer : Closer) (quoted : Bool) : Context :=
  { ctx with closer, quoted, lineStart := false }

/-- The context after a character that is text. -/
def after (ctx : Context) (c : Char) : Context :=
  let ctx := { ctx with lineStart := c == '\n' }
  match ctx.closer with
  | .parentheses opened =>
    if c = '(' then { ctx with closer := .parentheses (opened + 1) }
    else if c = ')' then { ctx with closer := .parentheses (opened - 1) }
    else ctx
  | _ => ctx

end Context

namespace Reading

/-- Text in a context. -/
def textPart (ctx : Context) (cs : List Char) : Part :=
  if ctx.quoted then .exact cs else .bare cs

/-- A part in front of others, as one with the first of these if both are text of one kind. -/
def join : Part → List Part → List Part
  | .bare cs, .bare ds :: parts => .bare (cs ++ ds) :: parts
  | .exact cs, .exact ds :: parts => .exact (cs ++ ds) :: parts
  | part, parts => part :: parts

/-- Whether the parts of a context end here, if what comes next is a character. Reads what closes
    them, unless that belongs to no word. -/
def closes (ctx : Context) (c : Char) : Reading Bool := do
  match ctx.closer with
  | .delimiter => return Source.isDelimiter c
  | .quote => if c = '"' then drop 1; return true else return false
  | .brace => if c = '\x7d' then drop 1; return true else return false
  | .parentheses 0 =>
    if c ≠ ')' then return false
    else do
      modify (·.join (· == ')'))
      if (← get).rest.take 2 = [')', ')'] then drop 2; return true else return false
  | _ => return false

/-- What parts come to where the text or their document ends. -/
def atEnd (ctx : Context) : Reading (List Part) :=
  match ctx.closer with
  | .delimiter => return []
  | .document => return []
  | .quote => fail (if ctx.document.isSome then .openBrace else .openQuote)
  | .brace => fail (if ctx.quoted ∧ ctx.document.isNone then .openQuote else .openBrace)
  | .parentheses _ => fail .openExpression

/-- Reads the line that ends a document if it comes next. The text may end with it. -/
def endsDocument (a : Announcement) : Reading Bool := do
  let s ← get
  if ¬a.last.isPrefixOf s.rest then return false
  else
    match s.rest.drop a.last.length with
    | [] => do
      set { s with rest := [], line := s.line + 1 }
      return true
    | c :: _ => do
      if c = '\n' then drop (a.last.length + 1)
      return c == '\n'

/-- Leaves out tabs where a line of a document begins, and says whether there are any. -/
def skipTabs (a : Announcement) : Reading Bool := do
  let tabs := (← get).rest.takeWhile (· == '\t')
  if a.tabbed ∧ ¬tabs.isEmpty then do
    drop tabs.length
    return true
  else return false

/-- The text up to a single quote, which is read as well, of no more than a number of lines. -/
def exactText (document : Option Announcement) : Nat → Reading (List Char)
  | 0 => return []
  | n + 1 => do
    let line := (← get).rest.takeWhile fun c => c != '\'' && c != '\n'
    drop line.length
    match (← get).rest with
    | [] => fail (if document.isSome then .openBrace else .openQuote)
    | '\'' :: _ => do
      drop 1
      return line
    | _ => do
      drop 1
      if let some a := document then do
        let _ ← skipTabs a
        if ← endsDocument a then fail .openBrace
      return line ++ '\n' :: (← exactText document n)

/-- The characters that a backslash quotes within quotes. -/
def isEscapable (ctx : Context) (c : Char) : Bool :=
  c == '$' || c == '\x60' || c == '\\' ||
    (c == '"' && ctx.closer != .document) || (c == '\x7d' && ctx.closer == .brace)

/-- What a backslash makes of the character after it. -/
def escaped (ctx : Context) : List Char → Reading (List Part)
  | [] => do
    drop 1
    return [.exact ['\\']]
  | '\n' :: _ => do
    drop 2
    return []
  | c :: _ =>
    if ctx.quoted ∧ ¬isEscapable ctx c then do
      drop 1
      return [.exact ['\\']]
    else do
      drop 2
      return [.exact [c]]

/-- The script between backquotes, and how many characters of the text it takes with the closing
    one. -/
def backquoted? (quoted : Bool) : List Char → Option (List Char × Nat)
  | [] => none
  | '\x60' :: _ => some ([], 1)
  | '\\' :: '\n' :: rest => (backquoted? quoted rest).map fun (cs, n) => (cs, n + 2)
  | '\\' :: c :: rest =>
    (backquoted? quoted rest).map fun (cs, n) =>
      if "$\\\x60".toList.contains c ∨ (quoted ∧ c = '"') then (c :: cs, n + 2)
      else ('\\' :: c :: cs, n + 2)
  | c :: rest => (backquoted? quoted rest).map fun (cs, n) => (c :: cs, n + 1)

def isSpecial (c : Char) : Bool := "?#@*!$-".toList.contains c || c.isDigit

/-- The name in braces that a text begins with, whether its length is asked for, and what follows
    it. -/
def bracedName? : List Char → Option (List Char × Bool × List Char)
  | '#' :: c :: rest =>
    if isNameStart c then
      some ((c :: rest).takeWhile isNameChar, true, (c :: rest).dropWhile isNameChar)
    else if c.isDigit then
      some ((c :: rest).takeWhile Char.isDigit, true, (c :: rest).dropWhile Char.isDigit)
    else if c = '\x7d' ∨ rest.head? ≠ some '\x7d' then some (['#'], false, c :: rest)
    else if isSpecial c then some ([c], true, rest)
    else none
  | c :: rest =>
    if isNameStart c then
      some ((c :: rest).takeWhile isNameChar, false, (c :: rest).dropWhile isNameChar)
    else if c.isDigit then
      some ((c :: rest).takeWhile Char.isDigit, false, (c :: rest).dropWhile Char.isDigit)
    else if isSpecial c then some ([c], false, rest)
    else none
  | [] => none

/-- The change that is asked for after a name in braces, and how many characters say so. -/
def changeOf : List Char → Change × Nat
  | '\x7d' :: _ => (.plain, 0)
  | '#' :: '#' :: _ => (.cutFront true, 2)
  | '#' :: _ => (.cutFront false, 1)
  | '%' :: '%' :: _ => (.cutBack true, 2)
  | '%' :: _ => (.cutBack false, 1)
  | ':' :: c :: _ => (ofMark c true, 2)
  | c :: _ => (ofMark c false, 1)
  | [] => (.malformed, 0)
where
  ofMark (c : Char) (orEmpty : Bool) : Change :=
    match c with
    | '-' => .instead orEmpty
    | '=' => .assign orEmpty
    | '?' => .require orEmpty
    | '+' => .alternative orEmpty
    | _ => .malformed

/-- The characters up to which a value in braces says what is asked for. -/
def isInHead (c : Char) : Bool := isNameChar c || "?#@*!$-:=+%\x7d".toList.contains c

/-- Joins lines in the beginning of a value that comes next. -/
def joinValue : Reading Unit := do
  modify (·.join fun c => c == '$' || c == '(')
  match (← get).rest with
  | '$' :: '\x7b' :: _ => modify (·.join fun c => c == '\x7b' || isInHead c)
  | '$' :: c :: _ => if isNameStart c then modify (·.join fun c => c == '$' || isNameChar c)
  | _ => pure ()

/-- Reads a script that has documents of its own. -/
def withOwnDocuments (script : Reading Script) : Reading Script := do
  let before := (← get).documents
  modify fun s => { s with documents := Documents.none }
  let script ← script
  let own := (← get).documents
  modify fun s => { s with documents := before }
  return if own.fresh = 0 then script else script.withDocuments own.text

mutual

/-- Parts up to what ends them, of no more than a number of characters. -/
def parts (script : Reading Script) : Nat → Context → Reading (List Part)
  | 0, ctx => atEnd ctx
  | n + 1, ctx => do
    match if ctx.lineStart then ctx.document else none with
    | some a => do
      if (← get).rest.take 2 = ['\\', '\n'] then do
        drop 2
        parts script n ctx
      else do
        let shifted ← skipTabs a
        if ← endsDocument a then atEnd ctx
        else if shifted ∧ (← get).rest.take 2 = ['\\', '\n'] then do
          modify fun s => { s with rest := s.rest.drop 2 }
          let more ← parts script n { ctx with lineStart := false }
          return join (.exact ['\\', '\n']) more
        else parts script n { ctx with lineStart := false }
    | none =>
      match (← get).rest with
      | [] => atEnd ctx
      | c :: rest =>
        if ← closes ctx c then return []
        else do
          let found ← partsAt script n ctx c rest
          let more ← parts script n (ctx.after c)
          return found.foldr join more

/-- The parts that begin with a character, given the text after it. -/
def partsAt (script : Reading Script) : Nat → Context → Char → List Char → Reading (List Part)
  | 0, ctx, _, _ => atEnd ctx
  | n + 1, ctx, c, rest => do
    if c = '\\' then escaped ctx rest
    else if c = '\'' ∧ ¬ctx.quoted then do
      drop 1
      return [.exact (← exactText ctx.document (rest.length + 1))]
    else if c = '"' ∧ (¬ctx.quoted ∨ ctx.closer = .brace) then do
      drop 1
      return [.quoted (← parts script n (ctx.within .quote true))]
    else if c = '\x60' ∧ ¬ctx.verbatim then
      match backquoted? ctx.quoted rest with
      | none => do
        drop (rest.length + 1)
        fail .openBackquote
      | some (inside, size) => do
        let written ← apart 1 inside (withOwnDocuments script)
        drop (size + 1)
        return [.written written]
    else if c = '$' ∧ ¬ctx.verbatim then do
      joinValue
      dollar script n ctx (← get).rest.tail
    else do
      drop 1
      return [textPart ctx [c]]

/-- The part that begins with a dollar sign, given the text after that. -/
def dollar (script : Reading Script) : Nat → Context → List Char → Reading (List Part)
  | 0, ctx, _ => atEnd ctx
  | n + 1, ctx, rest => do
    match rest with
    | '(' :: '(' :: _ => do
      drop 3
      return [.number (← parts script n (ctx.within (.parentheses 0) true))]
    | '(' :: _ => do
      drop 2
      let written ← withOwnDocuments do
        let written ← script
        expect (do let _ ← parts script n Context.word) .command ")"
        return written
      return [.written written]
    | '\x7b' :: rest =>
      match bracedName? rest with
      | none => do
        let length := match rest with
          | '\x7d' :: _ => 2
          | '#' :: _ => 4
          | _ => 3
        modify fun s => { s with rest := s.rest.drop length }
        let _ ← parts script n (ctx.within .brace ctx.quoted)
        return [.value "" .malformed []]
      | some (name, isLength, after) => do
        let (change, size) := changeOf after
        let length := rest.length - after.length + 2 + size
        modify fun s => { s with rest := s.rest.drop length }
        let word ← parts script n (ctx.within .brace (ctx.quoted && !change.cuts))
        let change := if ¬isLength then change else if change = .plain then .length else .malformed
        return [.value (String.ofList name) change word]
    | c :: rest =>
      if isNameStart c then do
        let name := (c :: rest).takeWhile isNameChar
        drop (name.length + 1)
        return [.value (String.ofList name) .plain []]
      else if isSpecial c then do
        drop 2
        return [.value c.toString .plain []]
      else do
        drop 1
        return [textPart ctx ['$']]
    | [] => do
      drop 1
      return [textPart ctx ['$']]

end

/-- A word, given how scripts in it are read. -/
def word (script : Reading Script) : Reading Word := do
  parts script (3 * ((← get).bound + 1)) Context.word

/-- A word in which no value is put in. -/
def verbatimWord (script : Reading Script) : Reading Word := do
  parts script (3 * ((← get).bound + 1)) { Context.word with verbatim := true }

/-! ## Documents -/

/-- The text of a document in which nothing has a meaning, of no more than a number of lines. -/
def literalText (a : Announcement) : Nat → Reading (List Char)
  | 0 => return []
  | n + 1 => do
    let _ ← skipTabs a
    if ← endsDocument a then return []
    else do
      let rest := (← get).rest
      let line := rest.takeWhile (· != '\n')
      drop (line.length + 1)
      if (rest.drop line.length).isEmpty then return line
      else return line ++ '\n' :: (← literalText a n)

def document (script : Reading Script) (a : Announcement) : Reading Word := do
  let bound := (← get).bound
  if a.literal then return [.exact (← literalText a (bound + 1))]
  else parts script (3 * (bound + 1)) ⟨.document, true, false, some a, true⟩

/-- Reads the documents that have been announced. A line begins here. -/
def announcedDocuments (script : Reading Script) : Reading Unit := do
  let announced := (← get).documents.announced
  modify fun s => { s with documents := { s.documents with announced := [] } }
  announced.forM fun a => do
    let text ← document script a
    modify fun s =>
      { s with documents := { s.documents with read := s.documents.read.insert a.number text } }

/-- What comes after blanks and line breaks, of which there are no more than a number. -/
def peekWithin (script : Reading Script) (slot : Slot) : Nat → Reading Lexeme
  | 0 => peek slot
  | n + 1 => do
    match ← peek slot with
    | .newline => do
      drop 1
      announcedDocuments script
      peekWithin script slot n
    | l => return l

def peekBeyondLines (script : Reading Script) (slot : Slot) : Reading Lexeme := do
  peekWithin script slot (← get).bound

end Reading

/-! ## Words without values -/

/-- The text of a word in which no value is put in, without its quotes, and whether it has any. -/
def plainText? : Word → Option (List Char × Bool)
  | [] => some ([], false)
  | .bare cs :: rest => (plainText? rest).map fun (ds, quoted) => (cs ++ ds, quoted)
  | .exact cs :: rest => (plainText? rest).map fun (ds, _) => (cs ++ ds, true)
  | .quoted inside :: rest =>
    match plainText? inside, plainText? rest with
    | some (cs, _), some (ds, _) => some (cs ++ ds, true)
    | _, _ => none
  | _ :: _ => none

/-- The name and value of an assignment. -/
def assignment? : Word → Option (String × Word)
  | .bare cs :: rest =>
    let name := cs.takeWhile isNameChar
    match cs.drop name.length with
    | '=' :: value =>
      if isName name then
        some (String.ofList name, if value.isEmpty then rest else .bare value :: rest)
      else none
    | _ => none
  | _ => none

end MavenPom.Shell
