import MavenPom.Files.Error
import MavenPom.Shell.Condition
import MavenPom.Shell.Format
import MavenPom.Text.Cut

/-!
# Programs

What small programs do with their arguments and with what they read.
-/

namespace MavenPom.Shell

/-- What can be read. It does not end where what writes it never ends. -/
structure Feed where
  text : List Char
  ends : Bool
  deriving DecidableEq, Repr

/-- What a program does. -/
structure Effect where
  /-- What is written, each time to the errors or to the output. -/
  writes : List (Bool × List Char)
  code : Nat
  /-- How long it takes, in microseconds. -/
  delay : Nat
  /-- Whether the standard input has been read. -/
  reads : Bool
  ends : Bool
  deriving DecidableEq, Repr

/-- What can be read by name, with a hyphen for the standard input. -/
abbrev Reader := String → Except IoError Feed

/-- A program, given the name that it is called by, its arguments and what it can read. -/
abbrev Program := String → List String → Reader → Effect

namespace Effect

def exit (code : Nat) : Effect := ⟨[], code, 0, false, true⟩

def print (cs : List Char) : Effect := ⟨[(false, cs)], 0, 0, false, true⟩

/-- A line, as it is written. -/
def line (text : String) : List Char := text.toList ++ ['\n']

def fail (code : Nat) (complaints : List String) : Effect :=
  ⟨complaints.map fun text => (true, line text), code, 0, false, true⟩

end Effect

namespace Program

/-! ## Options -/

/-- The options that a program has: letters without and with a value, and names of letters. -/
structure Choices where
  flags : String
  valued : String
  names : List (String × Char)

/-- What is wrong with an option. -/
inductive OptionFault where
  | unknownLetter (letter : Char)
  | noValue (letter : Char)
  | unknownName (text : String)
  | ambiguous (text : String) (names : List String)
  | noNamedValue (name : String)
  | needlessValue (name : String)
  deriving DecidableEq, Repr

def OptionFault.message : OptionFault → String
  | .unknownLetter letter => "invalid option -- '" ++ letter.toString ++ "'"
  | .noValue letter => "option requires an argument -- '" ++ letter.toString ++ "'"
  | .unknownName text => "unrecognized option '" ++ text ++ "'"
  | .ambiguous text names =>
    "option '" ++ text ++ "' is ambiguous; possibilities:" ++
      String.join (names.map fun name => " '--" ++ name ++ "'")
  | .noNamedValue name => "option '--" ++ name ++ "' requires an argument"
  | .needlessValue name => "option '--" ++ name ++ "' doesn't allow an argument"

/-- Options by their letters, with their values, and the arguments after them. -/
abbrev Chosen := List (Char × String) × List String

/-- The options in one argument, and the arguments after it that are left. An option with a value
    has it in the same argument or in the next one. -/
def cluster (choices : Choices) : List Char → List String → Except OptionFault Chosen
  | [], rest => .ok ([], rest)
  | c :: cs, rest =>
    if choices.valued.toList.contains c then
      if cs.isEmpty then
        match rest with
        | value :: rest => .ok ([(c, value)], rest)
        | [] => .error (.noValue c)
      else .ok ([(c, String.ofList cs)], rest)
    else if choices.flags.toList.contains c then
      (cluster choices cs rest).map fun (options, rest) => ((c, "") :: options, rest)
    else .error (.unknownLetter c)

/-- The option that a name or the beginning of one stands for, perhaps with its value after an
    equals sign. -/
def named (choices : Choices) (text : String) (rest : List String) : Except OptionFault Chosen :=
  let (start, value) : String × Option String := match Text.splitOnce? '=' text with
    | some (start, value) => (start, some value)
    | none => (text, none)
  let found : List (String × Char) := match choices.names.filter (·.1 = start) with
    | [] => choices.names.filter fun n => n.1.startsWith start
    | whole => whole
  match found, value, rest with
  | [], _, _ => .error (.unknownName ("--" ++ text))
  | [(name, c)], value, rest =>
    if choices.valued.toList.contains c then
      match value, rest with
      | some value, _ => .ok ([(c, value)], rest)
      | none, value :: rest => .ok ([(c, value)], rest)
      | none, [] => .error (.noNamedValue name)
    else if value.isSome then .error (.needlessValue name)
    else .ok ([(c, "")], rest)
  | many, _, _ => .error (.ambiguous ("--" ++ text) (many.map (·.1)))

/-- The options among no more than a number of arguments, and the other arguments. -/
def optionsWithin (choices : Choices) : Nat → List String → Except OptionFault Chosen
  | 0, rest => .ok ([], rest)
  | _, [] => .ok ([], [])
  | n + 1, a :: rest => do
    match a.toList with
    | ['-', '-'] => return ([], rest)
    | '-' :: '-' :: cs => do
      let (options, rest) ← named choices (String.ofList cs) rest
      let (more, operands) ← optionsWithin choices n rest
      return (options ++ more, operands)
    | '-' :: c :: cs => do
      let (options, rest) ← cluster choices (c :: cs) rest
      let (more, operands) ← optionsWithin choices n rest
      return (options ++ more, operands)
    | _ => do
      let (options, operands) ← optionsWithin choices n rest
      return (options, a :: operands)

/-- Points to what a program says of itself. -/
def hint (name : String) : String := "Try '" ++ name ++ " --help' for more information."

/-- What a program does with its options and the other arguments. -/
def withOptions (name : String) (choices : Choices) (arguments : List String)
    (use : List (Char × String) → List String → Effect) : Effect :=
  match optionsWithin choices arguments.length arguments with
  | .ok (options, operands) => use options operands
  | .error fault => .fail 1 [name ++ ": " ++ fault.message, hint name]

/-- Complains that an argument is missing. -/
def missingOperand (name : String) : Effect :=
  .fail 1 [name ++ ": missing operand", hint name]

/-! ## Files -/

/-- Why a file cannot be read. -/
def reason : IoError → String
  | .notFound => "No such file or directory"
  | .isADirectory => "Is a directory"
  | .notADirectory => "Not a directory"
  | .invalidFilename => "File name too long"
  | _ => "Permission denied"

/-- What a program makes of the files that it is given, or of the standard input. -/
def overFiles (files : List String) (read : Reader)
    (complaint : String → IoError → String) (use : String → Feed → List Char × Bool) : Effect :=
  go false (if files.isEmpty then ["-"] else files)
where
  /-- The standard input has nothing more once it has been read. -/
  go (taken : Bool) : List String → Effect
    | [] => .exit 0
    | file :: rest =>
      match if taken ∧ file = "-" then .ok ⟨[], true⟩ else read file with
      | .error cause =>
        let more := go taken rest
        { more with
          writes := (true, Effect.line (complaint file cause)) :: more.writes, code := 1 }
      | .ok feed =>
        let (text, ends) := use file feed
        let more := if ends then go (taken || file = "-") rest
          else { Effect.exit 0 with ends := false }
        { more with writes := (false, text) :: more.writes, reads := file = "-" || more.reads }

/-- A complaint that names the program, the file and the reason. -/
def plainComplaint (name file : String) (cause : IoError) : String :=
  name ++ ": " ++ file ++ ": " ++ reason cause

def openComplaint (name file : String) (cause : IoError) : String :=
  if cause = .isADirectory then
    name ++ ": error reading '" ++ (if file = "-" then "standard input" else file) ++ "': " ++
      reason cause
  else name ++ ": cannot open '" ++ file ++ "' for reading: " ++ reason cause

/-- What a program makes of each file as a whole. -/
def whole (name : String) (files : List String) (read : Reader)
    (f : List Char → List Char) : Effect :=
  overFiles files read (plainComplaint name) fun _ feed =>
    if feed.ends then (f feed.text, true) else ([], false)

/-- The lines of a text, each with its line break. -/
def linesOf (cs : List Char) : List (List Char) :=
  cs.foldr (fun c lines =>
    if c = '\n' then [c] :: lines
    else match lines with
      | [] => [[c]]
      | line :: rest => (c :: line) :: rest) []

/-- The lines of a text without their line breaks. -/
def bareLines (cs : List Char) : List (List Char) :=
  (linesOf cs).map fun line => if line.getLast? = some '\n' then line.dropLast else line

/-- Lines, each with a line break. -/
def unlines (lines : List (List Char)) : List Char := lines.flatMap (· ++ ['\n'])

/-! ## Printing -/

/-- Prints words in a line, as what their escapes are if there is a way to read these. -/
def printWords (escapes : Option (List Char → List Char × Bool)) (lineBreak : Bool)
    (words : List String) : Effect :=
  let cs := (" ".intercalate words).toList
  let (cs, ended) := (escapes.map (· cs)).getD (cs, false)
  .print (if lineBreak ∧ ¬ended then cs ++ ['\n'] else cs)

/-- Whether an argument is letters of options after a hyphen. -/
def isEchoOption (argument : String) : Bool :=
  match argument.toList with
  | '-' :: letters => !letters.isEmpty && letters.all "neE".toList.contains
  | _ => false

/-- Prints the arguments, with their escapes only after `-e`. -/
def echo : Program := fun _ arguments _ =>
  let letters := (arguments.takeWhile isEchoOption).flatMap String.toList
  let escaped := (letters.filter fun c => c == 'e' || c == 'E').getLast? == some 'e'
  printWords (if escaped then some (Format.unescapeFrom true 0) else none) (!letters.contains 'n')
    (arguments.dropWhile isEchoOption)

/-- Prints the arguments with their escapes. -/
def echoEscaped : List String → Effect
  | "-n" :: words => printWords (some Format.unescape) false words
  | words => printWords (some Format.unescape) true words

def printf : Program := fun name arguments _ =>
  match if arguments.head? = some "--" then arguments.tail else arguments with
  | [] => missingOperand name
  | format :: arguments =>
    let p := Format.print format arguments
    let problems := p.problems ++ match p.course with
      | .refused problem => [problem]
      | _ => []
    let complaints := problems.map (name ++ ": " ++ ·)
    { Effect.fail (if problems.isEmpty then 0 else 1) complaints with
      writes := (complaints.map fun text => (true, Effect.line text)) ++ [(false, p.output)] }

/-- A decimal number as a whole one, and how many of its digits are decimal places. -/
def decimal? (text : String) : Option (Int × Nat) :=
  let (negative, cs) := match text.toList with
    | '-' :: cs => (true, cs)
    | '+' :: cs => (false, cs)
    | cs => (false, cs)
  let whole := cs.takeWhile Char.isDigit
  let places? := match cs.drop whole.length with
    | [] => some []
    | '.' :: places => if places.all Char.isDigit then some places else none
    | _ => none
  match places? with
  | none => none
  | some places =>
    (Text.number? 10 (whole ++ places)).map fun n =>
      (if negative then -Int.ofNat n else Int.ofNat n, places.length)

/-- A number as it is printed with decimal places. -/
def printDecimal (n : Int) (places : Nat) : List Char :=
  (if n < 0 then ['-'] else []) ++ Floating.fixed false ⟨n.natAbs, Nat.pow 10 places⟩ places

/-- Numbers from the first to the last one, each as far from the one before. -/
def sequence (options : List (Char × String)) (first step last : Int × Nat) : Effect :=
  let common := max first.2 (max step.2 last.2)
  let scaled (n : Int × Nat) : Int := n.1 * Int.ofNat (Nat.pow 10 (common - n.2))
  let places := max first.2 step.2
  let (a, d, b) := (scaled first, scaled step, scaled last)
  let count := if d = 0 then 0 else ((b - a).fdiv d + 1).toNat
  let printed := (List.range count).map fun i =>
    printDecimal ((a + d * Int.ofNat i).fdiv (Int.ofNat (Nat.pow 10 (common - places)))) places
  let width := if (options.lookup 'w').isSome then
      (printed.map List.length).foldr max 0
    else 0
  let padded (cs : List Char) := match cs with
    | '-' :: digits => '-' :: (List.replicate (width - cs.length) '0' ++ digits)
    | digits => List.replicate (width - digits.length) '0' ++ digits
  let separator := ((options.lookup 's').getD "\n").toList
  .print (if count = 0 then [] else separator.intercalate (printed.map padded) ++ ['\n'])

/-- The letters of options, which a number with a sign has none of. -/
def isNegative (argument : String) : Bool :=
  match argument.toList with
  | '-' :: c :: _ => c.isDigit || c == '.'
  | _ => false

/-- The numbers up to the last argument, one a line. -/
def seq : Program := fun name arguments _ =>
  let options := arguments.takeWhile fun a => a.startsWith "-" && !isNegative a
  let count := options.length + if options.getLast? = some "-s" then 1 else 0
  let choices : Choices := ⟨"w", "s", [("equal-width", 'w'), ("separator", 's')]⟩
  withOptions name choices (arguments.take count) fun letters _ =>
    let operands := arguments.drop count
    match operands.find? fun a => (decimal? a).isNone with
    | some a =>
      .fail 1 [name ++ ": invalid floating point argument: '" ++ a ++ "'", hint name]
    | none =>
      match operands.filterMap decimal? with
      | [] => missingOperand name
      | [last] => sequence letters (1, 0) (1, 0) last
      | [first, last] => sequence letters first (1, 0) last
      | [first, step, last] => sequence letters first step last
      | _ => .fail 1 [name ++ ": extra operand '" ++ (operands[3]?).getD "" ++ "'", hint name]

/-- A line that is printed again and again. -/
def yes : Program := fun _ arguments _ =>
  let text := if arguments.isEmpty then "y" else " ".intercalate arguments
  { Effect.print (List.replicate 20000 (Effect.line text)).flatten with ends := false }

/-! ## Filters -/

/-- How the characters of files are shown. -/
structure Show where
  numbers : Bool
  numbersOnlyText : Bool
  ends : Bool
  tabs : Bool
  controls : Bool
  squeezes : Bool
  deriving DecidableEq, Repr

/-- What has been shown of files. -/
structure Shown where
  lines : Nat
  /-- How many blank lines there are just before, and whether a line has been begun after them. -/
  blanks : Nat
  inLine : Bool
  deriving DecidableEq, Repr

namespace Show

/-- A character below 128 that is shown if it is a control character. -/
def control (n : Nat) : List Char :=
  if n < 32 then ['^', Char.ofNat (n + 64)]
  else if n = 127 then ['^', '?']
  else [Char.ofNat n]

def char (how : Show) (c : Char) : List Char :=
  if c = '\t' then if how.tabs then control c.toNat else [c]
  else if ¬how.controls then [c]
  else if c.toNat < 128 then control c.toNat
  else 'M' :: '-' :: control (c.toNat - 128)

/-- The number in front of a line. -/
def number (n : Nat) : List Char :=
  let digits := Nat.toDigits 10 n
  List.replicate (6 - digits.length) ' ' ++ digits ++ ['\t']

/-- A text after others, as it is shown. -/
def text (how : Show) : Shown → List Char → List Char × Shown
  | shown, [] => ([], shown)
  | shown, c :: rest =>
    if c = '\n' then
      let blank := !shown.inLine
      if blank ∧ how.squeezes ∧ 0 < shown.blanks then how.text shown rest
      else
        let numbered := blank && how.numbers && !how.numbersOnlyText
        let lines := if numbered then shown.lines + 1 else shown.lines
        let (more, last) :=
          how.text ⟨lines, if blank then shown.blanks + 1 else 0, false⟩ rest
        ((if numbered then number lines else []) ++ (if how.ends then ['$'] else []) ++
          '\n' :: more, last)
    else
      let starts := !shown.inLine && how.numbers
      let lines := if starts then shown.lines + 1 else shown.lines
      let (more, last) := how.text ⟨lines, shown.blanks, true⟩ rest
      let cs := if c = '\r' ∧ how.ends ∧ rest.head? = some '\n' then control c.toNat
        else how.char c
      ((if starts then number lines else []) ++ cs ++ more, last)

/-- What is written, as it is shown. -/
def writes (how : Show) : Shown → List (Bool × List Char) → List (Bool × List Char)
  | _, [] => []
  | shown, (true, cs) :: rest => (true, cs) :: how.writes shown rest
  | shown, (false, cs) :: rest =>
    let (cs, shown) := how.text shown cs
    (false, cs) :: how.writes shown rest

/-- How files are shown where options ask for it. -/
def ofOptions (options : List (Char × String)) : Show :=
  let has (letters : String) : Bool := options.any fun o => letters.toList.contains o.1
  { numbers := has "nb", numbersOnlyText := has "b", ends := has "AeE", tabs := has "AtT"
    controls := has "Aetv", squeezes := has "s" }

end Show

/-- The files one after the other. -/
def cat : Program := fun name arguments read =>
  let choices : Choices :=
    { flags := "AbeEnstTuv", valued := ""
      names := [("number-nonblank", 'b'), ("number", 'n'), ("squeeze-blank", 's'),
        ("show-nonprinting", 'v'), ("show-ends", 'E'), ("show-tabs", 'T'), ("show-all", 'A')] }
  withOptions name choices arguments fun options files =>
    let plain := overFiles files read (plainComplaint name) fun _ feed => (feed.text, feed.ends)
    if options.all (·.1 = 'u') then plain
    else { plain with writes := (Show.ofOptions options).writes ⟨0, 0, false⟩ plain.writes }

/-- How much of a text is meant, in bytes or in lines. -/
structure Amount where
  bytes : Bool
  /-- A sign in front of the number. -/
  sign : Option Char
  number : Nat

/-- The parts of a text that count for an amount. -/
def Amount.units (a : Amount) (cs : List Char) : List (List Char) :=
  if a.bytes then cs.map fun c => [c] else linesOf cs

/-- The arguments with a number after a hyphen as the value of an option. -/
def modernized : List String → List String
  | [] => []
  | a :: rest =>
    match a.toList with
    | '-' :: c :: cs => if c.isDigit then "-n" :: String.ofList (c :: cs) :: rest else a :: rest
    | _ => a :: rest

/-- The amount that options ask for, or a value that is none. -/
def amount (options : List (Char × String)) : Except String Amount :=
  match (options.filter fun o => o.1 == 'n' || o.1 == 'c').getLast? with
  | none => .ok ⟨false, none, 10⟩
  | some (letter, value) =>
    let (sign, digits) := match value.toList with
      | '-' :: digits => (some '-', digits)
      | '+' :: digits => (some '+', digits)
      | digits => (none, digits)
    match Text.number? 10 digits with
    | some number => .ok ⟨letter == 'c', sign, number⟩
    | none => .error ((if letter = 'c' then "bytes" else "lines") ++ ": '" ++ value ++ "'")

/-- Whether each file has a title: as the last option about it says, else if there are many. -/
def isTitled (options : List (Char × String)) (files : List String) : Bool :=
  match (options.filter fun o => o.1 = 'q' ∨ o.1 = 'v').getLast? with
  | some (c, _) => c == 'v'
  | none => decide (1 < files.length)

/-- The title of a file, after an empty line. -/
def title (file : String) : List Char :=
  '\n' :: Effect.line ("==> " ++ (if file = "-" then "standard input" else file) ++ " <==")

/-- The writes without the first character of the output. -/
def dropFirst : List (Bool × List Char) → List (Bool × List Char)
  | [] => []
  | (true, cs) :: rest => (true, cs) :: dropFirst rest
  | (false, cs) :: rest => (false, cs.drop 1) :: rest

/-- What a program makes of an amount of each file. -/
def portion (name : String) (arguments : List String) (read : Reader)
    (use : Amount → Feed → List Char × Bool) : Effect :=
  let choices : Choices :=
    { flags := "qv", valued := "nc"
      names := [("lines", 'n'), ("bytes", 'c'), ("quiet", 'q'), ("silent", 'q'), ("verbose", 'v')] }
  withOptions name choices (modernized arguments) fun options files =>
    match amount options with
    | .error problem => .fail 1 [name ++ ": invalid number of " ++ problem]
    | .ok a =>
      let files := if files.isEmpty then ["-"] else files
      if isTitled options files then
        let effect := overFiles files read (openComplaint name) fun file feed =>
          let (cs, ends) := use a feed
          (title file ++ cs, ends)
        { effect with writes := dropFirst effect.writes }
      else overFiles files read (openComplaint name) fun _ feed => use a feed

/-- The beginning of each file, or all but its end for a negative number. -/
def head : Program := fun name arguments read =>
  portion name arguments read fun a feed =>
    let parts := a.units feed.text
    if a.sign = some '-' then ((parts.take (parts.length - a.number)).flatten, feed.ends)
    else ((parts.take a.number).flatten, feed.ends || decide (a.number ≤ parts.length))

/-- The end of each file, or what is left from a place on after a plus sign. -/
def tail : Program := fun name arguments read =>
  portion name arguments read fun a feed =>
    let parts := a.units feed.text
    if a.sign = some '+' then ((parts.drop (a.number - 1)).flatten, feed.ends)
    else if feed.ends then ((parts.drop (parts.length - a.number)).flatten, true)
    else ([], false)

/-- The number of words, parted by blanks. -/
def wordCount (cs : List Char) : Nat :=
  (cs.foldl (fun (count, inWord) c =>
    if isSpace c then (count, false) else (if inWord then count else count + 1, true))
    ((0 : Nat), false)).1

/-- The numbers of lines, words and bytes in each file. -/
def wc : Program := fun name arguments read =>
  let choices : Choices :=
    ⟨"lwcm", "", [("lines", 'l'), ("words", 'w'), ("bytes", 'c'), ("chars", 'm')]⟩
  withOptions name choices arguments fun options files =>
    let shown (c : Char) : Bool := options.isEmpty || (options.lookup c).isSome
    let counts (cs : List Char) : List Nat :=
      (if shown 'l' then [cs.count '\n'] else []) ++ (if shown 'w' then [wordCount cs] else []) ++
        (if (options.lookup 'm').isSome then
          [(Utf8.decodeLossy (toBytes cs)).length] else []) ++
        (if shown 'c' then [cs.length] else [])
    let padded (alone : Bool) (n : Nat) : List Char :=
      let digits := Nat.toDigits 10 n
      if alone then digits else List.replicate (7 - digits.length) ' ' ++ digits
    overFiles files read (plainComplaint name) fun file feed =>
      if feed.ends then
        let numbers := counts feed.text
        let named := if files.isEmpty then [] else ' ' :: file.toList
        ([' '].intercalate (numbers.map (padded (numbers.length = 1))) ++ named ++ ['\n'], true)
      else ([], false)

/-- The characters of a set, with ranges and escapes. -/
def setOf : Nat → List Char → List Char
  | 0, _ => []
  | _, [] => []
  | n + 1, '\\' :: rest =>
    let (byte, size) := Format.escape false rest
    byte :: setOf n (rest.drop size)
  | n + 1, a :: '-' :: b :: rest =>
    ((List.range (b.toNat + 1 - a.toNat)).map fun i => Char.ofNat (a.toNat + i)) ++ setOf n rest
  | n + 1, a :: rest => a :: setOf n rest

/-- The classes of characters that have names. -/
def classes : List (String × List Char) :=
  [("[:lower:]", "a-z".toList), ("[:upper:]", "A-Z".toList), ("[:digit:]", "0-9".toList),
    ("[:alpha:]", "A-Za-z".toList), ("[:alnum:]", "0-9A-Za-z".toList),
    ("[:space:]", "\\t-\\r ".toList), ("[:blank:]", "\\t ".toList)]

/-- The characters of a set by which a program replaces others. -/
def translationSet (text : String) : List Char :=
  let cs := ((classes.lookup text).getD text.toList)
  setOf cs.length cs

/-- A text without repetitions of some characters. -/
def squeeze (set : List Char) : List Char → List Char
  | [] => []
  | c :: rest =>
    let more := squeeze set rest
    if set.contains c ∧ more.head? = some c then more else c :: more

/-- Replaces, deletes or squeezes characters of the standard input. -/
def tr : Program := fun name arguments read =>
  let choices : Choices :=
    ⟨"cCds", "", [("complement", 'c'), ("delete", 'd'), ("squeeze-repeats", 's')]⟩
  withOptions name choices arguments fun options operands =>
    let has (c : Char) : Bool := (options.lookup c).isSome
    match operands with
    | [] => missingOperand name
    | first :: more =>
      let set := translationSet first
      let member (c : Char) : Bool := set.contains c != (has 'c' || has 'C')
      let second := (more.head?.map translationSet).getD []
      if more.isEmpty ∧ ¬(has 'd' ∨ has 's') then
        .fail 1 [name ++ ": missing operand after '" ++ first ++ "'",
          "Two strings must be given when translating.", hint name]
      else
        let place (c : Char) : Nat := if has 'c' ∨ has 'C' then second.length else set.idxOf c
        let replaced (c : Char) : Char :=
          if member c then ((second[place c]?) <|> second.getLast?).getD c else c
        let use (cs : List Char) : List Char :=
          if has 'd' then cs.filter fun c => !member c
          else
            let changed := if second.isEmpty then cs else cs.map replaced
            if ¬has 's' then changed
            else if second.isEmpty then squeeze (cs.filter member) changed
            else squeeze second changed
        overFiles [] read (plainComplaint name) fun _ feed => (use feed.text, feed.ends)

/-- Lines without those that repeat the one before, each with how often it stands there. -/
def counted : List (List Char) → List (List Char × Nat)
  | [] => []
  | line :: rest =>
    match counted rest with
    | (next, n) :: more =>
      if next = line then (line, n + 1) :: more else (line, 1) :: (next, n) :: more
    | [] => [(line, 1)]

def uniq : Program := fun name arguments read =>
  let choices : Choices := ⟨"cdu", "", [("count", 'c'), ("repeated", 'd'), ("unique", 'u')]⟩
  withOptions name choices arguments fun options files =>
    let has (c : Char) : Bool := (options.lookup c).isSome
    whole name (files.take 1) read fun cs =>
      let kept := (counted (bareLines cs)).filter fun (_, n) =>
        (!has 'd' || decide (1 < n)) && (!has 'u' || n == 1)
      unlines (kept.map fun (line, n) =>
        let digits := Nat.toDigits 10 n
        if has 'c' then List.replicate (7 - digits.length) ' ' ++ digits ++ ' ' :: line else line)

/-- The number that a line begins with. -/
def leadingValue (line : List Char) : Int :=
  let (negative, digits) := match line.dropWhile isSpace with
    | '-' :: digits => (true, digits)
    | digits => (false, digits)
  let n := Int.ofNat (leadingDigits 10 digits).1
  if negative then -n else n

/-- The lines of all files in their order. -/
def sort : Program := fun name arguments read =>
  let choices : Choices :=
    ⟨"nru", "", [("numeric-sort", 'n'), ("reverse", 'r'), ("unique", 'u')]⟩
  withOptions name choices arguments fun options files =>
    let has (c : Char) : Bool := (options.lookup c).isSome
    let before (a b : List Char) : Bool :=
      if has 'n' ∧ leadingValue a ≠ leadingValue b then leadingValue a ≤ leadingValue b
      else String.ofList a ≤ String.ofList b
    let text := overFiles files read (plainComplaint name) fun _ feed =>
      if feed.ends then (feed.text, true) else ([], false)
    let lines := bareLines ((text.writes.filter fun w => !w.1).flatMap (·.2))
    let sorted := lines.mergeSort before
    let sorted := if has 'r' then sorted.reverse else sorted
    let sorted := if has 'u' then (counted sorted).map (·.1) else sorted
    if text.code = 0 ∧ text.ends then { text with writes := [(false, unlines sorted)] }
    else { text with writes := text.writes.filter (·.1), code := 2 }

/-- Whether a place is among the places of a list with ranges. -/
def isListed (list : String) (place : Nat) : Bool :=
  (Text.fields ',' list).any fun item =>
    match Text.fields '-' item with
    | [only] => Text.number? 10 only.toList == some place
    | [low, high] =>
      ((Text.number? 10 low.toList).getD 1 ≤ place) &&
        (place ≤ (Text.number? 10 high.toList).getD place)
    | _ => false

/-- Parts of each line. -/
def cut : Program := fun name arguments read =>
  let choices : Choices :=
    { flags := "s", valued := "bcdf"
      names := [("bytes", 'b'), ("characters", 'c'), ("delimiter", 'd'), ("fields", 'f'),
        ("only-delimited", 's')] }
  withOptions name choices arguments fun options files =>
    let delimiter := (((options.lookup 'd').bind fun d => d.toList.head?)).getD '\t'
    let listed (list : String) (parts : List (List Char)) : List (List Char) :=
      (parts.zipIdx.filter fun (_, i) => isListed list (i + 1)).map (·.1)
    whole name files read fun cs =>
      unlines ((bareLines cs).map fun line =>
        match options.lookup 'f', (options.lookup 'c') <|> (options.lookup 'b') with
        | some list, _ =>
          if line.contains delimiter then
            [delimiter].intercalate (listed list (line.splitOn delimiter))
          else line
        | none, some list => (listed list (line.map fun c => [c])).flatten
        | none, none => line)

def rev : Program := fun name files read => whole name files read fun cs =>
  unlines ((bareLines cs).map List.reverse)

def tac : Program := fun name files read => whole name files read fun cs =>
  (linesOf cs).reverse.flatten

/-! ## Names -/

/-- The last name in a path, without an ending of its own. -/
def basename : Program := fun name arguments _ =>
  match arguments with
  | [] => missingOperand name
  | path :: rest =>
    let cs := Text.dropEndWhile (· == '/') path.toList
    let last := if cs.isEmpty then path.toList.take 1 else (cs.splitOn '/').getLast?.getD []
    let ending := (rest.head?.getD "").toList
    .print ((if ending.isSuffixOf last ∧ last ≠ ending then
        last.take (last.length - ending.length) else last) ++ ['\n'])

/-- The path without its last name. -/
def dirname : Program := fun name arguments _ =>
  if arguments.isEmpty then missingOperand name
  else
    .print (unlines (arguments.map fun path =>
      let cs := Text.dropEndWhile (· == '/') path.toList
      if cs.isEmpty ∧ ¬path.isEmpty then ['/']
      else if ¬cs.contains '/' then ['.']
      else
        let above := Text.dropEndWhile (· == '/') (Text.dropEndWhile (· != '/') cs)
        if above.isEmpty then ['/'] else above))

/-! ## Waiting and testing -/

/-- The microseconds of an interval with a unit. It may have no end. -/
def interval? (text : String) : Option (Option Nat) :=
  match Floating.leading? text.toList with
  | some r =>
    let seconds? : Option Nat := match r.rest with
      | [] => some 1
      | ['s'] => some 1
      | ['m'] => some 60
      | ['h'] => some 3600
      | ['d'] => some 86400
      | _ => none
    match seconds?, r.value with
    | some seconds, ⟨negative, .finite length⟩ =>
      if negative ∧ length.numerator ≠ 0 then none
      else some (some (length.scale (seconds * 1000000) 1).round)
    | some _, ⟨false, .infinite⟩ => some none
    | _, _ => none
  | none => none

/-- Waits for all of the times together. -/
def sleep : Program := fun name arguments _ =>
  withOptions name ⟨"", "", []⟩ arguments fun _ intervals =>
    if arguments.isEmpty then missingOperand name
    else
      match intervals.filter fun a => (interval? a).isNone with
      | [] =>
        let times := intervals.filterMap interval?
        { Effect.exit 0 with
          delay := (times.map (·.getD 0)).foldr (· + ·) 0, ends := times.all Option.isSome }
      | wrong =>
        .fail 1 (wrong.map (fun a => name ++ ": invalid time interval '" ++ a ++ "'") ++
          [hint name])

/-- Succeeds if a condition holds. -/
def ofCondition (name : String) (result : Except Condition.Fault Bool) : Effect :=
  match result with
  | .ok true => .exit 0
  | .ok false => .exit 1
  | .error fault => .fail 2 [name ++ ": " ++ fault.message]

def isDevice (path : String) : Bool := ["/dev/full", "/dev/null", "/dev/zero"].contains path

/-- What `test` says of a file, as far as it can be told from reading it. -/
def fileTest (read : Reader) (operator file : String) : Bool :=
  match operator, read file with
  | "-d", .error .isADirectory => true
  | "-e", .error .isADirectory => true
  | "-r", .error .isADirectory => true
  | "-w", .error .isADirectory => true
  | "-x", .error .isADirectory => true
  | "-s", .error .isADirectory => true
  | "-s", .ok feed => !feed.text.isEmpty
  | "-c", .ok _ => isDevice file
  | "-f", .ok _ => !isDevice file
  | "-e", .ok _ => true
  | "-r", .ok _ => true
  | "-w", .ok _ => true
  | "-x", .ok _ => file.startsWith "/bin/" || file.startsWith "/usr/bin/"
  | _, _ => false

/-! ## Programs by their names -/

def named? (name : String) : Option Program :=
  match name with
  | "true" => some fun _ _ _ => .exit 0
  | "false" => some fun _ _ _ => .exit 1
  | "echo" => some echo
  | "printf" => some printf
  | "test" => some fun name ws read => ofCondition name (Condition.evaluate (fileTest read) ws)
  | "[" => some fun name ws read =>
    ofCondition name (Condition.evaluateBracket (fileTest read) ws)
  | "cat" => some cat
  | "head" => some head
  | "tail" => some tail
  | "wc" => some wc
  | "tr" => some tr
  | "sort" => some sort
  | "uniq" => some uniq
  | "cut" => some cut
  | "rev" => some rev
  | "tac" => some tac
  | "seq" => some seq
  | "yes" => some yes
  | "basename" => some basename
  | "dirname" => some dirname
  | "sleep" => some sleep
  | _ => none

end Program

end MavenPom.Shell
