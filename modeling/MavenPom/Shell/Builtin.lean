import MavenPom.Shell.JobControl
import MavenPom.Shell.Mode
import MavenPom.Shell.Octets

/-!
# Commands of the shell

What the commands do that are part of the shell and run nothing else.
-/

/-!
## Listings of names

Names of aliases and programs are kept in a number of buckets, by a sum of their bytes. A listing
goes through the buckets, and through each of them in the order in which its names came.
-/

namespace MavenPom.Shell.Listing

/-- The bucket of a name: its first byte 16 times and each byte once, modulo their number. -/
def bucket (count : Nat) (name : String) : Nat :=
  let bytes := name.toList.map Char.toNat
  (bytes.foldl (· + ·) (16 * bytes.head?.getD 0)) % count

/-- Names in the order of their buckets. Those of one bucket stay in their order. -/
def ordered {α : Type} (count : Nat) (name : α → String) (entries : List α) : List α :=
  entries.mergeSort fun a b => bucket count (name a) ≤ bucket count (name b)

/-- The number of buckets for aliases. -/
def aliasBuckets : Nat := 39

/-- The number of buckets for programs. -/
def programBuckets : Nat := 31

end MavenPom.Shell.Listing

namespace MavenPom.Shell

namespace Builtin

/-! ## Leaving -/

/-- Ends the script. What is run for a signal or at the end leaves the status as it was before. -/
def exit : Builtin
  | [] => do
    (← get).saved.forM setStatus
    throw .exit
  | a :: _ => do
    setStatus (← number a)
    throw .exit

def leaveFunction : Builtin
  | [] => throw (.return false)
  | a :: _ => do
    setStatus (← number a)
    throw (.return true)

/-- Leaves or continues loops. Where there are none, nothing happens. -/
def leaveLoops (continued : Bool) : Builtin := fun arguments => do
  let argument := arguments.head?.getD "1"
  let n ← number argument
  if n = 0 then abort (illegalNumber argument)
  else do
    let s ← get
    setStatus 0
    if 0 < s.loops then throw (.leave (min n s.loops) continued)

/-! ## Parameters and options -/

/-- Changes the parameters, whose options are then read from the first one on. -/
def setParameters (parameters : List String) : Running Unit :=
  modify fun s => { s with parameters, index := 1, place := 0 }

def shift : Builtin := fun arguments => do
  let n ← match arguments with
    | [] => pure 1
    | a :: _ => number a
  let s ← get
  if s.parameters.length < n then abort "can't shift that many"
  else do
    setParameters (s.parameters.drop n)
    setStatus 0

/-- The names of options with their letters. The last two cannot be given by letters. -/
def optionNames : List (String × Char) :=
  [("errexit", 'e'), ("noglob", 'f'), ("ignoreeof", 'I'), ("interactive", 'i'), ("monitor", 'm'),
    ("noexec", 'n'), ("stdin", 's'), ("xtrace", 'x'), ("verbose", 'v'), ("vi", 'V'), ("emacs", 'E'),
    ("noclobber", 'C'), ("allexport", 'a'), ("notify", 'b'), ("nounset", 'u'), ("privileged", 'p'),
    ("nolog", 'L'), ("debug", 'D')]

/-- A step that changes the letters of options. Those before an illegal one stay changed. -/
abbrev Switching (α : Type) := Action (List Char) String α

/-- Sets or unsets the option of a letter. -/
def switch (on : Bool) (letter : Char) : Switching Unit :=
  modify fun letters =>
    let others := letters.filter (· != letter)
    if on then letter :: others else others

/-- How the options are set, or what would set them so. -/
def optionLines (on : Bool) (letters : List Char) : List Char :=
  let lines := optionNames.map fun (name, letter) =>
    if on then
      name.toList ++ List.replicate (16 - name.length) ' ' ++
        (if letters.contains letter then "on" else "off").toList
    else
      (if letters.contains letter then "set -o " else "set +o ").toList ++ name.toList
  Program.unlines (if on then "Current option settings".toList :: lines else lines)

/-- Sets options by some letters, of which one takes its option from the next argument. Gives the
    arguments that are left, and the listings of options that are asked for. On a command line all
    options are listed as set. -/
def switchAll (commandLine on : Bool) :
    List Char → List String → Switching (List String × List Char)
  | [], rest => return (rest, [])
  | 'o' :: cs, rest =>
    match rest with
    | [] => do
      let letters ← get
      let listing := optionLines on (if commandLine then optionNames.map (·.2) else letters)
      let (rest, more) ← switchAll commandLine on cs []
      return (rest, listing ++ more)
    | name :: rest =>
      match optionNames.lookup name with
      | some letter => do
        switch on letter
        switchAll commandLine on cs rest
      | none => throw ("Illegal option -o " ++ name)
  | c :: cs, rest =>
    if Session.optionLetters.contains c ∨ (commandLine ∧ (c = 'c' ∨ c = 'l')) then do
      switch on c
      switchAll commandLine on cs rest
    else throw ("Illegal option -" ++ c.toString)

/-- What is left of arguments after those that set options. -/
structure Switched where
  rest : List String
  /-- Whether the arguments that are left are marked as such. -/
  marked : Bool
  listing : List Char

/-- Sets options by no more than a number of arguments. -/
def switches (commandLine : Bool) : Nat → List String → Switching Switched
  | 0, rest => return ⟨rest, false, []⟩
  | _, [] => return ⟨[], false, []⟩
  | n + 1, a :: rest =>
    match a.toList with
    | ['-', '-'] => return ⟨rest, true, []⟩
    | ['-'] => do
      switch false 'x'
      switch false 'v'
      return ⟨rest, false, []⟩
    | '-' :: cs => further n true cs rest
    | '+' :: cs => further n false cs rest
    | _ => return ⟨a :: rest, false, []⟩
where
  further (n : Nat) (on : Bool) (cs : List Char) (rest : List String) : Switching Switched := do
    let (rest, listing) ← switchAll commandLine on cs rest
    let more ← switches commandLine n rest
    return { more with listing := listing ++ more.listing }

/-- The lines that would assign the values of variables again. -/
def assignments (start : String) (bindings : List (String × Binding)) : List Char :=
  let sorted := bindings.mergeSort fun a b => a.1 ≤ b.1
  Program.unlines (sorted.filterMap fun (name, binding) =>
    match binding.value with
    | some value => some ((start ++ name ++ "=").toList ++ quote value.toList)
    | none => if start.isEmpty then none else some (start ++ name).toList)

def setOptions : Builtin := fun arguments => do
  let s ← get
  if arguments.isEmpty then printOut (assignments "" s.bindings.entries)
  else
    let action := switches false (arguments.length + 1) arguments
    let (result, options) := StateT.run (ExceptT.run action) s.options
    set { s with options }
    match result with
    | .error problem => abort problem
    | .ok switched => do
      if switched.marked ∨ ¬switched.rest.isEmpty then setParameters switched.rest
      printOut switched.listing

/-! ## Variables -/

/-- The name in an argument, and the value after an equals sign if there is one. -/
def nameAndValue (argument : String) : String × Option String :=
  match Text.splitOnce? '=' argument with
  | some (name, value) => (name, some value)
  | none => (argument, none)

/-- Marks variables, and gives them values. -/
def declare (start : String) (isMarked : Binding → Bool) (mark : Binding → Binding) : Builtin :=
  fun arguments => withOptions "p" arguments fun letters rest => do
    if letters.contains 'p' ∨ rest.isEmpty then
      printOut (assignments start ((← get).bindings.entries.filter fun b => isMarked b.2))
    else do
      rest.forM fun argument => do
        let (name, value) := nameAndValue argument
        if ¬isVariable name then abort (name ++ ": bad variable name")
        else do
          value.forM (assign name)
          rebind name mark
      setStatus 0

def exportAll : Builtin :=
  declare "export " (·.exported) fun binding => { binding with exported := true }

def fixAll : Builtin :=
  declare "readonly " (·.fixed) fun binding => { binding with fixed := true }

/-- Lets variables have values of their own until the innermost frame ends. -/
def declareLocal : Builtin := fun arguments => do
  if (← get).frames.isEmpty then abort "not in a function"
  else do
    arguments.forM fun argument => do
      match nameAndValue argument with
      | (name, some value) => assignWithin name value
      | (name, none) =>
        if name = "-" then keepOptions
        else if ¬isVariable name then abort (name ++ ": bad variable name")
        else keep name ((← get).bindings.get? name)
    setStatus 0

/-- Takes the value of a variable, if it may be without one. -/
def unsetVariable (name : String) : Running Unit := do
  if ¬isVariable name then abort (name ++ ": bad variable name")
  else if isFixed (← get) name then abort (name ++ ": is read only")
  else do
    adapt name ""
    unbind name

def unset : Builtin := fun arguments => withOptions "vf" arguments fun letters names => do
  names.forM fun name => do
    if letters.contains 'f' then
      modify fun s => { s with functions := s.functions.erase name }
    else unsetVariable name
  setStatus 0

/-! ## Aliases -/

/-- What would define an alias. -/
def aliasText (name text : String) : List Char := name.toList ++ '=' :: quote text.toList

/-- Defines aliases, or shows those that are named. -/
def aliases : Builtin := fun arguments => do
  setStatus 0
  if arguments.isEmpty then
    let entries := Listing.ordered Listing.aliasBuckets Prod.fst (← get).aliases.entries
    printOut (Program.unlines (entries.map fun (name, text) => aliasText name text))
  else arguments.forM fun argument => do
    let s ← get
    match argument.toList with
    | [] => missing argument
    | c :: cs =>
      match Text.splitOnce? '=' (String.ofList cs) with
      | some (name, text) =>
        set { s with aliases := s.aliases.insert (c.toString ++ name) text }
      | none =>
        match s.aliases.get? argument with
        | some text => do
          printMore (aliasText argument text ++ ['\n'])
        | none => missing argument
where
  missing (name : String) : Running Unit := do
    writeError ("alias: " ++ name ++ " not found")
    setStatus 1

/-- Forgets aliases. -/
def unalias : Builtin := fun arguments => withOptions "a" arguments fun letters names => do
  setStatus 0
  if letters.contains 'a' then modify fun s => { s with aliases := Table.empty }
  else names.forM fun name => do
    let s ← get
    if (s.aliases.get? name).isSome then set { s with aliases := s.aliases.erase name }
    else do
      writeError ("unalias: " ++ name ++ " not found")
      setStatus 1

/-! ## Reading lines -/

/-- A character that has been read, and whether it can be a separator. -/
abbrev Read := Char × Bool

/-- The line that a text begins with, whether it ends with a line break, and what follows it. A
    backslash quotes unless the line is taken as it is. One may have come just before. -/
def readLine (raw quoted : Bool) : List Char → List Read × Bool × List Char
  | [] => ([], false, [])
  | c :: rest =>
    if c = '\x00' then readLine raw quoted rest
    else if c = '\n' ∧ ¬quoted then ([], true, rest)
    else if c = '\\' ∧ ¬raw ∧ ¬quoted then readLine raw true rest
    else
      let (line, ended, left) := readLine raw false rest
      ((c, !quoted) :: line, ended, left)

/-- Whether it is a line break that has been quoted, which is no part of any value. -/
def isJoint (r : Read) : Bool := !r.2 && r.1 == '\n'

def isSeparator (separators : List Char) (r : Read) : Bool := r.2 && separators.contains r.1

def isBlankSeparator (separators : List Char) (r : Read) : Bool :=
  isSeparator separators r && " \t\n".toList.contains r.1

/-- Where the last value ends before its line does, given where it would if there were no more of
    the line, and whether only blank separators have come since its first one. Characters that are
    quoted do not keep it from ending before them. -/
def lastEnd (separators : List Char) : List Read → Nat → Option Nat → Bool → Option Nat
  | [], _, found, _ => found
  | r :: rest, n, found, blank =>
    if ¬r.2 then lastEnd separators rest (n + 1) found false
    else if isBlankSeparator separators r then
      lastEnd separators rest (n + 1) (found <|> some n) blank
    else
      let found := if isSeparator separators r ∧ blank then found else none
      lastEnd separators rest (n + 1) found false

/-- The last of the values that a line is split into. A separator at its end belongs to it only if
    there are others in it. -/
def lastValue (separators : List Char) (rs : List Read) : List Read :=
  let n := (rs.takeWhile fun r => !isSeparator separators r).length
  match rs.drop n with
  | [] => rs
  | r :: rest =>
    match lastEnd separators rest (n + 1) (some n) (isBlankSeparator separators r) with
    | some size => rs.take size
    | none => rs

/-- The values that a line is split into for a number of names. -/
def splitLine (separators : List Char) : Nat → List Read → List (List Read)
  | 0, _ => []
  | n + 1, rs =>
    let rs := rs.dropWhile fun r => isBlankSeparator separators r || isJoint r
    if n = 0 then [lastValue separators rs]
    else
      let value := rs.takeWhile fun r => !isSeparator separators r
      let rest := (rs.drop value.length).dropWhile (isBlankSeparator separators)
      let rest := match rest with
        | r :: more => if isSeparator separators r then more else rest
        | [] => []
      value :: splitLine separators n rest

/-- Takes a line of the input as the values of variables. -/
def read : Builtin := fun arguments =>
  let arguments := match arguments with
    | "-p" :: _ :: rest => rest
    | _ => arguments
  withOptions "r" arguments fun letters names => do
    match names.find? fun name => !isVariable name with
    | some name => abort (name ++ ": bad variable name")
    | none =>
      if names.isEmpty then abort "arg count"
      else do
        let s ← get
        let feed := s.feed (s.streams.get? 0)
        let (line, ended, left) := readLine (letters.contains 'r') false feed.text
        if ¬ended ∧ ¬feed.ends then throw .endless
        leaveUnread 0 ⟨left, feed.ends⟩
        let values := splitLine s.separators names.length line
        (names.zip values).forM fun (name, value) =>
          assign name (String.ofList ((value.filter (!isJoint ·)).map (·.1)))
        setStatus (if ended then 0 else 1)

/-! ## Options of scripts -/

/-- What an argument at a place says to do, given the letters that are options. -/
structure OptionRead where
  found : String
  value : Option String
  complaint : Option String
  /-- The number of the next argument. -/
  index : Nat
  place : Nat
  ended : Bool

/-- What follows a letter among those that are options, each perhaps with a colon after it. -/
def afterLetter? (c : Char) : List Char → Option (List Char)
  | [] => none
  | d :: ':' :: rest => if d = c then some (':' :: rest) else afterLetter? c rest
  | d :: rest => if d = c then some rest else afterLetter? c rest

/-- The next option among arguments. -/
def nextOption (letters : List Char) (arguments : List String) (index place : Nat) : OptionRead :=
  let current := (arguments[index - 2]?).getD ""
  let rest := if place = 0 ∨ index < 2 then [] else current.toList.drop place
  if ¬rest.isEmpty then option index rest
  else
    match (arguments[index - 1]?).map String.toList with
    | some ['-', '-'] => ⟨"?", none, none, index + 1, 0, true⟩
    | some ('-' :: c :: cs) => option (index + 1) (c :: cs)
    | _ => ⟨"?", none, none, index, 0, true⟩
where
  /-- The option that a text begins with in the argument before one. -/
  option (index : Nat) : List Char → OptionRead
    | [] => ⟨"?", none, none, index, 0, true⟩
    | c :: rest =>
      let size := ((arguments[index - 2]?).getD "").toList.length
      let place := if rest.isEmpty then 0 else size - rest.length
      let quiet := letters.head? = some ':'
      match afterLetter? c letters with
      | some (':' :: _) =>
        if ¬rest.isEmpty then ⟨c.toString, some (String.ofList rest), none, index, 0, false⟩
        else
          match arguments[index - 1]? with
          | some value => ⟨c.toString, some value, none, index + 1, 0, false⟩
          | none =>
            if quiet then ⟨":", some c.toString, none, index, 0, false⟩
            else ⟨"?", none, some ("No arg for -" ++ c.toString ++ " option"), index, 0, false⟩
      | some _ => ⟨c.toString, some "", none, index, place, false⟩
      | none => unknown c index place quiet
  unknown (c : Char) (index place : Nat) (quiet : Bool) : OptionRead :=
    if quiet then ⟨"?", some c.toString, none, index, place, false⟩
    else ⟨"?", none, some ("Illegal option -" ++ c.toString), index, place, false⟩

def getopts : Builtin
  | letters :: name :: arguments => do
    let s ← get
    let arguments := if arguments.isEmpty then s.parameters else arguments
    let r := nextOption letters.toList arguments s.index s.place
    r.complaint.forM writeError
    if ¬r.ended then
      match r.value with
      | some value => assign "OPTARG" value
      | none => unsetVariable "OPTARG"
    bind "OPTIND" (toString r.index)
    if ¬isVariable name then abort (name ++ ": bad variable name")
    assign name r.found
    modify fun s => { s with index := r.index, place := r.place }
    setStatus (if r.ended then 1 else 0)
  | _ => abort "Usage: getopts optstring var [arg...]"

/-! ## Directories -/

/-- Whether a path says itself where it begins. -/
def isAnchored (path : String) : Bool :=
  path.startsWith "/" ||
    (Text.fields '/' path).head?.any fun segment => segment == "." || segment == ".."

/-- The path to a directory, by which the place of it may be found in `CDPATH`, and whether it is
    to be shown. -/
def directoryPath (s : Session) (path : String) : String × Bool :=
  let path := if path.isEmpty then "." else path
  let places := if isAnchored path then [] else
    ((s.stored? "CDPATH").map (Text.fields ':')).getD []
  let candidates := places.map fun place =>
    (if place.isEmpty then path else place ++ "/" ++ path, !place.isEmpty)
  (candidates.find? fun c => s.tree.isDirectory c.1).getD (path, false)

def changeDirectory : Builtin := fun arguments => withOptions "LP" arguments fun letters rest => do
  let s ← get
  let back := rest.head? = some "-"
  let path := match rest with
    | [] => (s.stored? "HOME").getD ""
    | a :: _ => if back then (s.stored? "OLDPWD").getD "" else a
  let (target, shown) := directoryPath s path
  let found := if letters.getLast? = some 'P' then (s.tree.locate target).toOption
    else some (Location.descend (if target.startsWith "/" then [] else s.directory) target)
  match found.filter s.files.isDirectoryAt with
  | none => abort ("can't cd to " ++ path)
  | some l => do
    assign "OLDPWD" s.directory.path
    markExported "OLDPWD"
    modify fun s => { s with directory := l }
    assign "PWD" l.path
    markExported "PWD"
    setStatus 0
    if back ∨ shown then printOut (Effect.line l.path)

def printDirectory : Builtin := fun arguments => withOptions "LP" arguments fun _ _ => do
  printOut (Effect.line (← get).directory.path)

/-! ## Permissions and limits -/

def umask : Builtin := fun arguments => withOptions "S" arguments fun letters rest => do
  let s ← get
  match rest with
  | [] =>
    printOut (Effect.line (if letters.isEmpty then Mode.octal s.mask else Mode.symbolic s.mask))
  | text :: _ =>
    match Mode.parse s.mask text with
    | .ok mask => set { s with mask, status := 0 }
    | .error fault => abort (fault.message text)

/-- The bound of a limit that letters of options ask for. -/
def boundOf (letters : List Char) : Limit.Bound :=
  match (letters.filter fun c => c == 'H' || c == 'S').getLast? with
  | some 'H' => .hard
  | some _ => .soft
  | none => .both

def limitOf (s : Session) (r : Resource) : Limit :=
  (s.limits.get? r.letter).getD (Limit.standard r)

/-- Shows limits or sets one of them. Without a letter for what is limited, it is that of files. -/
def ulimit : Builtin := fun arguments =>
  withOptions ("HSa" ++ Limit.letters) arguments fun letters rest => do
    let s ← get
    let bound := boundOf letters
    let all := letters.contains 'a'
    let letter := (letters.filter Limit.letters.toList.contains).getLast?.getD 'f'
    match Limit.resources.find? (·.letter = letter), rest with
    | none, _ => setStatus 1
    | some r, [] =>
      if all then
        printOut (Program.unlines (Limit.resources.map fun r =>
          r.name.toList ++ List.replicate (20 - r.name.length) ' ' ++
            ' ' :: (Limit.print r ((limitOf s r).get bound)).toList))
      else printOut (Effect.line (Limit.print r ((limitOf s r).get bound)))
    | some r, [text] =>
      if all then abort "too many arguments"
      match Limit.read? r text with
      | none => abort "bad number"
      | some value =>
        let limit := (limitOf s r).set value bound
        if limit.isSound then set { s with limits := s.limits.insert letter limit, status := 0 }
        else abort "error setting limit (Invalid argument)"
    | some _, _ => abort "too many arguments"

/-! ## Printing and testing -/

def printf : Builtin := fun arguments => withOptions "" arguments fun _ rest => do
  match rest with
  | [] => abort "usage: printf format [arg ...]"
  | format :: arguments => do
    let p := Format.print format arguments
    p.problems.forM complain
    match p.course with
    | .refused problem => do
      complain problem
      printOut p.output
      setStatus 2
    | _ => do
      printOut p.output
      if ¬p.problems.isEmpty then setStatus 1

def echo : Builtin := fun arguments =>
  printOut ((Program.echoEscaped arguments).writes.flatMap (·.2))

def condition (evaluate : (String → String → Bool) → List String → Except Condition.Fault Bool) :
    Builtin := fun arguments => do
  match evaluate (Program.fileTest (← get).reader) arguments with
  | .ok holds => setStatus (if holds then 0 else 1)
  | .error fault => abort fault.message

/-! ## By their names -/

/-- The special commands that run nothing else. -/
def special? (name : String) : Option Builtin :=
  match name with
  | ":" => some fun _ => setStatus 0
  | "break" => some (leaveLoops false)
  | "continue" => some (leaveLoops true)
  | "exit" => some exit
  | "export" => some exportAll
  | "local" => some declareLocal
  | "readonly" => some fixAll
  | "return" => some leaveFunction
  | "set" => some setOptions
  | "shift" => some shift
  | "times" => some fun _ => printOut (Effect.line "0m0.00s 0m0.00s\n0m0.00s 0m0.00s")
  | "trap" => some trap
  | "unset" => some unset
  | _ => none

/-- The other commands that run nothing else. -/
def regular? (name : String) : Option Builtin :=
  match name with
  | "true" => some fun _ => setStatus 0
  | "false" => some fun _ => setStatus 1
  | "echo" => some echo
  | "printf" => some printf
  | "test" => some (condition Condition.evaluate)
  | "[" => some (condition Condition.evaluateBracket)
  | "cd" => some changeDirectory
  | "chdir" => some changeDirectory
  | "pwd" => some printDirectory
  | "read" => some read
  | "getopts" => some getopts
  | "umask" => some umask
  | "kill" => some kill
  | "wait" => some wait
  | "ulimit" => some ulimit
  | "alias" => some aliases
  | "unalias" => some unalias
  | "jobs" => some jobs
  | "fg" => some resume
  | "bg" => some resume
  | _ => none

/-- The commands of the shell that run others or look for them. -/
def running : List String := [".", "eval", "exec", "command", "type", "hash"]

def isSpecial (name : String) : Bool :=
  (special? name).isSome || [".", "eval", "exec"].contains name

def isBuiltin (name : String) : Bool :=
  (special? name).isSome || (regular? name).isSome || running.contains name

end Builtin

end MavenPom.Shell
