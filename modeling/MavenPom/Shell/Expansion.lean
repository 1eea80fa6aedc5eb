import MavenPom.Shell.Cut
import MavenPom.Shell.Session

/-!
# Expansion

How the words of a command become its arguments: values and what scripts write are put in, what was
not quoted is split at separators, and patterns are replaced by the names of files.
-/

namespace MavenPom.Shell

/-- A piece of a word in which values have been put in. -/
inductive Piece where
  /-- A character, at which a word may be split or not. -/
  | glyph (g : Glyph) (splits : Bool)
  /-- One of several values ends here before another one. -/
  | gap
  /-- There is an argument, even if it is empty. -/
  | mark
  /-- A value begins here, or several ones that are apart: they are split at gaps only. -/
  | region (apart : Bool)
  /-- Values that are apart have been here, which counts if there was no region before. -/
  | remnant
  deriving DecidableEq, Repr

/-- Where parts of a word stand. -/
structure Place where
  quoted : Bool
  /-- Whether the word is split. -/
  splits : Bool
  /-- Whether the parts are the word in an expansion, whose own text is split as well. -/
  nested : Bool
  /-- Whether it is a value that is assigned, with a tilde after any colon. -/
  assigned : Bool
  deriving DecidableEq, Repr

namespace Place

/-- Text from the script in a place. -/
def own (p : Place) (quoted : Bool) (cs : List Char) : List Piece :=
  let splits := p.nested && p.splits && !p.quoted && !quoted
  let text := cs.map fun c => Piece.glyph ⟨c, p.quoted || quoted⟩ splits
  if splits && !cs.isEmpty then .region false :: text else text

/-- The place within double quotes. -/
def inQuotes (p : Place) : Place := ⟨true, p.splits, false, false⟩

/-- Where something becomes one text in quotes. -/
def whole : Place := ⟨true, false, false, false⟩

/-- Where something becomes one text. -/
def single : Place := ⟨false, false, false, false⟩

/-- Text of a value in a place. -/
def put (p : Place) (cs : List Char) : List Piece :=
  cs.map fun c => .glyph ⟨c, p.quoted⟩ (p.splits && !p.quoted)

/-- A value in a place as a region, in which there may be several values that are apart. -/
def region (p : Place) (apart : Bool) (pieces : List Piece) : List Piece :=
  if p.quoted then if apart then .region true :: pieces else pieces else .region false :: pieces

end Place

/-- The text of pieces. -/
def charsOf (pieces : List Piece) : List Char :=
  pieces.filterMap fun piece => match piece with
    | .glyph g _ => some g.char
    | _ => none

def glyphsOf (pieces : List Piece) : List Glyph :=
  pieces.filterMap fun piece => match piece with
    | .glyph g _ => some g
    | _ => none

/-! ## Values -/

/-- Several values in a place. If they are quoted, only those for `@` have gaps between them. -/
def putAll (s : Session) (p : Place) (apart : Bool) (values : List String) : List Piece :=
  let texts := values.map String.toList
  let first := match s.stored? "IFS" with
    | none => [' ']
    | some separators => separators.toList.take 1
  if p.splits && (if p.quoted then apart else (s.stored? "IFS").isSome) then
    [Piece.gap].intercalate (texts.map p.put)
  else p.put (first.intercalate texts)

/-- What a name stands for in a place, if it stands for anything. That for all parameters always
    does. -/
def valueIn (s : Session) (p : Place) (name : String) : Option (List Piece) :=
  if name = "@" ∨ name = "*" then some (putAll s p (name == "@") s.parameters)
  else (s.value? name).map fun value => p.put value.toList

/-- What is left of pieces when something is cut off their text, in which gaps are zeros. -/
def cutPieces (quoted atFront : Bool) (cut : Cut.Values → List Char) (pieces : List Piece) :
    List Piece :=
  let text := pieces.map fun piece => match piece with
    | .glyph g _ => g.char
    | _ => '\x00'
  let size := (cut ⟨text, quoted⟩).length
  if atFront then pieces.drop (pieces.length - size) else pieces.take size

/-- Refuses a name that stands for nothing where this has been asked for. -/
def requireValue (name : String) (value : Option (List Piece)) : Running Unit := do
  if value.isNone ∧ (← get).hasOption 'u' then abort (name ++ ": parameter not set")

/-- What a script writes, and its status for the command that it is put into. A signal that comes
    meanwhile may end the process. -/
def output (run : Script → Running Unit) (script : Script) : Running (List Char) := do
  let id ← newSink
  makeRoom
  let (outcome, clock) ← fork
    (fun p => { p.inner with streams := p.streams.insert 1 (.sink id) }) (run script)
  let text ← takeSink id
  if outcome = .endless then throw .endless
  modify fun s => { s with clock := max s.clock clock, written := some outcome.status }
  let s ← get
  (s.arrived.1.filter fun sending => (s.trap? sending.signal).isNone).forM suffer
  return Text.dropEndWhile (· == '\n') (text.filter (· != '\x00'))

/-- What an expression comes to. What it assigns is assigned, also where it fails after that. -/
def calculate (expression : List Char) : Running (List Char) := do
  let s ← get
  let (result, assigned) := Arithmetic.evaluate (fun name => (s.value? name).getD "") expression
  assigned.forM fun (name, n) => assign name (toString n)
  match result with
  | .error fault => abort (fault.message (String.ofList expression))
  | .ok n => return (toString n).toList

/-! ## Home directories -/

/-- The home directories of users. -/
def userHomes : List (String × String) :=
  [("root", "/root"), ("daemon", "/usr/sbin"), ("bin", "/bin"), ("sys", "/dev"), ("sync", "/bin"),
    ("games", "/usr/games"), ("man", "/var/cache/man"), ("lp", "/var/spool/lpd"),
    ("mail", "/var/mail"), ("news", "/var/spool/news"), ("uucp", "/var/spool/uucp"),
    ("proxy", "/bin"), ("www-data", "/var/www"), ("backup", "/var/backups"), ("list", "/var/list"),
    ("irc", "/run/ircd"), ("_apt", "/nonexistent"), ("nobody", "/nonexistent")]

/-- The home directory for a tilde that a text begins with and for the name of a user after it, and
    what is left. The name goes up to a slash or to the end of the text, if the word ends there. -/
def home? (s : Session) (isEnd : Bool) : List Char → Option (List Char × List Char)
  | '~' :: cs =>
    let user := cs.takeWhile (· != '/')
    let rest := cs.drop user.length
    if rest.isEmpty ∧ ¬isEnd then none
    else
      let home := if user.isEmpty then s.stored? "HOME"
        else (userHomes.find? (·.1 = String.ofList user)).map (·.2)
      home.map fun home => (home.toList, rest)
  | _ => none

/-- Text from the script in a place, with home directories. It may be the first part of a word and
    the last one. -/
def withHomes (s : Session) (p : Place) (isFirst isLast : Bool) (cs : List Char) : List Piece :=
  if ¬cs.contains '~' then p.own false cs
  else
    let segments := if p.assigned then cs.splitOn ':' else [cs]
    let found := segments.zipIdx.map fun (segment, i) =>
      match if isFirst || 0 < i then home? s (isLast || i + 1 < segments.length) segment
        else none with
      | some (home, rest) => p.own true home ++ p.own false rest
      | none => p.own false segment
    (found.intersperse (p.own false [':'])).flatten

/-! ## Parts -/

mutual

/-- The pieces of a part of a word, which may be its first and its last one. -/
def expandPart (run : Script → Running Unit) (p : Place) (isFirst isLast : Bool) :
    Part → Running (List Piece)
  | .bare cs => return withHomes (← get) p isFirst isLast cs
  | .exact cs => return .mark :: p.own true cs
  | .quoted parts => do
    let inside ← expandParts run p.inQuotes true parts
    match parts with
    | [.value "@" .plain []] => return inside
    | _ => return .mark :: inside ++ [.mark]
  | .written script => return p.region false (p.put (← output run script))
  | .number parts => do
    let expression := charsOf (← expandParts run .whole true parts)
    return p.region false (p.put (← calculate expression))
  | .value name change word => do
    let s ← get
    let value := valueIn s p name
    let region (pieces : List Piece) : List Piece :=
      p.region (name = "@" && !s.parameters.isEmpty) pieces
    let given : List Piece := (value.map region).getD []
    let asWhole := valueIn s .whole name
    let isMissing (value : Option (List Piece)) (orEmpty : Bool) : Bool :=
      match value with
      | none => true
      | some pieces => orEmpty && pieces.isEmpty
    let inner : Place := { p with nested := true }
    match change with
    | .plain => do
      requireValue name value
      return given
    | .malformed => abort "Bad substitution"
    | .length => do
      requireValue name value
      let text := charsOf (asWhole.getD [])
      return region (p.put (toString text.length).toList)
    | .instead orEmpty =>
      if isMissing value orEmpty then expandParts run inner true word else return given
    | .alternative orEmpty =>
      if isMissing asWhole orEmpty then return region [] else expandParts run inner true word
    | .require orEmpty =>
      if ¬isMissing value orEmpty then return given
      else do
        let message := charsOf (← expandParts run .single true word)
        let standard := if orEmpty then "parameter not set or null" else "parameter not set"
        abort (name ++ ": " ++ if word.isEmpty then standard else String.ofList message)
    | .assign orEmpty =>
      if ¬isMissing value orEmpty then return given
      else do
        let pieces ← expandParts run .single true word
        let text := charsOf pieces
        if isName name.toList then do
          assign name (String.ofList text)
          let left := if pieces.head? = some (.region true) then [.remnant] else []
          return left ++ region (p.put text)
        else abort (name ++ ": bad variable name")
    | .cutFront longest =>
      match value with
      | none => do
        requireValue name value
        return []
      | some pieces => do
        let pattern := glyphsOf (← expandParts run .single true word)
        return region (cutPieces p.quoted true (Cut.atFront longest pattern) pieces)
    | .cutBack longest =>
      match value with
      | none => do
        requireValue name value
        return []
      | some pieces => do
        let pattern := glyphsOf (← expandParts run .single true word)
        return region (cutPieces p.quoted false (Cut.atBack longest pattern) pieces)

def expandParts (run : Script → Running Unit) (p : Place) (isFirst : Bool) :
    List Part → Running (List Piece)
  | [] => return []
  | part :: rest => do
    let first ← expandPart run p isFirst rest.isEmpty part
    return first ++ (← expandParts run p false rest)

end

/-! ## Splitting -/

/-- Arguments as far as they have been put together. -/
structure Fields where
  complete : List (List Glyph)
  /-- The argument that more may be added to, the last glyph first. -/
  current : Option (List Glyph)
  /-- Whether the last argument has been ended by a blank, to which another separator may belong. -/
  blank : Bool
  /-- Whether the values of the current region are apart. -/
  apart : Bool
  /-- Whether those of the region before it are, after which any separator ends an argument. -/
  afterApart : Bool
  /-- Whether there has been a region. -/
  begun : Bool

namespace Fields

def none : Fields := ⟨[], .none, false, false, false, false⟩

/-- Ends an argument, which may be empty. -/
def close (f : Fields) : Fields :=
  { f with complete := (f.current.getD []).reverse :: f.complete, current := .none }

/-- Begins a region. -/
def enter (apart : Bool) (f : Fields) : Fields :=
  { f with blank := false, apart, afterApart := f.apart, begun := true }

/-- Comes to a separator. -/
def separate (isBlank : Bool) (f : Fields) : Fields :=
  if f.apart || f.afterApart then f.close
  else if f.current.isSome then { f.close with blank := isBlank }
  else if isBlank then f
  else if f.blank then { f with blank := false }
  else f.close

/-- Adds a piece, and splits at separators. -/
def add (separators : List Char) (f : Fields) : Piece → Fields
  | .mark => { f with current := some (f.current.getD []), blank := false }
  | .gap => f.separate true
  | .region apart => f.enter apart
  | .remnant => if f.begun then f else f.enter true
  | .glyph g splits =>
    if splits ∧ separators.contains g.char then
      f.separate (g.char = ' ' || g.char = '\t' || g.char = '\n')
    else { f with current := some (g :: f.current.getD []), blank := false }

def all (separators : List Char) (pieces : List Piece) : List (List Glyph) :=
  let f := pieces.foldl (add separators) none
  (if f.apart || f.current.isSome then f.close else f).complete.reverse

end Fields

/-! ## Names of files -/

/-- The names of what is in a directory. -/
def childrenOf (t : FileTree) (l : Location) : List String :=
  "." :: ".." :: t.entries.entries.filterMap fun (place, _) =>
    match place.getLast? with
    | some name => if place.dropLast = l then some name else none
    | none => none

/-- The texts that stand for names in a pattern after a path that leads to a location. All parts but
    the last one are directories. -/
def pathsMatching (t : FileTree) (start : List Char) (l : Location) :
    List (List Glyph) → List (List Char)
  | [] => if (t.entry? l).isSome then [start] else []
  | segment :: rest =>
    let names :=
      if Glob.isOpen segment then
        let hidden := (segment.head?.map (·.char)) = some '.'
        (childrenOf t l).filter fun name =>
          (hidden || !name.startsWith ".") && Glob.isMatch segment name.toList
      else [String.ofList (segment.map (·.char))]
    let slash := if rest.isEmpty then [] else ['/']
    names.flatMap fun name =>
      let place := Location.step l name
      if rest.isEmpty ∨ t.isDirectoryAt place then
        pathsMatching t (start ++ name.toList ++ slash) place rest
      else []

/-- Glyphs between slashes. -/
def segmentsOf (gs : List Glyph) : List (List Glyph) :=
  gs.foldr (fun g segments =>
    if g.char = '/' then [] :: segments
    else match segments with
      | [] => [[g]]
      | segment :: rest => (g :: segment) :: rest) [[]]

/-- The names of files that an argument is a pattern for, or its own text. -/
def filesOf (s : Session) (gs : List Glyph) : List String :=
  let own := [String.ofList (gs.map (·.char))]
  if s.hasOption 'f' ∨ ¬Glob.isOpen gs then own
  else
    let begins := if (gs.head?.map (·.char)) = some '/' then [] else s.directory
    match pathsMatching s.files [] begins (segmentsOf gs) with
    | [] => own
    | paths => (paths.map String.ofList).mergeSort fun a b => a ≤ b

/-! ## Words -/

/-- The arguments that a word stands for. -/
def expand (run : Script → Running Unit) (word : Word) : Running (List String) := do
  let pieces ← expandParts run ⟨false, true, false, false⟩ true word
  let s ← get
  return (Fields.all s.separators pieces).flatMap (filesOf s)

/-- The one text that a word stands for. -/
def expandWhole (run : Script → Running Unit) (word : Word) : Running String := do
  return String.ofList (charsOf (← expandParts run .single true word))

/-- The text that is assigned with a word. -/
def expandAssigned (run : Script → Running Unit) (word : Word) : Running String := do
  let place := { Place.single with assigned := true }
  return String.ofList (charsOf (← expandParts run place true word))

/-- The pattern that a word stands for. -/
def expandPattern (run : Script → Running Unit) (word : Word) : Running (List Glyph) := do
  return glyphsOf (← expandParts run .single true word)

end MavenPom.Shell
