import MavenPom.Action
import MavenPom.Files.Error
import MavenPom.Files.Path
import MavenPom.Table
import MavenPom.Text.Cut
import MavenPom.Text.Utf8

/-!
# Files and directories

A file system without links as a value. A location is reached from the root by one name after the
other, so a location is an ancestor of another one exactly when its names begin the other's.
-/

namespace MavenPom

/-- The names that lead from the root to a file or directory. -/
abbrev Location := List String

namespace Location

/-- The absolute path of a location. -/
def path (l : Location) : String := "/" ++ "/".intercalate l

/-- The location that a segment of a path leads to, whatever is there. -/
def step (l : Location) (segment : String) : Location :=
  if segment = "" ∨ segment = "." then l
  else if segment = ".." then l.dropLast
  else l ++ [segment]

/-- The location that a relative path leads to, whatever is there. -/
def descend (l : Location) (path : String) : Location :=
  (Text.fields '/' path).foldl step l

end Location

inductive Entry where
  | file (content : Bytes)
  | directory
  deriving DecidableEq, Repr

structure FileTree where
  entries : Table Location Entry
  /-- Where relative paths begin. -/
  workingDirectory : Location
  deriving DecidableEq, Repr

namespace FileTree

/-- No files, and no directories but the root. -/
def empty : FileTree := ⟨Table.empty, []⟩

/-- What is at a location. The root is always there. -/
def entry? (t : FileTree) (l : Location) : Option Entry :=
  if l = [] then some .directory else t.entries.get? l

def isFileAt (t : FileTree) (l : Location) : Bool :=
  match t.entry? l with
  | some (.file _) => true
  | _ => false

def isDirectoryAt (t : FileTree) (l : Location) : Bool :=
  t.entry? l == some .directory

/-- Where a path begins. -/
def start (t : FileTree) (path : String) : Location :=
  if path.toList.head? = some '/' then [] else t.workingDirectory

/-- The greatest sizes of a name and of a path in bytes. -/
def nameLimit : Nat := 255

def pathLimit : Nat := 4095

/-- Follows a segment of a path, which only a directory has. -/
def enter (t : FileTree) (here : Location) (segment : String) : Except IoError Location :=
  match t.entry? here with
  | none => .error .notFound
  | some (.file _) => .error .notADirectory
  | some .directory =>
    if nameLimit < segment.utf8ByteSize then .error .invalidFilename else .ok (here.step segment)

/-- The segments of a path, unless the system refuses it as a whole. -/
def segments (path : String) : Except IoError (List String) :=
  if path.toList.contains '\x00' then .error .invalidInput
  else if path.isEmpty then .error .notFound
  else if pathLimit < path.utf8ByteSize then .error .invalidFilename
  else .ok (Text.fields '/' path)

/-- The location of what a path names. -/
def locate (t : FileTree) (path : String) : Except IoError Location := do
  let l ← (← segments path).foldlM t.enter (t.start path)
  if (t.entry? l).isSome then .ok l else .error .notFound

/-- The location that a path names in a directory that is there, whatever is at it, and the last
    segment. The root counts as a directory in itself. -/
def target (t : FileTree) (path : String) : Except IoError (Location × String) := do
  match (← segments path).reverse.dropWhile String.isEmpty with
  | [] => .ok ([], ".")
  | last :: above => do
    let dir ← above.reverse.foldlM t.enter (t.start path)
    return (← t.enter dir last, last)

def readAt (t : FileTree) (l : Location) : Except IoError Bytes :=
  match t.entry? l with
  | none => .error .notFound
  | some .directory => .error .isADirectory
  | some (.file content) => .ok content

/-- The content of the file that a path names. -/
def read (t : FileTree) (path : String) : Except IoError Bytes := do
  t.readAt (← t.locate path)

/-- Whether a path names a file. -/
def isFile (t : FileTree) (path : String) : Bool :=
  match t.locate path with
  | .ok l => t.isFileAt l
  | .error _ => false

/-- Whether a path names a directory. -/
def isDirectory (t : FileTree) (path : String) : Bool :=
  match t.locate path with
  | .ok l => t.isDirectoryAt l
  | .error _ => false

/-- Puts an entry at a location. -/
def put (t : FileTree) (l : Location) (entry : Entry) : FileTree :=
  { t with entries := t.entries.insert l entry }

/-- Makes the directory that a path names, in one that is there. The path must end in a name of its
    own. -/
def makeDirectory (t : FileTree) (path : String) : Except IoError FileTree := do
  let (l, last) ← t.target path
  if last = "." ∨ last = ".." ∨ (t.entry? l).isSome then .error .alreadyExists
  else .ok (t.put l .directory)

/-- Makes the first of some directories that are above each other, and those of the others that it
    takes. Directories that are made stay, also where the first one is not among them. -/
def makeAlong : List String → Action FileTree IoError Unit
  | [] => pure ()
  | dir :: above => do
    let t ← get
    if dir.isEmpty then pure ()
    else
      match t.makeDirectory dir with
      | .ok t' => set t'
      | .error .notFound => do
        makeAlong above
        let t ← get
        match t.makeDirectory dir with
        | .ok t' => set t'
        | .error cause => if t.isDirectory dir then pure () else throw cause
      | .error cause => if t.isDirectory dir then pure () else throw cause

/-- Makes the directory that a path names, and those above it. -/
def makeDirectories (path : String) : Action FileTree IoError Unit :=
  makeAlong (Path.ancestors path)

/-- Writes a file at a location, with the directories above it. -/
def writeAt (t : FileTree) (l : Location) (content : Bytes) : FileTree :=
  let above := (List.range l.length).map fun n => l.take n
  (above.foldl (fun t dir => if (t.entry? dir).isSome then t else t.put dir .directory) t).put l
    (.file content)

/-- The locations of all files. -/
def files (t : FileTree) : List Location :=
  t.entries.entries.filterMap fun (l, entry) =>
    match entry with
    | .file _ => some l
    | .directory => none

end FileTree

end MavenPom
