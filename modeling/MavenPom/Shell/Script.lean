import MavenPom.Shell.Octets

/-!
# Shell scripts

The commands of a script and the words in them. A word is kept as its parts, because what stands for
a value is put in only when a command runs, and only what was not quoted is then split at blanks.
-/

namespace MavenPom.Shell

/-- What becomes of a value that is put in, often with a word of its own. -/
inductive Change where
  | plain
  /-- The number of its bytes. -/
  | length
  /-- The word stands in for a value that is missing or, if so asked, empty. -/
  | instead (orEmpty : Bool)
  /-- The same, and it becomes the value. -/
  | assign (orEmpty : Bool)
  /-- The script ends where it is missing. -/
  | require (orEmpty : Bool)
  /-- The word stands in for a value that is there. -/
  | alternative (orEmpty : Bool)
  /-- A match of the word at its beginning is cut off. -/
  | cutFront (longest : Bool)
  /-- A match of the word at its end is cut off. -/
  | cutBack (longest : Bool)
  /-- It is refused. -/
  | malformed
  deriving DecidableEq, Repr

/-- Whether the word is a pattern for what is cut off. -/
def Change.cuts : Change → Bool
  | .cutFront _ => true
  | .cutBack _ => true
  | _ => false

/-- Where a stream is directed. -/
inductive Direction where
  | read
  | write
  | append
  | both
  /-- To where another stream is directed. -/
  | copy
  /-- To a text that stands in the script after the line. It has a number among such texts. -/
  | document (number : Nat)
  deriving DecidableEq, Repr

mutual

/-- A part of a word. -/
inductive Part where
  /-- Text that may have a meaning as a pattern. -/
  | bare (chars : List Char)
  /-- Quoted text. -/
  | exact (chars : List Char)
  /-- What stands between double quotes. -/
  | quoted (parts : List Part)
  /-- The value of a variable or parameter. -/
  | value (name : String) (change : Change) (word : List Part)
  /-- What a script writes. -/
  | written (script : Script)
  /-- What an expression comes to. -/
  | number (expression : List Part)

inductive Redirection where
  | mk (stream : Nat) (direction : Direction) (target : List Part)

inductive Script where
  | nothing
  | simple (line : Nat) (assignments : List (String × List Part)) (words : List (List Part))
    (redirections : List Redirection)
  | sequence (first second : Script)
  /-- The second one runs only if the first one succeeds. -/
  | both (first second : Script)
  /-- The second one runs only if the first one fails. -/
  | either (first second : Script)
  | negation (script : Script)
  /-- What each one writes is what the next one reads. -/
  | pipeline (scripts : List Script)
  | choice (test first second : Script)
  /-- The body runs as long as the test comes out as it should. -/
  | loop (test : Script) (expected : Bool) (body : Script)
  | each (line : Nat) (name : String) (words : List (List Part)) (body : Script)
  /-- The first script runs that has a pattern for the word. -/
  | select (line : Nat) (word : List Part) (cases : List (List (List Part) × Script))
  /-- A function. -/
  | define (name : String) (body : Script)
  | redirected (line : Nat) (script : Script) (redirections : List Redirection)
  /-- A script of its own, which leaves nothing changed. -/
  | inner (script : Script)
  | background (script : Script)

end

abbrev Word := List Part

instance : Inhabited Script := ⟨.nothing⟩

/-! ## Documents -/

/-- A redirection whose target is what a document is, if it is directed to one. -/
def Redirection.withDocuments (text : Nat → Word) : Redirection → Redirection
  | .mk stream (.document number) _ => .mk stream (.document number) (text number)
  | r => r

mutual

/-- A script with its documents. Those of scripts in its words are there already. -/
def Script.withDocuments (text : Nat → Word) : Script → Script
  | .nothing => .nothing
  | .simple line assignments words rs =>
    .simple line assignments words (rs.map (·.withDocuments text))
  | .sequence first second => .sequence (first.withDocuments text) (second.withDocuments text)
  | .both first second => .both (first.withDocuments text) (second.withDocuments text)
  | .either first second => .either (first.withDocuments text) (second.withDocuments text)
  | .negation script => .negation (script.withDocuments text)
  | .pipeline scripts => .pipeline (allWithDocuments text scripts)
  | .choice test first second =>
    .choice (test.withDocuments text) (first.withDocuments text) (second.withDocuments text)
  | .loop test expected body => .loop (test.withDocuments text) expected (body.withDocuments text)
  | .each line name words body => .each line name words (body.withDocuments text)
  | .select line word cases => .select line word (casesWithDocuments text cases)
  | .define name body => .define name (body.withDocuments text)
  | .redirected line script rs =>
    .redirected line (script.withDocuments text) (rs.map (·.withDocuments text))
  | .inner script => .inner (script.withDocuments text)
  | .background script => .background (script.withDocuments text)

def allWithDocuments (text : Nat → Word) : List Script → List Script
  | [] => []
  | script :: rest => script.withDocuments text :: allWithDocuments text rest

def casesWithDocuments (text : Nat → Word) :
    List (List Word × Script) → List (List Word × Script)
  | [] => []
  | (patterns, script) :: rest =>
    (patterns, script.withDocuments text) :: casesWithDocuments text rest

end

end MavenPom.Shell
