import MavenPom.Files.Tree
import MavenPom.Markup.Layout
import MavenPom.Markup.Tree.Basic
import MavenPom.Markup.Tree.Edit
import MavenPom.Markup.Tree.Text
import MavenPom.Pom.Basic

/-!
# POM documents

One POM file: its bytes, what they declare, and a tree to be edited. Edits touch the edited tree
alone, so a document without changes can be handed back exactly as it was read.
-/

namespace MavenPom

open Markup

/-- Where a document comes from. -/
inductive DocumentSource where
  | file (path : String)
  | url (address : String)
  | memory
  deriving DecidableEq, Repr

namespace DocumentSource

def text : DocumentSource → String
  | .file path => path
  | .url address => address
  | .memory => "<memory>"

def path? : DocumentSource → Option String
  | .file path => some path
  | _ => none

end DocumentSource

structure Document where
  source : DocumentSource
  bytes : Bytes
  charset : Charset
  text : String
  /-- The tree as it was read. -/
  tree : Tree
  /-- What the document declares, as it was read. -/
  pom : Pom
  edited : Tree
  layout : Option Layout
  result : Option Bytes
  /-- Whether an edit has been marked. -/
  dirty : Bool
  deriving DecidableEq, Repr

namespace Document

/-- Reads a document. Markup that cannot be read is told apart from a POM that is not
    well-formed. -/
def ofBytes (bytes : Bytes) (source : DocumentSource) : Except ProjectError Document := do
  let located {α : Type} (result : Except Markup.Error α) : Except ProjectError α :=
    result.mapError (.malformed source.text)
  let charset ← located (Charset.detect bytes)
  let text ← located (charset.decode bytes)
  let tree ← located (Tree.parse text)
  let pom ← Pom.parse text source.text
  return ⟨source, bytes, charset, text, tree, pom, tree, none, none, false⟩

/-- Reads the document at a path. -/
def load (files : FileTree) (path : String) : Except ProjectError Document :=
  match files.read path with
  | .error cause => .error (.unreadable path cause)
  | .ok bytes => ofBytes bytes (.file path)

/-- Whether a URL is one that a network has to be asked for. -/
def isRemote (url : String) : Bool :=
  "http://".isPrefixOf url || "https://".isPrefixOf url

/-- Reads the document at a URL. Without a network, only files can be. -/
def ofUrl (files : FileTree) (url : String) : Except ProjectError Document :=
  match Text.strip? "file://".toList url.toList with
  | some path => load files (String.ofList path)
  | none =>
    if isRemote url then .error (.fetch url "no network")
    else .error (.fetch url "unsupported URL scheme")

/-- The layout of the document as it was read. -/
def capture (d : Document) : Except ProjectError Layout :=
  match d.layout with
  | some layout => .ok layout
  | none => (Layout.capture d.text d.charset).mapError (.malformed d.source.text)

/-- Captures the layout, unless it has been. -/
def captureLayout (d : Document) : Except ProjectError Document :=
  d.capture.map fun layout => { d with layout := some layout }

/-- How added elements are indented: as the captured layout says. -/
def indent (d : Document) : Indent := (d.layout.map (·.indent)).getD Indent.standard

/-- Whether the edited tree carries other content than the tree as it was read. -/
def hasChanges (d : Document) : Bool := !d.tree.sameContent d.edited

/-- Takes the document as it was read for the result. -/
def discardChanges (d : Document) : Document :=
  { d with dirty := false, result := some d.bytes }

def markDirty (d : Document) : Document := { d with dirty := true }

/-- The edited tree as text. -/
def editedText (d : Document) : String := d.edited.render

end Document

end MavenPom
