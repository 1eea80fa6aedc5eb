import MavenPom.Markup.Indent
import MavenPom.Markup.Tree.Text

/-!
# Editing a tree

Replacing an element's content by text, and adding elements on lines of their own. An added
element takes its parent's prefix, so that it is in the same namespace.
-/

namespace MavenPom.Markup.Tree

/-- Takes a node out of its parent's care. -/
def orphan (t : Tree) (id : NodeId) : Tree :=
  ⟨t.nodes.modify id fun n => { n with parent := none }⟩

/-- Replaces all children of a node by one text. -/
def setText (t : Tree) (id : NodeId) (text : String) : Tree :=
  let orphaned := (t.children id).foldl orphan t
  let cleared : Tree := ⟨orphaned.nodes.modify id fun n => { n with children := [] }⟩
  cleared.pushChild id (.text (escape text))

/-- An element with no attributes, named to be in the namespace of `parent`. -/
def elementUnder (t : Tree) (parent : NodeId) (localName : String) : Element :=
  match (t.element? parent).bind (·.nsPrefix) with
  | some p => ⟨p ++ ":" ++ localName, "", []⟩
  | none => ⟨localName, "", []⟩

def isBlankText (t : Tree) (id : NodeId) : Bool :=
  match t.content id with
  | .text raw => Text.isAllBlank raw
  | _ => false

/-- Adds a text as the child of `parent` at the place `index`. -/
def insertBlank (t : Tree) (parent : NodeId) (index : Nat) (blank : String) : Tree :=
  (t.alloc (.text blank)).attachAt parent index t.size

/-- Adds an element as the last of `parent`, on a line of its own. The blanks before the parent's
    end tag stay where they are; without any, the end tag gets a line of its own too. -/
def appendElement (t : Tree) (parent : NodeId) (localName : String) (style : Indent) :
    Tree × NodeId :=
  let depth := t.depth parent + 1
  let id := t.size
  let allocated := t.alloc (.element (t.elementUnder parent localName))
  let count := (t.children parent).length
  if ((t.children parent).getLast?.any t.isBlankText) then
    let indented := allocated.insertBlank parent (count - 1) (style.newline depth)
    (indented.attachAt parent count id, id)
  else
    let indented := allocated.insertBlank parent count (style.newline depth)
    let placed := indented.attach parent id
    (placed.insertBlank parent (count + 2) (style.newline (depth - 1)), id)

/-- Adds an element before its sibling `before`, which moves to a new line. Where `before` is no
    child of `parent`, the element comes last. -/
def insertElementBefore (t : Tree) (parent before : NodeId) (localName : String)
    (style : Indent) : Tree × NodeId :=
  match (t.children parent).idxOf? before with
  | none => t.appendElement parent localName style
  | some index =>
    let id := t.size
    let allocated := t.alloc (.element (t.elementUnder parent localName))
    let blank := allocated.size
    let spaced := allocated.alloc (.text (style.newline (t.depth parent + 1)))
    ((spaced.attachAt parent index id).attachAt parent (index + 1) blank, id)

/-- Adds an element with a text as the last of `parent`. -/
def appendTextElement (t : Tree) (parent : NodeId) (localName text : String) (style : Indent) :
    Tree × NodeId :=
  let (appended, id) := t.appendElement parent localName style
  (appended.setText id text, id)

end MavenPom.Markup.Tree
