import MavenPom.Markup.Token
import MavenPom.Markup.Tree.Basic

/-!
# Reading and writing a tree

A document's tokens become a tree: each start tag opens an element under the innermost open one,
and every other token but an end tag adds one node there. A node is written as it was read, except
that an element without children is written as one empty tag.
-/

namespace MavenPom.Markup.Tree

/-! ## Reading -/

/-- Adds a node without a parent; its name is the arena's former size. -/
def alloc (t : Tree) (content : Content) : Tree :=
  ⟨t.nodes.push ⟨content, none, []⟩⟩

/-- Makes `child` the child of `parent` at the place `index`. -/
def attachAt (t : Tree) (parent : NodeId) (index : Nat) (child : NodeId) : Tree :=
  let nodes := t.nodes.modify child fun n => { n with parent := some parent }
  ⟨nodes.modify parent fun n => { n with children := n.children.insertIdx index child }⟩

/-- Makes `child` the last child of `parent`. -/
def attach (t : Tree) (parent child : NodeId) : Tree :=
  t.attachAt parent (t.children parent).length child

/-- Adds a node as the last child of `parent`. -/
def pushChild (t : Tree) (parent : NodeId) (content : Content) : Tree :=
  (t.alloc content).attach parent t.size

/-- The element that a tag describes, unless an attribute cannot be read. Keys may repeat. -/
def elementOf? (tag : Tag) : Option Element :=
  let pairs := (Attribute.readAll false [] tag.attributeText.toList).mapM fun reading =>
    match reading with
    | none => none
    | some (key, value) =>
      (unescape (String.ofList value)).map fun v => (String.ofList key, v)
  pairs.map fun attributes => ⟨tag.name, tag.attributeText, attributes⟩

/-- A tree under construction, and the nodes still open in it, innermost first. -/
structure Draft where
  tree : Tree
  opened : List NodeId

/-- The innermost open node. -/
def Draft.current (d : Draft) : NodeId := d.opened.headD root

/-- Adds a node that stays closed. -/
def Draft.add (d : Draft) (content : Content) : Draft :=
  { d with tree := d.tree.pushChild d.current content }

/-- Takes one token into the tree. -/
def Draft.take (d : Draft) (lexeme : Lexeme) : Except Error Draft :=
  match lexeme.token with
  | .startTag tag =>
    match elementOf? tag with
    | none => .error (.attribute lexeme.start)
    | some e => .ok ⟨d.tree.pushChild d.current (.element e), d.tree.size :: d.opened⟩
  | .emptyTag tag =>
    match elementOf? tag with
    | none => .error (.attribute lexeme.start)
    | some e => .ok (d.add (.element e))
  | .endTag _ => .ok { d with opened := d.opened.tail }
  | .text raw => .ok (d.add (.text raw))
  | .cdata content => .ok (d.add (.cdata content))
  | .comment content => .ok (d.add (.comment content))
  | .declaration content => .ok (d.add (.declaration content))
  | .instruction content => .ok (d.add (.instruction content))
  | .doctype content => .ok (d.add (.doctype content))

/-- The tree of a document. Every element must be closed, and there must be one. -/
def parse (text : String) : Except Error Tree := do
  let s := Token.scan text
  let d ← s.lexemes.foldlM Draft.take ⟨empty, []⟩
  if let some (position, fault) := s.fault then
    throw (.malformed position fault)
  if let some id := d.opened.head? then
    throw (.unclosed ((d.tree.element? id).map (·.name) |>.getD ""))
  if d.tree.rootElement?.isNone then
    throw .noRootElement
  return d.tree

/-! ## Writing -/

/-- The spelling of a node that is neither an element nor the document. -/
def leafText : Content → String
  | .text raw => raw
  | .cdata content => "<![CDATA[" ++ content ++ "]]>"
  | .comment content => "<!--" ++ content ++ "-->"
  | .declaration content => "<?" ++ content ++ "?>"
  | .instruction content => "<?" ++ content ++ "?>"
  | .doctype content =>
    let gap := if content.toList.head?.any Text.isBlank then "" else " "
    "<!DOCTYPE" ++ gap ++ content ++ ">"
  | .document => ""
  | .element _ => ""

/-- The spelling of a node whose children are nested no deeper than `height`. -/
def renderNode (t : Tree) : Nat → NodeId → String
  | 0, _ => ""
  | height + 1, id =>
    let children := t.children id
    let inside := String.join (children.map (t.renderNode height))
    match t.content id with
    | .document => inside
    | .element e =>
      if children.isEmpty then "<" ++ e.name ++ Text.trimEnd e.attributeText ++ "/>"
      else "<" ++ e.name ++ e.attributeText ++ ">" ++ inside ++ "</" ++ e.name ++ ">"
    | leaf => leafText leaf

/-- The spelling of a document. No node is nested deeper than the arena is large. -/
def render (t : Tree) : String := t.renderNode t.size root

end MavenPom.Markup.Tree
