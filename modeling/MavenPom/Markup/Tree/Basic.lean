import MavenPom.Markup.Reference
import MavenPom.Text.Blank

/-!
# Documents as trees

An arena of nodes that keeps the spelling of everything it was read from. A node is named by its
place in the arena, and the name stays valid under every edit, also once the node is detached.
Namespaces are looked up through the declarations on an element and its ancestors. Two documents
carry the same content when their elements agree in namespace, local name, attributes and trimmed
text, one by one. Blank text, comments, the order of attributes and the choice of prefixes do not
matter.
-/

namespace MavenPom.Markup

/-- The place of a node in its tree's arena. -/
abbrev NodeId := Nat

structure Element where
  /-- The qualified name as written. -/
  name : String
  /-- The text of the start tag after the name, as written. -/
  attributeText : String
  attributes : List (String × String)
  deriving DecidableEq, Repr

namespace Element

/-- The part of the name after its first colon, or all of it. -/
def localName (e : Element) : String :=
  ((Text.splitOnce? ':' e.name).map (·.2)).getD e.name

/-- The part of the name before its first colon. -/
def nsPrefix (e : Element) : Option String :=
  (Text.splitOnce? ':' e.name).map (·.1)

def attribute? (e : Element) (key : String) : Option String :=
  e.attributes.lookup key

end Element

/-- What a node is. Texts are kept as written, references included. -/
inductive Content where
  | document
  | element (e : Element)
  | text (raw : String)
  | cdata (content : String)
  | comment (content : String)
  | declaration (content : String)
  | instruction (content : String)
  | doctype (content : String)
  deriving DecidableEq, Repr

structure Node where
  content : Content
  parent : Option NodeId
  children : List NodeId
  deriving DecidableEq, Repr

/-- A document. The node at place 0 stands for the document itself, and every parent comes before
    its children. -/
structure Tree where
  nodes : Array Node
  deriving DecidableEq, Repr

namespace Tree

/-- The tree of a document without content. -/
def empty : Tree := ⟨#[⟨.document, none, []⟩]⟩

/-- The node of the document itself. -/
def root : NodeId := 0

def size (t : Tree) : Nat := t.nodes.size

def content (t : Tree) (id : NodeId) : Content :=
  (t.nodes[id]?.map (·.content)).getD .document

def parent? (t : Tree) (id : NodeId) : Option NodeId :=
  t.nodes[id]?.bind (·.parent)

def children (t : Tree) (id : NodeId) : List NodeId :=
  (t.nodes[id]?.map (·.children)).getD []

def element? (t : Tree) (id : NodeId) : Option Element :=
  match t.content id with
  | .element e => some e
  | _ => none

def isElement (t : Tree) (id : NodeId) : Bool := (t.element? id).isSome

/-- The children that are elements. -/
def childElements (t : Tree) (id : NodeId) : List NodeId :=
  (t.children id).filter t.isElement

/-- The first element of the document. -/
def rootElement? (t : Tree) : Option NodeId :=
  (t.children root).find? t.isElement

/-- The nodes above a node, nearest first. -/
def ancestors (t : Tree) (id : NodeId) : List NodeId :=
  match t.parent? id with
  | none => []
  | some p => if _h : p < id then p :: t.ancestors p else []
termination_by id

/-- The number of elements above a node. -/
def depth (t : Tree) (id : NodeId) : Nat :=
  ((t.ancestors id).filter t.isElement).length

/-- The attribute that binds a name's prefix, or the lack of one, to a namespace. -/
def bindingKey (e : Element) : String :=
  match e.nsPrefix with
  | some p => "xmlns:" ++ p
  | none => "xmlns"

/-- The namespace that an element's prefix is bound to by the nearest declaration. Binding to an
    empty name is to no namespace. -/
def namespace? (t : Tree) (id : NodeId) : Option String :=
  match t.element? id with
  | none => none
  | some e =>
    ((id :: t.ancestors id).findSome? fun a =>
      (t.element? a).bind (·.attribute? (bindingKey e))).filter (!·.isEmpty)

/-- The child elements with a local name in a namespace. -/
def childrenNamed (t : Tree) (id : NodeId) (ns : Option String) (name : String) : List NodeId :=
  (t.childElements id).filter fun child =>
    ((t.element? child).map (·.localName) == some name) && (t.namespace? child == ns)

def childNamed? (t : Tree) (id : NodeId) (ns : Option String) (name : String) : Option NodeId :=
  (t.childrenNamed id ns name).head?

/-- The elements reached from a node by a path of local names, in document order. -/
def select (t : Tree) (ns : Option String) : List String → NodeId → List NodeId
  | [], id => [id]
  | step :: path, id => (t.childrenNamed id ns step).flatMap (t.select ns path)

/-- The characters that a node itself contributes to its parent's text. A text with a reference
    that cannot be resolved counts as written. -/
def ownText : Content → String
  | .text raw => (unescape raw).getD raw
  | .cdata content => content
  | _ => ""

/-- The character content of a node's own texts and CDATA sections. -/
def text (t : Tree) (id : NodeId) : String :=
  String.join ((t.children id).map fun child => ownText (t.content child))

/-- The trimmed text of the first matching child element, if there is any. -/
def childText? (t : Tree) (id : NodeId) (ns : Option String) (name : String) : Option String :=
  (t.childNamed? id ns name).bind fun child => Text.trim? (t.text child)

/-! ## Equality of content -/

/-- The attributes that are not namespace declarations, sorted. -/
def significantAttributes (e : Element) : List (String × String) :=
  (e.attributes.filter fun (key, _) => key != "xmlns" && !"xmlns:".isPrefixOf key).mergeSort
    fun a b => if a.1 = b.1 then a.2 ≤ b.2 else a.1 ≤ b.1

/-- Whether two elements, of nesting no deeper than `height`, carry the same content. -/
def sameElement (left right : Tree) : Nat → NodeId → NodeId → Bool
  | 0, _, _ => false
  | height + 1, l, r =>
    match left.element? l, right.element? r with
    | some le, some re =>
      le.localName == re.localName && left.namespace? l == right.namespace? r &&
        significantAttributes le == significantAttributes re &&
        Text.trim (left.text l) == Text.trim (right.text r) &&
        (left.childElements l).length == (right.childElements r).length &&
        ((left.childElements l).zip (right.childElements r)).all fun (lc, rc) =>
          sameElement left right height lc rc
    | _, _ => false

/-- Whether two documents carry the same content. -/
def sameContent (left right : Tree) : Bool :=
  match left.rootElement?, right.rootElement? with
  | some l, some r => sameElement left right left.size l r
  | none, none => true
  | _, _ => false

end Tree

end MavenPom.Markup
