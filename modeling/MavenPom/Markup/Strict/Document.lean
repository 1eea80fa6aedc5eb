import MavenPom.Markup.Strict.Token
import MavenPom.Text.Blank

/-!
# Well-formed documents

A document whose tags pair up around one root, with every prefix declared and no attribute given
twice. Elements keep their local names, and adjacent texts and CDATA sections are one text.
-/

namespace MavenPom.Markup.Strict

inductive Node where
  | element (name : String) (children : List Node)
  | text (content : String)
  /-- A comment or an instruction. -/
  | aside

/-- The namespaces that prefixes are bound to, innermost first. The empty prefix stands for the
    default namespace. -/
abbrev Scope := List (String × String)

/-- The namespace of the prefix `xml`. -/
def xmlSpace : String := "http://www.w3.org/XML/1998/namespace"

/-- The namespace of the prefix `xmlns`. -/
def xmlnsSpace : String := "http://www.w3.org/2000/xmlns/"

/-- The bindings that attributes declare, if they may. A prefix is declared once, `xml` only as
    what it is, and its namespace for no other prefix. -/
def declared? (declaredSoFar : Scope) : List Attribute → Option Scope
  | [] => some declaredSoFar
  | a :: rest =>
    if a.name.space = "xmlns" then
      if a.value = xmlnsSpace ∨ (a.name.name == "xml") != (a.value == xmlSpace) ∨
          declaredSoFar.any (·.1 = a.name.name) then none
      else if a.value = xmlSpace then declared? declaredSoFar rest
      else declared? (declaredSoFar ++ [(a.name.name, a.value)]) rest
    else if a.name.name = "xmlns" then
      if a.value = xmlSpace ∨ a.value = xmlnsSpace then none
      else declared? (declaredSoFar ++ [("", a.value)]) rest
    else declared? declaredSoFar rest

/-- The namespace and local name of an attribute that declares nothing, if its prefix is bound. -/
def expandedName? (scope : Scope) (a : Attribute) : Option (Option String × String) :=
  if a.name.space = "" then some (none, a.name.name)
  else if a.name.space = "xml" then some (some xmlSpace, a.name.name)
  else (scope.lookup a.name.space).map fun uri => (some uri, a.name.name)

/-- Whether an attribute declares a namespace. -/
def Attribute.isDeclaration (a : Attribute) : Bool :=
  a.name.space = "xmlns" || a.name.name = "xmlns"

/-- The scope inside a tag, if its name and its attributes are proper in it. -/
def enter? (outer : Scope) (name : QName) (attributes : List Attribute) : Option Scope :=
  if name.space = "xmlns" then none
  else
    (declared? [] attributes).bind fun own =>
      let scope := own ++ outer
      let names := (attributes.filter (!·.isDeclaration)).mapM (expandedName? scope)
      let bound := name.space = "" || (scope.lookup name.space).isSome
      if bound && names.any fun ns => ns.Nodup then some scope else none

/-- An open element: its name, the scope inside it, and its children so far, last first. -/
structure Frame where
  name : QName
  scope : Scope
  children : List Node

/-- A document under construction: the open elements, innermost first, and the root element once
    it is closed. -/
structure Draft where
  opened : List Frame
  closed : Option Node

/-- The scope at the innermost open element. -/
def Draft.scope (d : Draft) : Scope := (d.opened.head?.map (·.scope)).getD []

/-- Adds a node at the innermost open element. Outside every element stand only asides and one
    element. -/
def Draft.add? (d : Draft) (node : Node) : Option Draft :=
  match d.opened, node with
  | f :: rest, .text more =>
    match f.children with
    | .text before :: children =>
      some { d with opened := { f with children := .text (before ++ more) :: children } :: rest }
    | children => some { d with opened := { f with children := .text more :: children } :: rest }
  | f :: rest, node => some { d with opened := { f with children := node :: f.children } :: rest }
  | [], .aside => some d
  | [], .element name children =>
    if d.closed.isSome then none else some { d with closed := some (.element name children) }
  | [], .text _ => none

/-- Takes one token into the document. -/
def Draft.take? (d : Draft) : Token → Option Draft
  | .startTag name attributes =>
    if d.opened.isEmpty && d.closed.isSome then none
    else
      (enter? d.scope name attributes).map fun scope =>
        { d with opened := ⟨name, scope, []⟩ :: d.opened }
  | .emptyTag name attributes =>
    (enter? d.scope name attributes).bind fun _ => d.add? (.element name.name [])
  | .endTag name =>
    match d.opened with
    | [] => none
    | f :: rest =>
      if f.name = name then
        ({ d with opened := rest } : Draft).add? (.element name.name f.children.reverse)
      else none
  | .text raw content =>
    if d.opened.isEmpty && raw.toList.all isSpace then some d else d.add? (.text content)
  | .cdata content => d.add? (.text content)
  | .aside => d.add? .aside

/-- What follows the pseudo-attribute of the declaration that a text begins with. -/
def afterPseudoAttribute? (cs : List Char) : Option (List Char) :=
  (attribute? cs).bind fun ((name, value), rest) =>
    if (qName? name).isSome && value.all isXmlChar && !value.contains '<' then some rest else none

/-- What follows the white space that must part pseudo-attributes, unless the declaration ends. -/
def afterGap? (cs : List Char) : Option (List Char) :=
  if cs.head?.all isSpace || (Text.strip? "?>".toList cs).isSome then some (skipSpaces cs)
  else none

/-- What follows an optional pseudo-attribute whose name begins with `name`. -/
def afterOptional? (name : String) (cs : List Char) : Option (List Char) :=
  if (Text.strip? name.toList cs).isSome then afterPseudoAttribute? cs else some cs

/-- What follows the XML declaration, if there is one and it is well-formed. -/
def afterDeclaration? (cs : List Char) : Option (List Char) :=
  match Text.strip? "<?xml ".toList cs with
  | none => some cs
  | some rest => do
    let version := skipSpaces rest
    let _ ← Text.strip? "version".toList version
    let afterVersion ← (afterPseudoAttribute? version).bind afterGap?
    let hasEncoding := (Text.strip? "encoding".toList afterVersion).isSome
    let afterEncoding ←
      if hasEncoding then (afterPseudoAttribute? afterVersion).bind afterGap?
      else some afterVersion
    let afterStandalone ← afterOptional? "standalone" afterEncoding
    Text.strip? "?>".toList (skipSpaces afterStandalone)

/-- The root element of a well-formed document. A byte order mark at its head is passed over. -/
def parse? (text : String) : Option Node := do
  let cs := text.toList
  let body ← afterDeclaration? ((Text.strip? ['\uFEFF'] cs).getD cs)
  let d ← (← tokens? body).foldlM Draft.take? ⟨[], none⟩
  if d.opened.isEmpty then d.closed else none

namespace Node

/-- The name and the children of an element. -/
def asElement? : Node → Option (String × List Node)
  | .element name children => some (name, children)
  | _ => none

def children : Node → List Node
  | .element _ children => children
  | _ => []

/-- Whether a node is an element of that local name, in any namespace. -/
def isNamed (name : String) : Node → Bool
  | .element own _ => own == name
  | _ => false

/-- The first child element of a name. -/
def child? (n : Node) (name : String) : Option Node := n.children.find? (isNamed name)

/-- The children that are elements of a name. -/
def childrenNamed (n : Node) (name : String) : List Node := n.children.filter (isNamed name)

/-- The text that an element begins with. An element, a comment or an instruction before it hides
    it. -/
def leadingText? (n : Node) : Option String :=
  match n.children with
  | .text content :: _ => some content
  | _ => none

/-- The trimmed leading text of the first child element of a name, if there is any. -/
def childText? (n : Node) (name : String) : Option String :=
  ((n.child? name).bind leadingText?).bind Text.trim?

end Node

end MavenPom.Markup.Strict
