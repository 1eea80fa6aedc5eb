import MavenPom.Charset
import MavenPom.Markup.Indent
import MavenPom.Markup.Token

/-!
# Layout

What writing a tree loses of a document's spelling: the head of the document up to its root's start
tag, the blanks at its end, and how each empty element is written, in any of the spellings
`<a></a>`, `<a/>` and `<a />`. It is captured from the text before an edit and put back into the
text written after it.

Both slice texts by the byte offsets of their markup. A slice that would part a character cannot be
taken, and ends the program. The slices are listed beside what they are taken for.
-/

namespace MavenPom.Markup

/-! ## Empty elements -/

structure EmptyElement where
  name : String
  /-- The steps `/name[n]` from the document, where `n` counts the earlier siblings of that
      name. -/
  path : String
  /-- The attributes as `key="value"`, with values as written. -/
  attributes : String
  start : Nat
  stop : Nat
  deriving DecidableEq, Repr

namespace EmptyElement

/-- The attributes that can be read, in one spelling. Of repeated keys the first counts. -/
def attributesOf (tag : Tag) : String :=
  " ".intercalate <| (Attribute.readAll true [] tag.attributeText.toList).filterMap
    fun reading => reading.map fun (key, value) =>
      String.ofList key ++ "=\"" ++ String.ofList value ++ "\""

/-- An open element: its path, and the names of the children seen so far. -/
structure Frame where
  path : String
  names : List String

/-- The path of the next child of that name. -/
def Frame.childPath (f : Frame) (name : String) : String :=
  f.path ++ "/" ++ name ++ "[" ++ toString (f.names.count name) ++ "]"

/-- The state of a walk over tokens: the innermost open element and those around it. -/
structure Walk where
  frame : Frame
  outer : List Frame

/-- The walk before the first token. -/
def Walk.start : Walk := ⟨⟨"", []⟩, []⟩

/-- The element of a tag that stands at `lexeme`. -/
def Walk.locate (w : Walk) (tag : Tag) (lexeme : Lexeme) : EmptyElement :=
  ⟨tag.name, w.frame.childPath tag.name, attributesOf tag, lexeme.start, lexeme.stop⟩

/-- The walk after a child of that name has been met. -/
def Walk.count (w : Walk) (name : String) : Walk :=
  { w with frame := { w.frame with names := name :: w.frame.names } }

/-- The walk inside a child that was just met. -/
def Walk.enter (w : Walk) (path : String) : Walk :=
  ⟨⟨path, []⟩, w.frame :: w.outer⟩

/-- The walk after the innermost open element has ended. -/
def Walk.leave (w : Walk) : Walk :=
  match w.outer with
  | [] => w
  | f :: rest => ⟨f, rest⟩

/-- The empty elements among tokens, where `opened` is the element whose start tag came last. -/
def among (w : Walk) (opened : Option EmptyElement) : List Lexeme → List EmptyElement
  | [] => []
  | lexeme :: rest =>
    match lexeme.token with
    | .startTag tag =>
      let e := w.locate tag lexeme
      among ((w.count tag.name).enter e.path) (some e) rest
    | .emptyTag tag => w.locate tag lexeme :: among (w.count tag.name) none rest
    | .endTag _ =>
      (opened.map fun e => { e with stop := lexeme.stop }).toList ++ among w.leave none rest
    | _ => among w none rest

/-- The empty elements of a text in document order, as far as the text is well-formed. -/
def find (text : String) : List EmptyElement :=
  among Walk.start none (Token.scan text).lexemes

end EmptyElement

/-! ## Capturing and restoring -/

/-- The byte offsets of the root element's start tag. -/
def rootTagSpan (text : String) : Except Error (Nat × Nat) :=
  let s := Token.scan text
  let tag? := s.lexemes.find? fun lexeme =>
    match lexeme.token with
    | .startTag _ => true
    | .emptyTag _ => true
    | _ => false
  match tag?, s.fault with
  | some lexeme, _ => .ok (lexeme.start, lexeme.stop)
  | none, some (position, fault) => .error (.malformed position fault)
  | none, none => .error .noRootElement

/-- A slice of a text by byte offsets. -/
structure Slice where
  text : String
  start : Nat
  stop : Nat
  deriving DecidableEq, Repr

/-- Whether the slice can be taken: its ends are in order, and each stands between two characters
of the text or at an end of it. -/
def Slice.isClean (s : Slice) : Bool :=
  decide (s.start ≤ s.stop) &&
    (Utf8.isBoundary s.start s.text.toList && Utf8.isBoundary s.stop s.text.toList)

/-- The first `n` bytes of a text, where that slice is clean. -/
def textBefore (text : String) (n : Nat) : String := String.ofList (Utf8.take n text.toList)

/-- The text after its first `n` bytes, where that slice is clean. -/
def textFrom (text : String) (n : Nat) : String := String.ofList (Utf8.drop n text.toList)

/-- The bytes of a text from `start` up to `stop`, where that slice is clean. -/
def textBetween (text : String) (start stop : Nat) : String :=
  textBefore (textFrom text start) (stop - start)

/-- Whether a text ends with the end of an empty tag. -/
def endsWithEmptyTag (text : String) : Bool :=
  "/>".toList.reverse.isPrefixOf text.toList.reverse

structure Layout where
  charset : Charset
  /-- The document up to the end of the root element's start tag. -/
  preamble : String
  /-- Where the root element's start tag begins in the preamble. -/
  rootStart : Nat
  rootIsEmptyTag : Bool
  /-- The blanks at the end of the document. -/
  suffix : String
  indent : Indent
  /-- The empty elements, each with its spelling. -/
  empties : List (EmptyElement × String)
  deriving DecidableEq, Repr

namespace Layout

/-- The layout of a document. -/
def capture (text : String) (charset : Charset) : Except Error Layout :=
  (rootTagSpan text).map fun (start, stop) =>
    { charset
      preamble := textBefore text stop
      rootStart := start
      rootIsEmptyTag := endsWithEmptyTag (textBefore text stop)
      suffix := Text.blankSuffix text
      indent := Indent.infer text
      empties := (EmptyElement.find text).map fun e => (e, textBetween text e.start e.stop) }

/-- The captured spelling of an empty element: that of the element at the same path, if its
    attributes are the same. -/
def spelling? (l : Layout) (e : EmptyElement) : Option String :=
  (l.empties.reverse.find? fun (captured, _) => captured.path == e.path).bind
    fun (captured, raw) => if captured.attributes = e.attributes then some raw else none

/-- Writes the text from the byte offset `from`, with the captured spellings of `elements`. -/
def respell (l : Layout) (text : String) (position : Nat) : List EmptyElement → String
  | [] => textFrom text position
  | e :: rest =>
    match l.spelling? e with
    | none => l.respell text position rest
    | some raw => textBetween text position e.start ++ raw ++ l.respell text e.stop rest

/-- The text with the captured spelling of its empty elements. -/
def restoreEmpties (l : Layout) (serialized : String) : String :=
  l.respell serialized 0 (EmptyElement.find serialized)

/-- The text with the captured layout. A root that has turned from an empty tag into a pair of
    tags, or back, keeps only what stood before it. -/
def restoreText (l : Layout) (serialized : String) : Except Error String :=
  let text := l.restoreEmpties serialized
  (rootTagSpan text).map fun (start, stop) =>
    let body :=
      if endsWithEmptyTag (textBefore text stop) = l.rootIsEmptyTag then
        l.preamble ++ Text.trimEnd (textFrom text stop)
      else textBefore l.preamble l.rootStart ++ Text.trimEnd (textFrom text start)
    body ++ l.suffix

/-- The bytes of the text with the captured layout. -/
def restore (l : Layout) (serialized : String) : Except Error Bytes :=
  (l.restoreText serialized).map l.charset.encode

/-! ## The slices taken -/

/-- The text up to a byte offset. -/
def sliceBefore (text : String) (n : Nat) : Slice := ⟨text, 0, n⟩

/-- The text from a byte offset on. -/
def sliceFrom (text : String) (n : Nat) : Slice := ⟨text, n, Utf8.size text.toList⟩

/-- The slices of a text that capturing its layout takes. -/
def captureSlices (text : String) : List Slice :=
  ((rootTagSpan text).toOption.toList.map fun (_, stop) => sliceBefore text stop) ++
    (EmptyElement.find text).map fun e => ⟨text, e.start, e.stop⟩

/-- The slices that writing a text from the byte offset `position` takes of it, with the captured
spellings of `elements`. -/
def respellSlices (l : Layout) (text : String) (position : Nat) : List EmptyElement → List Slice
  | [] => [sliceFrom text position]
  | e :: rest =>
    match l.spelling? e with
    | none => l.respellSlices text position rest
    | some _ => ⟨text, position, e.start⟩ :: l.respellSlices text e.stop rest

/-- The slices that putting the layout back takes: of the text that it is put into, of that text
    with its empty elements respelled, and of the preamble. -/
def restoreSlices (l : Layout) (serialized : String) : List Slice :=
  let text := l.restoreEmpties serialized
  l.respellSlices serialized 0 (EmptyElement.find serialized) ++
    (rootTagSpan text).toOption.toList.flatMap fun (start, stop) =>
      sliceBefore text stop ::
        if endsWithEmptyTag (textBefore text stop) = l.rootIsEmptyTag then [sliceFrom text stop]
        else [sliceBefore l.preamble l.rootStart, sliceFrom text start]

/-- Whether the layout of a text can be captured without slicing a character apart. -/
def capturesCleanly (text : String) : Bool := (captureSlices text).all Slice.isClean

/-- Whether the layout can be put back without slicing a character apart. -/
def restoresCleanly (l : Layout) (serialized : String) : Bool :=
  (l.restoreSlices serialized).all Slice.isClean

end Layout

end MavenPom.Markup
