import MavenPom.Project.Document
import Mathlib.Data.List.Basic

/-!
# Markup by its characters

What reading, writing and laying out a text do, as functions on the characters of the text.
-/

namespace MavenPom.Markup

/-! ## Reading -/

/-- The tokens of a document's characters. -/
def Token.scanChars : List Char → Scan
  | '\uFEFF' :: cs => scanFrom [] 0 cs
  | cs => scanFrom [] 0 cs

theorem Token.scan_ofList (cs : List Char) : scan (String.ofList cs) = scanChars cs := by
  rw [scan, String.toList_ofList]
  rfl

theorem Token.scanChars_of_head?_ne {cs : List Char} (h : cs.head? ≠ some '\uFEFF') :
    scanChars cs = scanFrom [] 0 cs := by
  unfold scanChars
  split
  · next heq => exact absurd rfl h
  · rfl

theorem Token.scanChars_eq (cs : List Char) :
    scanChars cs = scanFrom [] 0 ((Text.strip? ['\uFEFF'] cs).getD cs) := by
  unfold scanChars
  split
  · simp [Text.strip?]
  · next hne =>
    cases hstrip : Text.strip? ['\uFEFF'] cs with
    | none => rfl
    | some rest => exact absurd (Text.strip?_eq_some_iff.mp hstrip) (hne rest)

/-- The tree of a document's tokens. -/
def Tree.ofScan (s : Scan) : Except Error Tree := do
  let d ← s.lexemes.foldlM Draft.take ⟨empty, []⟩
  if let some (position, fault) := s.fault then
    throw (.malformed position fault)
  if let some id := d.opened.head? then
    throw (.unclosed ((d.tree.element? id).map (·.name) |>.getD ""))
  if d.tree.rootElement?.isNone then
    throw .noRootElement
  return d.tree

theorem Tree.parse_ofList (cs : List Char) :
    parse (String.ofList cs) = ofScan (Token.scanChars cs) := by
  rw [← Token.scan_ofList]
  rfl

/-- The root element of a well-formed document's characters. -/
def Strict.parseChars? (cs : List Char) : Option Node := do
  let body ← afterDeclaration? ((Text.strip? ['\uFEFF'] cs).getD cs)
  let d ← (← tokens? body).foldlM Draft.take? ⟨[], none⟩
  if d.opened.isEmpty then d.closed else none

theorem Strict.parse?_ofList (cs : List Char) : parse? (String.ofList cs) = parseChars? cs := by
  rw [parse?, String.toList_ofList]
  rfl

/-! ## Layouts -/

/-- The byte offsets of the start tag of the root element. -/
def rootTagSpanIn (s : Scan) : Except Error (Nat × Nat) :=
  let tag? := s.lexemes.find? fun lexeme =>
    match lexeme.token with
    | .startTag _ => true
    | .emptyTag _ => true
    | _ => false
  match tag?, s.fault with
  | some lexeme, _ => .ok (lexeme.start, lexeme.stop)
  | none, some (position, fault) => .error (.malformed position fault)
  | none, none => .error .noRootElement

theorem rootTagSpan_ofList (cs : List Char) :
    rootTagSpan (String.ofList cs) = rootTagSpanIn (Token.scanChars cs) := by
  rw [← Token.scan_ofList]
  rfl

theorem textBefore_ofList (cs : List Char) (n : Nat) :
    textBefore (String.ofList cs) n = String.ofList (Utf8.take n cs) := by
  rw [textBefore, String.toList_ofList]

theorem textFrom_ofList (cs : List Char) (n : Nat) :
    textFrom (String.ofList cs) n = String.ofList (Utf8.drop n cs) := by
  rw [textFrom, String.toList_ofList]

theorem textBetween_ofList (cs : List Char) (start stop : Nat) :
    textBetween (String.ofList cs) start stop =
      String.ofList (Utf8.take (stop - start) (Utf8.drop start cs)) := by
  rw [textBetween, textFrom_ofList, textBefore_ofList]

/-- Whether characters end with the end of an empty tag. -/
def endsWithEmptyTagChars (cs : List Char) : Bool := "/>".toList.reverse.isPrefixOf cs.reverse

theorem endsWithEmptyTag_ofList (cs : List Char) :
    endsWithEmptyTag (String.ofList cs) = endsWithEmptyTagChars cs := by
  rw [endsWithEmptyTag, String.toList_ofList (l := cs), endsWithEmptyTagChars]

/-- The empty elements of a document's characters. -/
def EmptyElement.findChars (cs : List Char) : List EmptyElement :=
  among Walk.start none (Token.scanChars cs).lexemes

theorem EmptyElement.find_ofList (cs : List Char) : find (String.ofList cs) = findChars cs := by
  rw [find, Token.scan_ofList, findChars]

/-- The indentation of a document's characters. -/
def Indent.inferChars (cs : List Char) : Indent :=
  let tokens := (Token.scanChars cs).lexemes.map (·.token)
  let (pairs, bare) := LineBreak.count false cs
  ⟨((best? (measures 0 none tokens)).map Measure.text).getD standard.unit,
    if pairs > bare then .crlf else .lf⟩

theorem Indent.infer_ofList (cs : List Char) : infer (String.ofList cs) = inferChars cs := by
  rw [infer, Token.scan_ofList, LineBreak.detect, String.toList_ofList, inferChars]

namespace Layout

/-- The layout of a document's characters. -/
def captureChars (cs : List Char) (charset : Charset) : Except Error Layout :=
  (rootTagSpanIn (Token.scanChars cs)).map fun (start, stop) =>
    { charset
      preamble := String.ofList (Utf8.take stop cs)
      rootStart := start
      rootIsEmptyTag := endsWithEmptyTagChars (Utf8.take stop cs)
      suffix := String.ofList (cs.reverse.takeWhile Text.isBlank).reverse
      indent := Indent.inferChars cs
      empties := (EmptyElement.findChars cs).map fun e =>
        (e, String.ofList (Utf8.take (e.stop - e.start) (Utf8.drop e.start cs))) }

theorem capture_ofList (cs : List Char) (charset : Charset) :
    capture (String.ofList cs) charset = captureChars cs charset := by
  rw [capture, rootTagSpan_ofList, captureChars]
  simp only [textBefore_ofList, endsWithEmptyTag_ofList, Text.blankSuffix, String.toList_ofList,
    Indent.infer_ofList, EmptyElement.find_ofList, textBetween_ofList]

variable {l : Layout}

/-- The characters from a byte offset on, with the captured spellings of elements. -/
def respellChars (l : Layout) (cs : List Char) (position : Nat) :
    List EmptyElement → List Char
  | [] => Utf8.drop position cs
  | e :: rest =>
    match l.spelling? e with
    | none => l.respellChars cs position rest
    | some raw =>
      Utf8.take (e.start - position) (Utf8.drop position cs) ++ raw.toList ++
        l.respellChars cs e.stop rest

theorem respell_ofList (l : Layout) (cs : List Char) (position : Nat) (es : List EmptyElement) :
    l.respell (String.ofList cs) position es = String.ofList (l.respellChars cs position es) := by
  induction es generalizing position with
  | nil => rw [respell, respellChars, textFrom_ofList]
  | cons e es ih =>
    rw [respell, respellChars]
    cases l.spelling? e with
    | none => exact ih position
    | some raw =>
      simp only [textBetween_ofList, ih, String.ofList_append, String.ofList_toList]

/-- The characters with the captured layout. -/
def restoreChars (l : Layout) (serialized : List Char) : Except Error (List Char) :=
  let cs := l.respellChars serialized 0 (EmptyElement.findChars serialized)
  (rootTagSpanIn (Token.scanChars cs)).map fun (start, stop) =>
    let body :=
      if endsWithEmptyTagChars (Utf8.take stop cs) = l.rootIsEmptyTag then
        l.preamble.toList ++ Text.dropEndWhile Text.isBlank (Utf8.drop stop cs)
      else
        Utf8.take l.rootStart l.preamble.toList ++
          Text.dropEndWhile Text.isBlank (Utf8.drop start cs)
    body ++ l.suffix.toList

theorem restoreText_ofList (l : Layout) (cs : List Char) :
    l.restoreText (String.ofList cs) = (l.restoreChars cs).map String.ofList := by
  rw [restoreText, restoreEmpties, EmptyElement.find_ofList, respell_ofList, restoreChars]
  simp only [rootTagSpan_ofList, textBefore_ofList, endsWithEmptyTag_ofList, textFrom_ofList,
    Text.trimEnd, String.toList_ofList]
  cases rootTagSpanIn (Token.scanChars (l.respellChars cs 0 (EmptyElement.findChars cs))) with
  | error fault => rfl
  | ok span =>
    simp only [Except.map]
    refine congrArg Except.ok (String.toList_injective ?_)
    split <;> simp [textBefore]

/-- Putting the layout of characters back into the characters of a tree is putting that of their
    text back into the tree's text. -/
theorem restoreText_of_restoreChars {cs restored : List Char} {charset : Charset}
    {serialized : List Char} (h : ((captureChars cs charset).bind fun l =>
      l.restoreChars serialized) = .ok restored) :
    ((capture (String.ofList cs) charset).bind fun l =>
      l.restoreText (String.ofList serialized)) = .ok (String.ofList restored) := by
  rw [capture_ofList]
  cases hcapture : captureChars cs charset with
  | error fault =>
    rw [hcapture] at h
    cases h
  | ok l =>
    rw [hcapture] at h
    exact (restoreText_ofList l serialized).trans (congrArg (Except.map String.ofList) h)

/-- The bytes of characters with the captured layout. -/
def restoreBytes (l : Layout) (serialized : List Char) : Except Error Bytes :=
  (l.restoreChars serialized).map fun cs =>
    (if l.charset.bom then l.charset.encoding.mark else []) ++ l.charset.encoding.encode cs

theorem restore_ofList (l : Layout) (cs : List Char) :
    l.restore (String.ofList cs) = l.restoreBytes cs := by
  rw [restore, restoreText_ofList, restoreBytes]
  cases l.restoreChars cs with
  | error fault => rfl
  | ok chars => simp only [Except.map, Charset.encode, String.toList_ofList]

end Layout

/-! ## Writing -/

namespace Tree

/-- The characters of a node whose children are nested no deeper than `height`. -/
def renderChars (t : Tree) : Nat → NodeId → List Char
  | 0, _ => []
  | height + 1, id =>
    let children := t.children id
    let inside := children.flatMap (t.renderChars height)
    match t.content id with
    | .document => inside
    | .element e =>
      if children.isEmpty then
        '<' :: e.name.toList ++ (Text.trimEnd e.attributeText).toList ++ ['/', '>']
      else
        '<' :: e.name.toList ++ e.attributeText.toList ++ '>' :: inside ++
          '<' :: '/' :: e.name.toList ++ ['>']
    | leaf => (leafText leaf).toList

theorem toList_renderNode (t : Tree) (height : Nat) (id : NodeId) :
    (t.renderNode height id).toList = t.renderChars height id := by
  induction height generalizing id with
  | zero => rfl
  | succ height ih =>
    have hinside : (String.join ((t.children id).map (t.renderNode height))).toList =
        (t.children id).flatMap (t.renderChars height) := by
      rw [String.toList_join, List.flatMap_map]
      exact List.flatMap_congr fun child _ => ih child
    rw [renderNode, renderChars]
    cases t.content id with
    | document => exact hinside
    | element e => cases (t.children id).isEmpty <;> simp [hinside]
    | _ => rfl

theorem render_eq (t : Tree) : t.render = String.ofList (t.renderChars t.size root) := by
  rw [render, ← toList_renderNode, String.ofList_toList]

end Tree

end MavenPom.Markup
