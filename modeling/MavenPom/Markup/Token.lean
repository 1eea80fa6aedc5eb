import MavenPom.Markup.Error
import MavenPom.Text.Cut
import MavenPom.Text.Utf8

/-!
# Tokens

The lenient reading of a document as a sequence of tags, texts and other markup. Text is
everything between markup. Names may hold any characters; an end tag must name the element that
is open, but an element may stay open to the end. Reading the attributes of a tag goes on after a
malformed one, so that a caller may refuse the tag or pass over what it cannot read.
-/

namespace MavenPom.Markup

/-! ## Attributes -/

/-- The white space of markup: space, tab, and the characters of line breaks. -/
def isSpace (c : Char) : Bool :=
  c == ' ' || c == '\t' || c == '\r' || c == '\n'

/-- The text from the first character that is not white space. -/
def skipSpaces (cs : List Char) : List Char := cs.dropWhile isSpace

/-- The text from the first white space. -/
def skipWord (cs : List Char) : List Char := cs.dropWhile fun c => !isSpace c

/-- A key ends at an equals sign or at white space. -/
def isKeyChar (c : Char) : Bool := c != '=' && !isSpace c

namespace Attribute

/-- One attribute: its pair with the value as written, or nothing where it cannot be read. -/
abbrev Reading := Option (List Char × List Char)

/-- An attribute read, the key if an equals sign followed it, and the text to go on with. -/
structure Step where
  reading : Reading
  assigned : Option (List Char)
  rest : List Char

/-- Reads the value of `key` from the text after its equals sign. -/
def readValue (key : List Char) (text : List Char) : Step :=
  match skipSpaces text with
  | [] => ⟨none, some key, []⟩
  | quote :: body =>
    if quote = '"' ∨ quote = '\'' then
      match Text.cut? [quote] body with
      | some (value, rest) => ⟨some (key, value), some key, rest⟩
      | none => ⟨none, some key, []⟩
    else ⟨none, some key, skipWord (quote :: body)⟩

/-- Reads the attribute whose key begins with `first`. One whose key is in `seen` is passed over
    up to the next white space after its equals sign. -/
def step (seen : List (List Char)) (first : Char) (cs : List Char) : Step :=
  let key := first :: cs.takeWhile isKeyChar
  match skipSpaces (cs.dropWhile isKeyChar) with
  | '=' :: value =>
    if seen.contains key then ⟨none, none, skipWord value⟩ else readValue key value
  | rest => ⟨none, none, rest⟩

theorem skipSpaces_length_le (cs : List Char) : (skipSpaces cs).length ≤ cs.length :=
  (List.dropWhile_sublist _).length_le

theorem skipWord_length_le (cs : List Char) : (skipWord cs).length ≤ cs.length :=
  (List.dropWhile_sublist _).length_le

theorem readValue_length_le (key text : List Char) :
    (readValue key text).rest.length ≤ text.length := by
  have hskip := skipSpaces_length_le text
  unfold readValue
  split
  · exact Nat.zero_le _
  · next quote body heq =>
    rw [heq] at hskip
    split
    · split
      · next value rest hcut =>
        have := congrArg List.length (Text.eq_of_cut? hcut)
        simp only [List.length_append, List.length_cons] at this hskip
        simp only
        omega
      · exact Nat.zero_le _
    · exact Nat.le_trans (skipWord_length_le _) hskip

/-- An attribute uses up at least the first character of its key. -/
theorem step_length_le (seen : List (List Char)) (first : Char) (cs : List Char) :
    (step seen first cs).rest.length ≤ cs.length := by
  have hskip : (skipSpaces (cs.dropWhile isKeyChar)).length ≤ cs.length :=
    Nat.le_trans (skipSpaces_length_le _) (List.dropWhile_sublist _).length_le
  unfold step
  simp only
  split
  · next value heq =>
    rw [heq, List.length_cons] at hskip
    split
    · exact Nat.le_trans (skipWord_length_le _) (by omega)
    · exact Nat.le_trans (readValue_length_le _ _) (by omega)
  · exact hskip

/-- The attributes in the text of a tag, in order. With `distinct`, only the first of several
    with one key is read. -/
def readAll (distinct : Bool) (seen : List (List Char)) (cs : List Char) : List Reading :=
  match _h : skipSpaces cs with
  | [] => []
  | first :: rest =>
    let s := step seen first rest
    s.reading :: readAll distinct (if distinct then s.assigned.toList ++ seen else seen) s.rest
termination_by cs.length
decreasing_by
  have hskip := skipSpaces_length_le cs
  have hstep := step_length_le seen first rest
  rw [_h, List.length_cons] at hskip
  omega

end Attribute

/-! ## Markup -/

/-- The inside of a start tag: the name, and all that follows it up to the tag's end. -/
structure Tag where
  name : String
  attributeText : String
  deriving DecidableEq, Repr

inductive Token where
  | startTag (tag : Tag)
  | emptyTag (tag : Tag)
  | endTag (name : String)
  | text (raw : String)
  | cdata (content : String)
  | comment (content : String)
  /-- The XML declaration, without its delimiters. -/
  | declaration (content : String)
  | instruction (content : String)
  | doctype (content : String)
  deriving DecidableEq, Repr

/-- A token and the byte offsets between which it stands. -/
structure Lexeme where
  token : Token
  start : Nat
  stop : Nat
  deriving DecidableEq, Repr

/-- What reading a text yields: the tokens up to its end or up to a breach of form. -/
structure Scan where
  lexemes : List Lexeme
  fault : Option (Nat × Fault)
  deriving DecidableEq, Repr

namespace Token

/-- The inside of a tag and what follows it; a `>` between quotes does not end the tag. -/
def tagContent? : Option Char → List Char → Option (List Char)
  | _, [] => none
  | none, c :: cs =>
    if c = '>' then some []
    else (tagContent? (if c = '"' ∨ c = '\'' then some c else none) cs).map (c :: ·)
  | some quote, c :: cs =>
    (tagContent? (if c = quote then none else some quote) cs).map (c :: ·)

/-- The inside of a document type declaration, in which angle brackets pair up. -/
def doctypeContent? : Nat → List Char → Option (List Char)
  | _, [] => none
  | 0, c :: cs =>
    if c = '>' then some [] else (doctypeContent? (if c = '<' then 1 else 0) cs).map (c :: ·)
  | depth + 1, c :: cs =>
    (doctypeContent? (if c = '<' then depth + 2 else if c = '>' then depth else depth + 1) cs).map
      (c :: ·)

/-- The tag that the inside of a start tag describes. -/
def tagOf (content : List Char) : Tag :=
  ⟨String.ofList (content.takeWhile fun c => !isSpace c), String.ofList (skipWord content)⟩

/-- A start tag, or an empty tag when its inside ends with a slash. -/
def ofTagContent (content : List Char) : Token :=
  if content.getLast? = some '/' then .emptyTag (tagOf content.dropLast)
  else .startTag (tagOf content)

/-- The name that the inside of an end tag gives: white space after it does not count, unless
    there is nothing else. -/
def endName (content : List Char) : String :=
  let name := Text.dropEndWhile isSpace content
  String.ofList (if name.isEmpty then content else name)

/-- Whether the inside of an instruction makes it an XML declaration. -/
def isDeclaration (content : List Char) : Bool :=
  match Text.strip? "xml".toList content with
  | some [] => true
  | some (c :: _) => isSpace c
  | none => false

/-- A breach of form, and how far behind the start of the markup it is reported. -/
abbrev Breach := Nat × Fault

/-- The token after `<!` and the characters it takes. Its first character says what it must be. -/
def readBang (cs : List Char) : Except Breach (Token × Nat) :=
  match cs with
  | '-' :: _ =>
    match (Text.strip? "--".toList cs).bind (Text.cut? "-->".toList) with
    | some (content, _) => .ok (.comment (String.ofList content), content.length + 5)
    | none => .error (0, .unclosedComment)
  | '[' :: _ =>
    match (Text.strip? "[CDATA[".toList cs).bind (Text.cut? "]]>".toList) with
    | some (content, _) => .ok (.cdata (String.ofList content), content.length + 10)
    | none => .error (0, .unclosedCData)
  | c :: _ =>
    if c = 'D' ∨ c = 'd' then
      match doctypeContent? 0 cs with
      | none => .error (0, .unclosedDoctype)
      | some content =>
        if (content.take 7).map Char.toUpper = "DOCTYPE".toList then
          let name := skipSpaces (content.drop 7)
          if name.isEmpty then .error (Utf8.size content + 2, .missingDoctypeName)
          else .ok (.doctype (String.ofList name), content.length + 1)
        else .error (0, .unclosedDoctype)
    else .error (0, .invalidBangMarkup)
  | [] => .error (0, .invalidBangMarkup)

/-- The token after `<?` and the characters it takes. -/
def readInstruction (cs : List Char) : Except Breach (Token × Nat) :=
  match if cs.head? = some '>' then none else Text.cut? "?>".toList cs with
  | none => .error (0, .unclosedInstruction)
  | some (content, _) =>
    let text := String.ofList content
    .ok (if isDeclaration content then .declaration text else .instruction text,
      content.length + 2)

/-- The token after `</` and the characters it takes, where `openName` is the element open. -/
def readEnd (openName : Option String) (cs : List Char) : Except Breach (Token × Nat) :=
  match tagContent? none cs with
  | none => .error (0, .unclosedTag)
  | some content =>
    match openName with
    | none => .error (0, .unmatchedEndTag)
    | some expected =>
      if endName content = expected then .ok (.endTag expected, content.length + 1)
      else .error (0, .mismatchedEndTag)

/-- The token at the head of `c :: cs`, and how many characters of `cs` belong to it. -/
def next (openName : Option String) (c : Char) (cs : List Char) :
    Except Breach (Token × Nat) :=
  if c = '<' then
    match cs with
    | [] => .error (0, .unclosedTag)
    | '!' :: rest => (readBang rest).map fun (t, n) => (t, n + 1)
    | '?' :: rest => (readInstruction rest).map fun (t, n) => (t, n + 1)
    | '/' :: rest => (readEnd openName rest).map fun (t, n) => (t, n + 1)
    | _ =>
      match tagContent? none cs with
      | none => .error (0, .unclosedTag)
      | some content => .ok (ofTagContent content, content.length + 1)
  else
    let more := cs.takeWhile (· != '<')
    .ok (.text (String.ofList (c :: more)), more.length)

/-- The names of the open elements after a token, innermost first. -/
def openAfter (names : List String) : Token → List String
  | .startTag tag => tag.name :: names
  | .endTag _ => names.tail
  | _ => names

/-- Reads the tokens of a text that begins at the byte offset `position`, inside the elements
    `names`. -/
def scanFrom (names : List String) (position : Nat) : List Char → Scan
  | [] => ⟨[], none⟩
  | c :: cs =>
    match next names.head? c cs with
    | .error (offset, fault) => ⟨[], some (position + offset, fault)⟩
    | .ok (token, n) =>
      let stop := position + Utf8.size (c :: cs.take n)
      let rest := scanFrom (openAfter names token) stop (cs.drop n)
      ⟨⟨token, position, stop⟩ :: rest.lexemes, rest.fault⟩
termination_by cs => cs.length
decreasing_by
  simp only [List.length_drop, List.length_cons]
  omega

/-- Reads the tokens of a document. A byte order mark at its head is passed over, and the offsets
    do not count it. -/
def scan (text : String) : Scan :=
  match text.toList with
  | '\uFEFF' :: cs => scanFrom [] 0 cs
  | cs => scanFrom [] 0 cs

end Token

end MavenPom.Markup
