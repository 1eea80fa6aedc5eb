import MavenPom.Markup.Reference
import MavenPom.Markup.Token

/-!
# Tokens of well-formed documents

The strict reading of markup: XML 1.0 names and characters, references and attribute values,
without a document type. Where the lenient reading passes over a breach of form, this one fails.
-/

namespace MavenPom.Markup.Strict

/-- The characters that XML 1.0 admits, as far as they are not surrogates. -/
def isXmlChar (c : Char) : Bool :=
  if c.toNat < 0x20 then isSpace c else c.toNat != 0xFFFE && c.toNat != 0xFFFF

/-- The ranges beyond ASCII of the characters that a name may begin with. -/
def nameStartRanges : List (Nat × Nat) :=
  [(0xC0, 0xD6), (0xD8, 0xF6), (0xF8, 0x2FF), (0x370, 0x37D), (0x37F, 0x1FFF), (0x200C, 0x200D),
    (0x2070, 0x218F), (0x2C00, 0x2FEF), (0x3001, 0xD7FF), (0xF900, 0xFDCF), (0xFDF0, 0xFFFD),
    (0x10000, 0xEFFFF)]

def inRanges (ranges : List (Nat × Nat)) (c : Char) : Bool :=
  ranges.any fun (low, high) => low ≤ c.toNat && c.toNat ≤ high

/-- The characters that a name may begin with. -/
def isNameStart (c : Char) : Bool :=
  c.isAlpha || c == ':' || c == '_' || inRanges nameStartRanges c

/-- The characters that a name may hold. -/
def isNameChar (c : Char) : Bool :=
  isNameStart c || c.isDigit || c == '-' || c == '.' || c == '\u00B7' ||
    inRanges [(0x300, 0x36F), (0x203F, 0x2040)] c

/-- A name with the part before its colon, which is empty where there is none. -/
structure QName where
  space : String
  name : String
  deriving DecidableEq, Repr

/-- The qualified name that characters spell. -/
def qName? (cs : List Char) : Option QName :=
  let (space, name) := (Text.cut? [':'] cs).getD ([], cs)
  if name.contains ':' || !name.head?.any isNameStart || !space.head?.all isNameStart then none
  else some ⟨String.ofList space, String.ofList name⟩

structure Attribute where
  name : QName
  value : String
  deriving DecidableEq, Repr

inductive Token where
  | startTag (name : QName) (attributes : List Attribute)
  | emptyTag (name : QName) (attributes : List Attribute)
  | endTag (name : QName)
  /-- Characters as written, and the text that they stand for. -/
  | text (raw content : String)
  | cdata (content : String)
  /-- A comment or an instruction. -/
  | aside
  deriving DecidableEq, Repr

/-- What a reference stands for: a predefined entity, or a character by number, where a number
    that is no character's counts as U+FFFD. -/
def referent? (name : List Char) : Option Char :=
  if name.head? = some '#' then
    (codePoint? name).bind fun n =>
      let c := if n.isValidChar then Char.ofNat n else '\uFFFD'
      if n < 0x100000000 ∧ isXmlChar c then some c else none
  else entity? (String.ofList name)

/-- A reader of lines that have any of the three line breaks: what it has read, last first. -/
abbrev Lines := List Char

/-- Takes a character, and a line break whole once what follows it is known. -/
def Lines.take (read : Lines) (c : Char) (isLast : Bool) : Lines :=
  let read' : Lines := match read with
    | '\r' :: rest => if c = '\n' then '\n' :: rest else c :: '\n' :: rest
    | _ => c :: read
  match read' with
  | '\r' :: rest => if isLast then '\n' :: rest else read'
  | _ => read'

/-- Text with each line break as one `\n`. A referenced character stands as it is, and so does
    the one after it. -/
def normalizeLines : Lines → Bool → List (Char × Bool) → Lines
  | read, _, [] => read
  | read, _, (c, true) :: cs => normalizeLines (c :: read) true cs
  | read, true, (c, false) :: cs => normalizeLines (c :: read) false cs
  | read, false, (c, false) :: cs => normalizeLines (read.take c cs.isEmpty) false cs

/-- An attribute's value with each line break and tab as one space. -/
def normalizeValue : List (Char × Bool) → List Char
  | [] => []
  | (c, true) :: cs => c :: normalizeValue cs
  | (c, false) :: cs =>
    if c = '\r' ∧ cs.head? = some ('\n', false) then normalizeValue cs
    else (if isSpace c then ' ' else c) :: normalizeValue cs

/-- The text that characters between markup stand for. -/
def textOf? (cs : List Char) : Option String :=
  if !cs.all isXmlChar || (Text.cut? "]]>".toList cs).isSome then none
  else (expand referent? cs).map fun read => String.ofList (normalizeLines [] false read).reverse

/-- The text of a CDATA section. -/
def cdataOf? (cs : List Char) : Option String :=
  if !cs.all isXmlChar then none
  else some (String.ofList (normalizeLines [] false (cs.map fun c => (c, false))).reverse)

/-- The value that characters between quotes stand for. -/
def valueOf? (cs : List Char) : Option String :=
  if !cs.all isXmlChar || cs.contains '<' then none
  else (expand referent? cs).map fun read => String.ofList (normalizeValue read)

/-- The characters of the name at the head of a text, and what follows it. -/
def splitName (cs : List Char) : List Char × List Char :=
  (cs.takeWhile isNameChar, cs.dropWhile isNameChar)

/-- The attribute at the head of a text, its name and the characters of its value, and what
    follows it. -/
def attribute? (cs : List Char) : Option ((List Char × List Char) × List Char) :=
  let (name, rest) := splitName cs
  match skipSpaces rest with
  | '=' :: rest =>
    match skipSpaces rest with
    | quote :: body =>
      if quote = '"' ∨ quote = '\'' then
        (Text.cut? [quote] body).map fun (value, rest) => ((name, value), rest)
      else none
    | [] => none
  | _ => none

theorem attribute?_length_lt {cs rest : List Char} {pair : List Char × List Char}
    (h : attribute? cs = some (pair, rest)) : rest.length < cs.length := by
  unfold attribute? splitName at h
  simp only at h
  split at h
  · next afterEquals hequals =>
    have hname := (List.dropWhile_sublist isNameChar (l := cs)).length_le
    have hskip := Markup.Attribute.skipSpaces_length_le (cs.dropWhile isNameChar)
    rw [hequals, List.length_cons] at hskip
    split at h
    · next quote body hquote =>
      have hvalue := Markup.Attribute.skipSpaces_length_le afterEquals
      rw [hquote, List.length_cons] at hvalue
      split at h
      · obtain ⟨cut, hcut, heq⟩ := Option.map_eq_some_iff.mp h
        obtain ⟨value, after⟩ := cut
        obtain ⟨-, rfl⟩ := Prod.mk.inj heq
        have := congrArg List.length (Text.eq_of_cut? hcut)
        simp only [List.length_append] at this ⊢
        omega
      · exact absurd h (by simp)
    · exact absurd h (by simp)
  · exact absurd h (by simp)

/-- The attributes in the inside of a tag. Each stands after white space. -/
def attributes? (cs : List Char) : Option (List Attribute) :=
  match _hskip : skipSpaces cs with
  | [] => some []
  | c :: rest =>
    if !cs.head?.any isSpace then none
    else
      match _hread : attribute? (c :: rest) with
      | none => none
      | some ((name, value), after) =>
        match qName? name, valueOf? value, attributes? after with
        | some name, some value, some more => some (⟨name, value⟩ :: more)
        | _, _, _ => none
termination_by cs.length
decreasing_by
  have hread := attribute?_length_lt _hread
  have hskip := Markup.Attribute.skipSpaces_length_le cs
  rw [_hskip] at hskip
  exact Nat.lt_of_lt_of_le hread hskip

/-- The tag whose inside is given. -/
def tag? (content : List Char) : Option Token :=
  let closed := content.getLast? = some '/'
  let (name, rest) := splitName (if closed then content.dropLast else content)
  match qName? name, attributes? rest with
  | some name, some attributes =>
    some (if closed then .emptyTag name attributes else .startTag name attributes)
  | _, _ => none

/-- The token after `<!` and the characters it takes. -/
def bang? (cs : List Char) : Option (Token × Nat) :=
  match Text.strip? "--".toList cs with
  | some rest =>
    (Text.cut? "-->".toList rest).bind fun (content, _) =>
      if content.all isXmlChar && (Text.cut? "--".toList content).isNone &&
          content.getLast? != some '-' then
        some (.aside, content.length + 5)
      else none
  | none =>
    ((Text.strip? "[CDATA[".toList cs).bind (Text.cut? "]]>".toList)).bind fun (content, _) =>
      (cdataOf? content).map fun text => (.cdata text, content.length + 10)

/-- The instruction after `<?` and the characters it takes. The XML declaration is none. -/
def instruction? (cs : List Char) : Option (Token × Nat) :=
  let (name, rest) := splitName cs
  if !name.head?.any isNameStart || (name = "xml".toList ∧ rest.head? = some ' ') then none
  else
    (Text.cut? "?>".toList rest).bind fun (content, _) =>
      if content.all isXmlChar then some (.aside, name.length + content.length + 2) else none

/-- The end tag whose inside is given. -/
def endTag? (content : List Char) : Option Token :=
  let (name, rest) := splitName content
  if skipSpaces rest = [] then (qName? name).map .endTag else none

/-- The token at the head of `c :: cs`, and how many characters of `cs` belong to it. -/
def next? (c : Char) (cs : List Char) : Option (Token × Nat) :=
  if c = '<' then
    match cs with
    | [] => none
    | '!' :: rest => (bang? rest).map fun (t, n) => (t, n + 1)
    | '?' :: rest => (instruction? rest).map fun (t, n) => (t, n + 1)
    | '/' :: rest =>
      (Text.cut? ['>'] rest).bind fun (content, _) =>
        (endTag? content).map fun t => (t, content.length + 2)
    | _ =>
      (Markup.Token.tagContent? none cs).bind fun content =>
        (tag? content).map fun t => (t, content.length + 1)
  else
    let more := cs.takeWhile (· != '<')
    (textOf? (c :: more)).map fun text => (.text (String.ofList (c :: more)) text, more.length)

/-- The tokens of a text, if each of them is well-formed. -/
def tokens? : List Char → Option (List Token)
  | [] => some []
  | c :: cs =>
    (next? c cs).bind fun (token, n) => (tokens? (cs.drop n)).map (token :: ·)
termination_by cs => cs.length
decreasing_by
  simp only [List.length_drop, List.length_cons]
  omega

end MavenPom.Markup.Strict
