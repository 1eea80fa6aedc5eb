import MavenPom.Markup.Error
import MavenPom.Text.Cut
import MavenPom.Text.Utf16
import MavenPom.Text.Utf8

/-!
# Charsets

The encodings a document may use, the labels that name them, and the tables of the single-byte ones.
Labels and tables are those of the WHATWG Encoding Standard, where the labels of Latin-1 and ASCII
mean windows-1252. The charset of a document is told from its bytes: a byte order mark wins, then
the encoding that the XML declaration names, then UTF-8 where the bytes are that, and windows-1252
otherwise. The charset keeps whether there was a mark, so that encoding restores it.

Of the standard's legacy encodings these three are covered. The labels of the others, such as
ISO-2022-JP and Shift_JIS, are unsupported, and bytes that are neither UTF-8 nor marked nor declared
are not examined for the language that they may be in.
-/

namespace MavenPom.Charset

/-! ## Encodings -/

inductive Encoding where
  | utf8
  | utf16 (order : Utf16.ByteOrder)
  | windows1252
  | iso8859_15
  | windows1251
  deriving DecidableEq, Repr

namespace Encoding

/-- The standard's name of the encoding. -/
def name : Encoding → String
  | .utf8 => "UTF-8"
  | .utf16 .little => "UTF-16LE"
  | .utf16 .big => "UTF-16BE"
  | .windows1252 => "windows-1252"
  | .iso8859_15 => "ISO-8859-15"
  | .windows1251 => "windows-1251"

/-- The labels of each encoding, in lower case. -/
def labels : List (Encoding × List String) :=
  [(.utf8, ["unicode-1-1-utf-8", "unicode11utf8", "unicode20utf8", "utf-8", "utf8",
      "x-unicode20utf8"]),
    (.utf16 .big, ["unicodefffe", "utf-16be"]),
    (.utf16 .little, ["csunicode", "iso-10646-ucs-2", "ucs-2", "unicode", "unicodefeff", "utf-16",
      "utf-16le"]),
    (.windows1252, ["ansi_x3.4-1968", "ascii", "cp1252", "cp819", "csisolatin1", "ibm819",
      "iso-8859-1", "iso-ir-100", "iso8859-1", "iso88591", "iso_8859-1", "iso_8859-1:1987", "l1",
      "latin1", "us-ascii", "windows-1252", "x-cp1252"]),
    (.iso8859_15, ["csisolatin9", "iso-8859-15", "iso8859-15", "iso885915", "iso_8859-15", "l9"]),
    (.windows1251, ["cp1251", "windows-1251", "x-cp1251"])]

/-- The encoding that a label names, in any case of its ASCII letters. -/
def ofLabel? (label : String) : Option Encoding :=
  (labels.find? fun entry => entry.2.contains label.toLower).map (·.1)

/-- The code points from `first`, `count` of them. -/
def codesFrom (first count : Nat) : List Nat :=
  (List.range count).map (first + ·)

/-- The code points of the bytes from 0x80 in windows-1252. -/
def windows1252Upper : List Nat :=
  [0x20AC, 0x81, 0x201A, 0x192, 0x201E, 0x2026, 0x2020, 0x2021,
    0x2C6, 0x2030, 0x160, 0x2039, 0x152, 0x8D, 0x17D, 0x8F,
    0x90, 0x2018, 0x2019, 0x201C, 0x201D, 0x2022, 0x2013, 0x2014,
    0x2DC, 0x2122, 0x161, 0x203A, 0x153, 0x9D, 0x17E, 0x178] ++ codesFrom 0xA0 96

/-- The code points of the bytes from 0x80 in ISO-8859-15. -/
def iso8859_15Upper : List Nat :=
  codesFrom 0x80 36 ++ [0x20AC, 0xA5, 0x160, 0xA7, 0x161] ++ codesFrom 0xA9 11 ++
    [0x17D, 0xB5, 0xB6, 0xB7, 0x17E, 0xB9, 0xBA, 0xBB, 0x152, 0x153, 0x178] ++ codesFrom 0xBF 65

/-- The code points of the bytes from 0x80 in windows-1251. -/
def windows1251Upper : List Nat :=
  [0x402, 0x403, 0x201A, 0x453, 0x201E, 0x2026, 0x2020, 0x2021,
    0x20AC, 0x2030, 0x409, 0x2039, 0x40A, 0x40C, 0x40B, 0x40F,
    0x452, 0x2018, 0x2019, 0x201C, 0x201D, 0x2022, 0x2013, 0x2014,
    0x98, 0x2122, 0x459, 0x203A, 0x45A, 0x45C, 0x45B, 0x45F,
    0xA0, 0x40E, 0x45E, 0x408, 0xA4, 0x490, 0xA6, 0xA7,
    0x401, 0xA9, 0x404, 0xAB, 0xAC, 0xAD, 0xAE, 0x407,
    0xB0, 0xB1, 0x406, 0x456, 0x491, 0xB5, 0xB6, 0xB7,
    0x451, 0x2116, 0x454, 0xBB, 0x458, 0x405, 0x455, 0x457] ++ codesFrom 0x410 64

/-- Every table has a place for each of the 128 bytes. -/
theorem upper_length {upper : List Nat}
    (h : upper ∈ [windows1252Upper, iso8859_15Upper, windows1251Upper]) : upper.length = 128 := by
  simp only [List.mem_cons, List.not_mem_nil, or_false] at h
  rcases h with rfl | rfl | rfl <;> rfl

/-- The character of a byte: itself below 0x80, else the table's. -/
def decodeByte (upper : List Nat) (b : UInt8) : Char :=
  if b.toNat < 0x80 then Char.ofNat b.toNat
  else Char.ofNat (upper.getD (b.toNat - 0x80) 0)

/-- A decimal character reference, which stands for a character that a table lacks. -/
def reference (c : Char) : Bytes :=
  Utf8.encode ("&#".toList ++ (toString c.toNat).toList ++ [';'])

/-- The byte of a character, or its reference. -/
def encodeChar (upper : List Nat) (c : Char) : Bytes :=
  if c.toNat < 0x80 then [c.toNat.toUInt8]
  else
    match upper.idxOf? c.toNat with
    | some i => [(0x80 + i).toUInt8]
    | none => reference c

/-- The characters of bytes that are well-formed in the encoding. -/
def decode : Encoding → Bytes → Option (List Char)
  | .utf8, bytes => Utf8.decode bytes
  | .utf16 order, bytes => Utf16.decode order bytes
  | .windows1252, bytes => some (bytes.map (decodeByte windows1252Upper))
  | .iso8859_15, bytes => some (bytes.map (decodeByte iso8859_15Upper))
  | .windows1251, bytes => some (bytes.map (decodeByte windows1251Upper))

/-- The bytes of characters, with references for those that the encoding lacks. -/
def encode : Encoding → List Char → Bytes
  | .utf8, cs => Utf8.encode cs
  | .utf16 order, cs => Utf16.encode order cs
  | .windows1252, cs => cs.flatMap (encodeChar windows1252Upper)
  | .iso8859_15, cs => cs.flatMap (encodeChar iso8859_15Upper)
  | .windows1251, cs => cs.flatMap (encodeChar windows1251Upper)

end Encoding

end MavenPom.Charset

namespace MavenPom

/-! ## Detection -/

/-- An encoding, and whether the document began with a byte order mark. -/
structure Charset where
  encoding : Charset.Encoding
  bom : Bool
  deriving DecidableEq, Repr

namespace Charset

/-- UTF-8 without a mark. -/
def utf8 : Charset := ⟨.utf8, false⟩

def name (c : Charset) : String := c.encoding.name

/-- The byte order mark of an encoding; the single-byte ones have none. -/
def Encoding.mark : Encoding → Bytes
  | .utf8 => [0xEF, 0xBB, 0xBF]
  | .utf16 .little => [0xFF, 0xFE]
  | .utf16 .big => [0xFE, 0xFF]
  | _ => []

/-- The encoding whose mark the bytes begin with. -/
def ofMark? (bytes : Bytes) : Option Encoding :=
  [.utf8, .utf16 .big, .utf16 .little].find? fun e => e.mark.isPrefixOf bytes

/-- The characters of a charset's label. -/
def isLabelChar (c : Char) : Bool :=
  c.isAlphanum || c == '.' || c == '_' || c == ':' || c == '-'

def isQuote (c : Char) : Bool := c == '"' || c == '\''

/-- The label between quotes that text begins with. The quotes need not match. -/
def quotedLabel? : List Char → Option (List Char)
  | [] => none
  | quote :: cs =>
    let label := cs.takeWhile isLabelChar
    if isQuote quote && !label.isEmpty && ((cs.dropWhile isLabelChar).head?.any isQuote) then
      some label
    else none

/-- The value of an `encoding` pseudo-attribute that text begins with, after a blank. -/
def encodingAt? : List Char → Option (List Char)
  | [] => none
  | blank :: cs =>
    if Text.isBlank blank then
      match Text.strip? "encoding".toList cs with
      | none => none
      | some rest =>
        match rest.dropWhile Text.isBlank with
        | '=' :: value => quotedLabel? (value.dropWhile Text.isBlank)
        | _ => none
    else none

/-- The value of the first `encoding` pseudo-attribute before a `>`. -/
def findEncoding? : List Char → Option (List Char)
  | [] => none
  | c :: cs =>
    match encodingAt? (c :: cs) with
    | some label => some label
    | none => if c = '>' then none else findEncoding? cs

/-- The label that the XML declaration gives. Only the first 1024 bytes are looked at, as far as
    they are well-formed UTF-8. -/
def declaredLabel? (bytes : Bytes) : Option String :=
  let head := (Utf8.decodePrefix (bytes.take 1024)).dropWhile Text.isBlank
  ((Text.strip? "<?xml".toList head).bind findEncoding?).map String.ofList

/-- The charset of bytes that nothing marks or declares. -/
def undeclared (bytes : Bytes) : Charset :=
  if (Utf8.decode bytes).isSome then utf8 else ⟨.windows1252, false⟩

/-- The charset of a document. A declaration of UTF-16 could not be read in UTF-16, so without a
    mark it is not believed. -/
def detect (bytes : Bytes) : Except Markup.Error Charset :=
  match ofMark? bytes with
  | some encoding => .ok ⟨encoding, true⟩
  | none =>
    match declaredLabel? bytes with
    | none => .ok (undeclared bytes)
    | some label =>
      match Encoding.ofLabel? label with
      | none => .error (.unsupportedEncoding label)
      | some (.utf16 _) => .ok (undeclared bytes)
      | some encoding => .ok ⟨encoding, false⟩

/-- The text of a document, without its byte order mark. -/
def decode (c : Charset) (bytes : Bytes) : Except Markup.Error String :=
  let skipped := if c.bom then ((ofMark? bytes).map (·.mark.length)).getD 0 else 0
  match c.encoding.decode (bytes.drop skipped) with
  | some cs => .ok (String.ofList cs)
  | none => .error (.undecodable c.name)

/-- The bytes of a text, with the byte order mark if the charset has one. -/
def encode (c : Charset) (text : String) : Bytes :=
  (if c.bom then c.encoding.mark else []) ++ c.encoding.encode text.toList

end Charset

end MavenPom
