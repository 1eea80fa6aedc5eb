import MavenPom.Text.Utf8

/-!
# Text as bytes

Scripts and programs work on bytes, whatever these may mean. Their texts have one character for each
byte, so that a length counts bytes and any output can be text.
-/

namespace MavenPom.Shell

/-- Bytes as text. -/
def ofBytes (bytes : Bytes) : List Char := bytes.map fun b => Char.ofNat b.toNat

/-- The bytes of a text. -/
def toBytes (cs : List Char) : Bytes := cs.map fun c => c.toNat.toUInt8

/-- A text from outside as the text of its bytes. -/
def octets (s : String) : String := String.ofList (ofBytes (Utf8.encode s.toList))

def isNameStart (c : Char) : Bool := c.isAlpha || c == '_'

def isNameChar (c : Char) : Bool := c.isAlphanum || c == '_'

/-- Whether a text can name a variable or a function. -/
def isName (cs : List Char) : Bool := (cs.head?.map isNameStart).getD false && cs.all isNameChar

end MavenPom.Shell
