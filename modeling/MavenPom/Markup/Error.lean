/-!
# What is wrong with a document

The causes for which bytes are not a readable markup document, and their wording.
-/

namespace MavenPom.Markup

/-- A breach of the markup's form that stops reading. -/
inductive Fault where
  /-- A `<!` that opens neither a comment nor a CDATA section nor a document type. -/
  | invalidBangMarkup
  | unclosedComment
  | unclosedCData
  | unclosedDoctype
  | unclosedInstruction
  | unclosedTag
  /-- An end tag whose name is not that of the open element. -/
  | mismatchedEndTag
  /-- An end tag with no element open. -/
  | unmatchedEndTag
  /-- A document type declaration that names nothing. -/
  | missingDoctypeName
  deriving DecidableEq, Repr

/-- Why a document cannot be used. Positions are byte offsets into its text. -/
inductive Error where
  | malformed (position : Nat) (fault : Fault)
  /-- The attributes of the tag at `position` cannot be read. -/
  | attribute (position : Nat)
  | unclosed (name : String)
  | noRootElement
  /-- The bytes are not text in the charset that they were found to be in. -/
  | undecodable (charset : String)
  | unsupportedEncoding (label : String)
  deriving DecidableEq, Repr

/-- The error as it is reported. -/
def Error.message : Error → String
  | .malformed position _ => "malformed XML at byte " ++ toString position
  | .attribute position => "malformed attribute at byte " ++ toString position
  | .unclosed name => "unclosed element \x60" ++ name ++ "\x60 at end of document"
  | .noRootElement => "document has no root element"
  | .undecodable charset => "bytes are not valid " ++ charset
  | .unsupportedEncoding label => "unsupported encoding \x60" ++ label ++ "\x60"

end MavenPom.Markup
