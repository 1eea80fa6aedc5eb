import MavenPom.Text.Cut
import MavenPom.Text.Number

/-!
# References

Character and entity references in content. `expand` replaces them under a rule that says what a
reference's name stands for; `unescape` is the lenient rule, and `escape` writes text so that it
reads back.
-/

namespace MavenPom.Markup

/-- The predefined entities. -/
def entity? (name : String) : Option Char :=
  match name with
  | "lt" => some '<'
  | "gt" => some '>'
  | "amp" => some '&'
  | "apos" => some '\''
  | "quot" => some '"'
  | _ => none

/-- The code point that the name of a character reference gives: `#` with decimal digits, or
    `#x` with hexadecimal ones. -/
def codePoint? : List Char → Option Nat
  | '#' :: 'x' :: digits => Text.number? 16 digits
  | '#' :: digits => Text.number? 10 digits
  | _ => none

/-- What a reference stands for: a predefined entity, or any character but U+0000 by number. -/
def referent? (name : List Char) : Option Char :=
  if name.head? = some '#' then
    (codePoint? name).bind fun n =>
      if n ≠ 0 ∧ n.isValidChar then some (Char.ofNat n) else none
  else entity? (String.ofList name)

/-- The characters of a reference's name, which ends before a `;`. -/
def isReferenceChar (c : Char) : Bool := c != '&' && c != ';'

/-- The content with its references replaced, each character marked when a reference stood for
    it. A reference that `rule` does not know, or one without its `;`, fails. -/
def expand (rule : List Char → Option Char) : List Char → Option (List (Char × Bool))
  | [] => some []
  | c :: cs =>
    if c = '&' then
      match rule (cs.takeWhile isReferenceChar), cs.dropWhile isReferenceChar with
      | some r, ';' :: _ =>
        (expand rule ((cs.dropWhile isReferenceChar).drop 1)).map ((r, true) :: ·)
      | _, _ => none
    else (expand rule cs).map ((c, false) :: ·)
termination_by cs => cs.length
decreasing_by
  · have := (List.dropWhile_sublist isReferenceChar (l := cs)).length_le
    simp only [List.length_drop, List.length_cons]
    omega
  · exact Nat.lt_succ_self _

/-- The content with its references replaced. -/
def unescape (raw : String) : Option String :=
  (expand referent? raw.toList).map fun cs => String.ofList (cs.map (·.1))

/-- The characters that stand for themselves nowhere in content. -/
def escapeChar : Char → List Char
  | '<' => "&lt;".toList
  | '>' => "&gt;".toList
  | '&' => "&amp;".toList
  | c => [c]

/-- Content that reads as the text. -/
def escape (text : String) : String :=
  String.ofList (text.toList.flatMap escapeChar)

end MavenPom.Markup
