/-!
# White space

Unicode's `White_Space` property, and trimming by it. Everything that the library
trims, in XML content, coordinates, versions and options, is trimmed by this one class.
-/

namespace MavenPom.Text

/-- The characters with Unicode's `White_Space` property. -/
def isBlank (c : Char) : Bool :=
  let n := c.toNat
  (0x09 ≤ n && n ≤ 0x0D) || n == 0x20 || n == 0x85 || n == 0xA0 || n == 0x1680 ||
    (0x2000 ≤ n && n ≤ 0x200A) || n == 0x2028 || n == 0x2029 || n == 0x202F || n == 0x205F ||
    n == 0x3000

/-- Drops a final run of characters of the class `p`. -/
def dropEndWhile (p : Char → Bool) (cs : List Char) : List Char :=
  (cs.reverse.dropWhile p).reverse

/-- The characters without the blanks at either end. -/
def trimChars (cs : List Char) : List Char :=
  dropEndWhile isBlank (cs.dropWhile isBlank)

/-- The text without the blanks at either end. -/
def trim (s : String) : String :=
  String.ofList (trimChars s.toList)

/-- The text without the blanks at its end. -/
def trimEnd (s : String) : String :=
  String.ofList (dropEndWhile isBlank s.toList)

/-- The final run of blanks, which `trimEnd` removes. -/
def blankSuffix (s : String) : String :=
  String.ofList (s.toList.reverse.takeWhile isBlank).reverse

/-- Whether a text has no character that is not blank. -/
def isAllBlank (s : String) : Bool :=
  s.toList.all isBlank

/-- The text trimmed, if anything is left of it. -/
def trim? (s : String) : Option String :=
  let t := trim s
  if t.isEmpty then none else some t

/-- Every blank that the core library knows is a blank here. -/
theorem isBlank_of_isWhitespace {c : Char} (h : c.isWhitespace = true) : isBlank c = true := by
  simp only [Char.isWhitespace, Bool.or_eq_true, decide_eq_true_eq] at h
  rcases h with ((h | h) | h) | h <;> subst h <;> decide

/-- A text is its trimmed part followed by its final blanks. -/
theorem trimEnd_append_blankSuffix (s : String) : trimEnd s ++ blankSuffix s = s := by
  apply String.toList_injective
  rw [String.toList_append, trimEnd, blankSuffix, String.toList_ofList, String.toList_ofList,
    dropEndWhile, ← List.reverse_append, List.takeWhile_append_dropWhile, List.reverse_reverse]

end MavenPom.Text
