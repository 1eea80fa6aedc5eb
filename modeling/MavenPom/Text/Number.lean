/-!
# Numbers in text

Reading unsigned numbers. A number with no digits is none.
-/

namespace MavenPom.Text

/-- The value of a digit below `base`, in either case. -/
def digit? (base : Nat) (c : Char) : Option Nat :=
  let value :=
    if c.isDigit then c.toNat - '0'.toNat
    else if 'a' ≤ c ∧ c ≤ 'f' then c.toNat - 'a'.toNat + 10
    else if 'A' ≤ c ∧ c ≤ 'F' then c.toNat - 'A'.toNat + 10
    else base
  if value < base then some value else none

/-- The number that a non-empty sequence of digits writes. -/
def number? (base : Nat) (cs : List Char) : Option Nat :=
  if cs.isEmpty then none
  else cs.foldlM (fun n c => (digit? base c).map (n * base + ·)) 0

/-- A decimal number below 2^64. -/
def word64? (cs : List Char) : Option Nat :=
  (number? 10 cs).filter (· < UInt64.size)

/-- A decimal number below 2^64, perhaps after a plus sign. -/
def signedWord64? : List Char → Option Nat
  | '+' :: cs => word64? cs
  | cs => word64? cs

/-- Whether a text is a decimal number, perhaps with a sign, a fraction and an exponent, or the name
    of infinity or of what is no number. -/
def isFloat (cs : List Char) : Bool :=
  let cs := match cs with
    | '-' :: rest => rest
    | '+' :: rest => rest
    | _ => cs
  let whole := cs.takeWhile Char.isDigit
  let rest := cs.drop whole.length
  let (places, rest) := match rest with
    | '.' :: rest => (rest.takeWhile Char.isDigit, rest.dropWhile Char.isDigit)
    | _ => ([], rest)
  let exponent := match rest with
    | [] => true
    | mark :: '-' :: digits => isExponent mark digits
    | mark :: '+' :: digits => isExponent mark digits
    | mark :: digits => isExponent mark digits
  ["inf", "infinity", "nan"].contains (String.ofList (cs.map Char.toLower)) ||
    (!(whole.isEmpty && places.isEmpty) && exponent)
where
  isExponent (mark : Char) (digits : List Char) : Bool :=
    (mark == 'e' || mark == 'E') && !digits.isEmpty && digits.all Char.isDigit

end MavenPom.Text
