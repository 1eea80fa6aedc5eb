import MavenPom.Shell.Arithmetic
import MavenPom.Text.Blank

/-!
# Floating-point numbers

Numbers of 64 bits with a point. They are read as the nearest to what is written, and printed
exactly with a number of decimal places.
-/

namespace MavenPom.Shell

/-- A number that is not negative, as a quotient. -/
structure Ratio where
  numerator : Nat
  denominator : Nat
  deriving DecidableEq, Repr

namespace Ratio

def zero : Ratio := ⟨0, 1⟩

/-- A number times a power. -/
def scale (r : Ratio) (base : Nat) : Int → Ratio
  | .ofNat n => ⟨r.numerator * Nat.pow base n, r.denominator⟩
  | .negSucc n => ⟨r.numerator, r.denominator * Nat.pow base (n + 1)⟩

/-- The nearest whole number, and the even one of two. -/
def round (r : Ratio) : Nat :=
  let whole := r.numerator / r.denominator
  let twice := 2 * (r.numerator % r.denominator)
  if twice < r.denominator ∨ (twice = r.denominator ∧ whole % 2 = 0) then whole else whole + 1

/-- The greatest power that a number other than zero reaches, if its numerator and denominator reach
    two given ones. -/
def power (base high low : Nat) (r : Ratio) : Int :=
  let n := Int.ofNat high - Int.ofNat low
  let scaled := r.scale base (-n)
  if scaled.numerator < scaled.denominator then n - 1 else n

def power2 (r : Ratio) : Int := power 2 r.numerator.log2 r.denominator.log2 r

def power10 (r : Ratio) : Int :=
  power 10 (Nat.toDigits 10 r.numerator).length (Nat.toDigits 10 r.denominator).length r

end Ratio

inductive Magnitude where
  | finite (r : Ratio)
  | infinite
  | undefined
  deriving DecidableEq, Repr

structure Floating where
  negative : Bool
  magnitude : Magnitude
  deriving DecidableEq, Repr

/-- A magnitude that a text writes, and whether the numbers of 64 bits have it. They do not have
    greater ones, and are not dense enough for small ones. -/
structure Measure where
  magnitude : Magnitude
  inRange : Bool
  deriving DecidableEq, Repr

/-- What a text begins with. -/
structure FloatingText where
  value : Floating
  inRange : Bool
  rest : List Char
  deriving DecidableEq, Repr

namespace Measure

def zero : Measure := ⟨.finite .zero, true⟩

def tooSmall : Measure := ⟨.finite .zero, false⟩

def tooGreat : Measure := ⟨.infinite, false⟩

/-- The nearest number with a mantissa of 53 bits. One with a smaller mantissa is in range only if
    nothing is lost. -/
def nearest (r : Ratio) : Measure :=
  if r.numerator = 0 then .zero
  else
    let exponent := max (r.power2 - 52) (-1074)
    let mantissa := (r.scale 2 (-exponent)).round
    if 971 < exponent ∨ (exponent = 971 ∧ Nat.pow 2 53 ≤ mantissa) then .tooGreat
    else
      let found := Ratio.scale ⟨mantissa, 1⟩ 2 exponent
      let exact := found.numerator * r.denominator = r.numerator * found.denominator
      ⟨.finite found, exact ∨ -1022 ≤ r.power2⟩

/-! ## Reading -/

/-- The exponent after a mark, a small letter, and what is left. -/
def exponentAfter (letter : Char) (cs : List Char) : Int × List Char :=
  match cs with
  | mark :: rest =>
    if mark.toLower ≠ letter then (0, cs)
    else
      let (negative, digits) := match rest with
        | '-' :: digits => (true, digits)
        | '+' :: digits => (false, digits)
        | _ => (false, rest)
      if (digits.head?.map Char.isDigit).getD false then
        let (n, left) := leadingDigits 10 digits
        (if negative then -Int.ofNat n else Int.ofNat n, left)
      else (0, cs)
  | [] => (0, [])

/-- The number with a decimal exponent. An exponent far beyond all numbers is cut. -/
def ofDecimal (digits places : List Char) (exponent : Int) : Measure :=
  let mantissa := (Text.number? 10 (digits ++ places)).getD 0
  let exponent := exponent - Int.ofNat places.length
  let size := Int.ofNat (Nat.toDigits 10 mantissa).length + exponent
  if mantissa = 0 then .zero
  else if size < -400 then .tooSmall
  else if 400 < size then .tooGreat
  else nearest (Ratio.scale ⟨mantissa, 1⟩ 10 exponent)

/-- The number with a binary exponent after hexadecimal digits. An exponent beyond all numbers is
    cut. -/
def ofHexadecimal (digits places : List Char) (exponent : Int) : Measure :=
  let mantissa := (Text.number? 16 (digits ++ places)).getD 0
  let exponent := exponent - 4 * Int.ofNat places.length
  let size := Int.ofNat (Nat.log2 mantissa) + exponent
  if mantissa = 0 then .zero
  else if size < -1100 then .tooSmall
  else if 1100 < size then .tooGreat
  else nearest (Ratio.scale ⟨mantissa, 1⟩ 2 exponent)

/-- The digits that a text begins with, those after a point, and what is left, if there are any
    digits. -/
def digitsAndPlaces? (base : Nat) (cs : List Char) : Option (List Char × List Char × List Char) :=
  let isDigit (c : Char) : Bool := (Text.digit? base c).isSome
  let digits := cs.takeWhile isDigit
  let (places, rest) := match cs.drop digits.length with
    | '.' :: rest => (rest.takeWhile isDigit, rest.dropWhile isDigit)
    | rest => ([], rest)
  if digits.isEmpty ∧ places.isEmpty then none else some (digits, places, rest)

/-- The names of numbers that are not finite, of two that begin alike the longer one first. -/
def specialNames : List (String × Magnitude) :=
  [("infinity", .infinite), ("inf", .infinite), ("nan", .undefined)]

/-- The magnitude that a text begins with, and what is left. -/
def leading? (cs : List Char) : Option (Measure × List Char) :=
  match specialNames.find? fun s => s.1.toList.isPrefixOf (cs.map Char.toLower) with
  | some (name, m) => some (⟨m, true⟩, cs.drop name.length)
  | none =>
    let hexadecimal? := match cs with
      | '0' :: x :: rest => if x.toLower = 'x' then digitsAndPlaces? 16 rest else none
      | _ => none
    match hexadecimal? with
    | some (digits, places, rest) =>
      let (exponent, rest) := exponentAfter 'p' rest
      some (ofHexadecimal digits places exponent, rest)
    | none =>
      (digitsAndPlaces? 10 cs).map fun (digits, places, rest) =>
        let (exponent, rest) := exponentAfter 'e' rest
        (ofDecimal digits places exponent, rest)

end Measure

namespace Floating

/-- The number that a text begins with, perhaps after blanks and a sign. -/
def leading? (cs : List Char) : Option FloatingText :=
  let (negative, cs) := match cs.dropWhile isSpace with
    | '-' :: rest => (true, rest)
    | '+' :: rest => (false, rest)
    | rest => (false, rest)
  (Measure.leading? cs).map fun (m, rest) => ⟨⟨negative, m.magnitude⟩, m.inRange, rest⟩

/-! ## Printing -/

/-- Digits before a point and those after it, with the point if there are any or if it is kept. -/
def pointed (kept : Bool) (digits places : List Char) : List Char :=
  if places.isEmpty ∧ ¬kept then digits else digits ++ '.' :: places

/-- A number with a number of decimal places. -/
def fixed (kept : Bool) (r : Ratio) (places : Nat) : List Char :=
  let digits := Nat.toDigits 10 (r.scale 10 (Int.ofNat places)).round
  let digits := List.replicate (places + 1 - digits.length) '0' ++ digits
  pointed kept (digits.take (digits.length - places)) (digits.drop (digits.length - places))

/-- The digits of a number with one before the point, and its decimal exponent. -/
def digitsOf (r : Ratio) (places : Nat) : List Char × Int :=
  if r.numerator = 0 then (List.replicate (places + 1) '0', 0)
  else
    let power := r.power10
    let digits := Nat.toDigits 10 (r.scale 10 (Int.ofNat places - power)).round
    (digits.take (places + 1), power + Int.ofNat (digits.length - (places + 1)))

/-- A decimal exponent, with two digits at least. -/
def printedExponent (power : Int) : List Char :=
  let digits := Nat.toDigits 10 power.natAbs
  (if power < 0 then '-' else '+') :: (List.replicate (2 - digits.length) '0' ++ digits)

/-- A number with one digit before the point and an exponent. -/
def scientific (kept : Bool) (r : Ratio) (places : Nat) : List Char :=
  let (digits, power) := digitsOf r places
  pointed kept (digits.take 1) (digits.drop 1) ++ 'e' :: printedExponent power

/-- A number without the zeros at the end of its decimal places. -/
def trimmed (cs : List Char) : List Char :=
  let mantissa := cs.takeWhile (· != 'e')
  let shorter := if mantissa.contains '.' then
      Text.dropEndWhile (· == '.') (Text.dropEndWhile (· == '0') mantissa)
    else mantissa
  shorter ++ cs.drop mantissa.length

/-- A number with a number of digits, in the shorter one of both ways. -/
def general (kept : Bool) (r : Ratio) (size : Nat) : List Char :=
  let size := max size 1
  let power := (digitsOf r (size - 1)).2
  let cs := if power < -4 ∨ Int.ofNat size ≤ power then scientific kept r (size - 1)
    else fixed kept r (Int.ofNat size - 1 - power).toNat
  if kept then cs else trimmed cs

/-- A number with one hexadecimal digit before the point and a binary exponent, with as many
    hexadecimal places as are asked for or needed. -/
def hexadecimal (kept : Bool) (r : Ratio) (places : Option Nat) : List Char :=
  let power := if r.numerator = 0 then 0 else max r.power2 (-1022)
  let shown := min (places.getD 13) 13
  let digits := Nat.toDigits 16 (r.scale 2 (4 * Int.ofNat shown - power)).round
  let digits := List.replicate (shown + 1 - digits.length) '0' ++ digits
  let before := digits.take (digits.length - shown)
  let after := digits.drop (digits.length - shown)
  let after := match places with
    | none => Text.dropEndWhile (· == '0') after
    | some places => after ++ List.replicate (places - shown) '0'
  pointed kept before after ++ 'p' :: (if power < 0 then '-' else '+') ::
    Nat.toDigits 10 power.natAbs

end Floating

end MavenPom.Shell
