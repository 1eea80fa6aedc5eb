import MavenPom.Shell.Octets
import MavenPom.Text.Number

/-!
# Masks of permissions

Which permissions new files do not get. A mask has three bits for each of three classes of users. It
is written in octal digits, or as changes to the permissions that it leaves.
-/

namespace MavenPom.Shell.Mode

inductive Fault where
  | illegalNumber
  | illegalMode
  deriving DecidableEq, Repr

def Fault.message (text : String) : Fault → String
  | .illegalNumber => "Illegal number: " ++ text
  | .illegalMode => "Illegal mode: " ++ text

/-- All permissions of all classes. -/
def full : Nat := 0o777

/-- What a mask leaves, and what a mask has to be that leaves some permissions. -/
def complement (n : Nat) : Nat := full ^^^ (n &&& full)

/-- The lowest bits of the classes that letters stand for, together. -/
def classBits : List Char → Nat
  | [] => 0
  | c :: rest =>
    (match c with
      | 'a' => 0o111
      | 'u' => 0o100
      | 'g' => 0o010
      | _ => 0o001) ||| classBits rest

/-- The three bits that letters stand for, where some stand for what a class has. -/
def permissionBits (left : Nat) : List Char → Nat
  | [] => 0
  | c :: rest =>
    (match c with
      | 'r' => 4
      | 'w' => 2
      | 'x' => 1
      | 'u' => left >>> 6 &&& 7
      | 'g' => left >>> 3 &&& 7
      | 'o' => left &&& 7
      | 'X' => if left &&& 0o111 = 0 then 0 else 1
      | _ => 0) ||| permissionBits left rest

/-- What becomes of permissions when an operator is applied with some bits for some classes. -/
def apply (operator : Char) (classes bits now : Nat) : Nat :=
  let bits := bits * classes
  match operator with
  | '-' => now &&& complement bits
  | '=' => bits ||| (now &&& complement (classes * 7))
  | _ => now ||| bits

/-- The permissions after no more than a number of changes, given what was left before all of them
    and the classes that are being changed. -/
def changed? (left : Nat) : Nat → (classes now : Nat) → List Char → Option Nat
  | 0, _, now, _ => some now
  | _, _, now, [] => some now
  | n + 1, classes, now, cs =>
    let letters := cs.takeWhile "augo".toList.contains
    let named := classes ||| classBits letters
    let classes := if named = 0 then 0o111 else named
    match cs.drop letters.length with
    | [] => some now
    | operator :: rest =>
      if !"=+-".toList.contains operator then none
      else
        let granted := rest.takeWhile "rwxugoXs".toList.contains
        let now := apply operator classes (permissionBits left granted) now
        match rest.drop granted.length with
        | [] => some now
        | c :: more =>
          if c = ',' then changed? left n 0 now more
          else if "=+-".toList.contains c then changed? left n classes now (c :: more)
          else none

/-- The mask that a text asks for in place of another one. -/
def parse (mask : Nat) (text : String) : Except Fault Nat :=
  let cs := text.toList
  if (cs.head?.map Char.isDigit).getD false then
    match Text.number? 8 cs with
    | some n => .ok (n &&& full)
    | none => .error .illegalNumber
  else
    match changed? (complement mask) (cs.length + 1) 0 (complement mask) cs with
    | some left => .ok (complement left)
    | none => .error .illegalMode

/-- The letters of three bits. -/
def letters (bits : Nat) : String :=
  (if bits &&& 4 = 0 then "" else "r") ++ (if bits &&& 2 = 0 then "" else "w") ++
    (if bits &&& 1 = 0 then "" else "x")

/-- What a mask leaves to each class, in letters. -/
def symbolic (mask : Nat) : String :=
  let left := complement mask
  "u=" ++ letters (left >>> 6) ++ ",g=" ++ letters (left >>> 3) ++ ",o=" ++ letters left

/-- A mask in four octal digits. -/
def octal (mask : Nat) : String :=
  let digits := Nat.toDigits 8 mask
  String.ofList (List.replicate (4 - digits.length) '0' ++ digits)

end MavenPom.Shell.Mode
