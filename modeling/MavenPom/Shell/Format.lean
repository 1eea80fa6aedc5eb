import MavenPom.Shell.Floating

/-!
# Formatted output

Escapes in what is printed, and the directives of `printf`.
-/

namespace MavenPom.Shell.Format

def isOctal (c : Char) : Bool := (Text.digit? 8 c).isSome

/-- The byte that octal digits write. -/
def octalByte (digits : List Char) : Char :=
  Char.ofNat ((Text.number? 8 digits).getD 0).toUInt8.toNat

/-- The byte that an escape of one letter stands for. -/
def control? (c : Char) : Option Char :=
  match c with
  | '\\' => some '\\'
  | 'a' => some '\x07'
  | 'b' => some '\x08'
  | 'e' => some '\x1B'
  | 'f' => some '\x0C'
  | 'n' => some '\n'
  | 'r' => some '\r'
  | 't' => some '\t'
  | 'v' => some '\x0B'
  | _ => none

/-- The byte for a backslash with the text after it, and how many characters of the text belong to
    it. Three octal digits may follow a zero if `extended`. -/
def escape (extended : Bool) : List Char → Char × Nat
  | [] => ('\\', 0)
  | c :: rest =>
    if isOctal c then
      let most := if extended ∧ c = '0' then 4 else 3
      let digits := ((c :: rest).take most).takeWhile isOctal
      (octalByte digits, digits.length)
    else
      match control? c with
      | some b => (b, 1)
      | none => ('\\', 0)

/-- The byte that two hexadecimal digits write after an x, and how many characters that takes. -/
def hexadecimal? : List Char → Option (Char × Nat)
  | 'x' :: rest =>
    let digits := (rest.take 2).takeWhile fun c => (Text.digit? 16 c).isSome
    (Text.number? 16 digits).map fun n => (Char.ofNat n, digits.length + 1)
  | _ => none

/-- A text with its escapes, of which `skip` characters have been read, and whether the escape that
    ends all output is among them. There may be hexadecimal escapes. -/
def unescapeFrom (hexadecimal : Bool) : Nat → List Char → List Char × Bool
  | _, [] => ([], false)
  | skip + 1, _ :: rest => unescapeFrom hexadecimal skip rest
  | 0, '\\' :: rest =>
    if rest.head? = some 'c' then ([], true)
    else
      let (byte, size) := ((hexadecimal? rest).filter fun _ => hexadecimal).getD (escape true rest)
      let (more, ended) := unescapeFrom hexadecimal size rest
      (byte :: more, ended)
  | 0, c :: rest =>
    let (more, ended) := unescapeFrom hexadecimal 0 rest
    (c :: more, ended)

def unescape (cs : List Char) : List Char × Bool := unescapeFrom false 0 cs

/-! ## Arguments -/

/-- What is wrong with an argument that is read as a number. -/
inductive Defect where
  | noNumber
  | rest
  | range
  deriving DecidableEq, Repr

def Defect.message (argument : String) : Defect → String
  | .noNumber => argument ++ ": expected numeric value"
  | .rest => argument ++ ": not completely converted"
  | .range => argument ++ ": Numerical result out of range"

/-- The byte after a quote. -/
def quotedByte? : List Char → Option Nat
  | '\'' :: rest => some ((rest.head?.map Char.toNat).getD 0)
  | '"' :: rest => some ((rest.head?.map Char.toNat).getD 0)
  | _ => none

/-- The number that an argument writes, and what is wrong with it. -/
def integer (low high : Int) (cs : List Char) : Int × Option Defect :=
  match quotedByte? cs, leadingInteger? cs with
  | some n, _ => (n, none)
  | none, none => (0, if cs.isEmpty then none else some .noNumber)
  | none, some (n, rest) =>
    let within := max low (min high n)
    (within, if ¬rest.isEmpty then some .rest else if within = n then none else some .range)

/-- The same for a number with a point. -/
def floating (cs : List Char) : Floating × Option Defect :=
  match quotedByte? cs, Floating.leading? cs with
  | some n, _ => (⟨false, .finite ⟨n, 1⟩⟩, none)
  | none, none => (⟨false, .finite .zero⟩, if cs.isEmpty then none else some .noNumber)
  | none, some r =>
    (r.value, if ¬r.rest.isEmpty then some .rest else if r.inRange then none else some .range)

/-! ## Directives -/

structure Directive where
  flags : List Char
  width : Nat
  precision : Option Nat
  conversion : Char
  deriving DecidableEq, Repr

namespace Directive

def has (d : Directive) (flag : Char) : Bool := d.flags.contains flag

/-- Text in a field of the directive's width. -/
def pad (d : Directive) (cs : List Char) : List Char :=
  let blanks := List.replicate (d.width - cs.length) ' '
  if d.has '-' then cs ++ blanks else blanks ++ cs

/-- Text as far as the precision allows. -/
def cut (d : Directive) (cs : List Char) : List Char := d.pad (cs.take (d.precision.getD cs.length))

/-- A number in a field of the directive's width. -/
def padNumber (d : Directive) (zeros : Bool) (sign digits : List Char) : List Char :=
  let missing := if zeros && d.has '0' && !d.has '-' then
      d.width - sign.length - digits.length
    else 0
  d.pad (sign ++ List.replicate missing '0' ++ digits)

def sign (d : Directive) (negative : Bool) : List Char :=
  if negative then ['-'] else if d.has '+' then ['+'] else if d.has ' ' then [' '] else []

/-- Digits, at least as many as the precision asks for. A zero may have none. -/
def printDigits (d : Directive) (start digits : List Char) : List Char :=
  let digits := if digits = ['0'] ∧ d.precision = some 0 then [] else digits
  let digits := List.replicate (d.precision.getD 1 - digits.length) '0' ++ digits
  d.padNumber d.precision.isNone start digits

def printSigned (d : Directive) (n : Int) : List Char :=
  d.printDigits (d.sign (n < 0)) (Nat.toDigits 10 n.natAbs)

def printUnsigned (d : Directive) (n : Nat) : List Char :=
  let marked := d.has '#' && n != 0
  match d.conversion with
  | 'o' => d.printDigits [] ((if marked then ['0'] else []) ++ Nat.toDigits 8 n)
  | 'x' => d.printDigits (if marked then ['0', 'x'] else []) (Nat.toDigits 16 n)
  | 'X' =>
    d.printDigits (if marked then ['0', 'X'] else []) ((Nat.toDigits 16 n).map Char.toUpper)
  | _ => d.printDigits [] (Nat.toDigits 10 n)

def printFloating (d : Directive) (x : Floating) : List Char :=
  let sign := d.sign x.negative
  let adapted (cs : List Char) := if d.conversion.isUpper then cs.map Char.toUpper else cs
  match x.magnitude with
  | .infinite => d.padNumber false sign (adapted "inf".toList)
  | .undefined => d.padNumber false sign (adapted "nan".toList)
  | .finite r =>
    let size := d.precision.getD 6
    if d.conversion.toLower = 'a' then
      d.padNumber true (sign ++ adapted "0x".toList)
        (adapted (Floating.hexadecimal (d.has '#') r d.precision))
    else
      d.padNumber true sign (adapted (match d.conversion.toLower with
        | 'f' => Floating.fixed (d.has '#') r size
        | 'e' => Floating.scientific (d.has '#') r size
        | _ => Floating.general (d.has '#') r size))

end Directive

/-! ## Printing -/

/-- How far the printing of a format has come. -/
inductive Course where
  | goesOn
  /-- All output has been ended. -/
  | ended
  | refused (problem : String)
  deriving DecidableEq, Repr

/-- What a format makes of arguments. -/
structure Printed where
  output : List Char
  problems : List String
  /-- The arguments that are left. -/
  arguments : List String
  course : Course
  deriving DecidableEq, Repr

/-- What is printed after some text. -/
def Printed.after (cs : List Char) (p : Printed) : Printed := { p with output := cs ++ p.output }

def Printed.afterProblems (problems : List String) (p : Printed) : Printed :=
  { p with problems := problems ++ p.problems }

/-- A directive applied to an argument: what is printed, what is wrong with the argument, and
    whether output is ended. -/
def convert (d : Directive) (argument : String) : List Char × Option Defect × Bool :=
  let cs := argument.toList
  match d.conversion with
  | 's' => (d.cut cs, none, false)
  | 'b' =>
    let (cs, ended) := unescape cs
    (d.cut cs, none, ended)
  | 'c' => (d.pad [(cs.head?).getD '\x00'], none, false)
  | c =>
    if c = 'd' ∨ c = 'i' then
      let (n, defect) := integer minWord maxWord cs
      (d.printSigned n, defect, false)
    else if "ouxX".toList.contains c then
      let highest := Int.ofNat UInt64.size - 1
      let (n, defect) := integer (-highest) highest cs
      (d.printUnsigned (n.emod UInt64.size).toNat, defect, false)
    else
      let (x, defect) := floating cs
      (d.printFloating x, defect, false)

/-- The letters of all conversions. -/
def conversions : List Char := "sbcdiouxXaAeEfFgG".toList

/-- A width or precision, in the format or in the next argument. -/
structure Size where
  value : Option Int
  defect : Option String
  rest : List Char
  arguments : List String

def size (cs : List Char) (arguments : List String) : Size :=
  match cs with
  | '*' :: rest =>
    let argument := arguments.head?.getD ""
    let (n, defect) := integer minWord maxWord argument.toList
    ⟨some n, defect.map (·.message argument), rest, arguments.tail⟩
  | _ =>
    let (n, rest) := leadingDigits 10 cs
    ⟨some n, none, rest, arguments⟩

/-- The text after a percent sign printed with arguments, and how many characters of it belong to
    the directive. -/
def directive (cs : List Char) (arguments : List String) : Printed × Nat :=
  let flags := cs.takeWhile "-+ #0".toList.contains
  let width := size (cs.drop flags.length) arguments
  let precision := match width.rest with
    | '.' :: rest => size rest width.arguments
    | rest => ⟨none, none, rest, width.arguments⟩
  let problems := width.defect.toList ++ precision.defect.toList
  let arguments := precision.arguments
  match precision.rest with
  | [] => (⟨[], problems, arguments, .refused "missing format character"⟩, cs.length)
  | c :: rest =>
    let used := cs.length - rest.length
    if ¬conversions.contains c then
      let text := String.ofList ('%' :: cs.take used)
      (⟨[], problems, arguments, .refused (text ++ ": invalid directive")⟩, used)
    else
      let n := width.value.getD 0
      let d : Directive :=
        { flags := if n < 0 then '-' :: flags else flags, width := n.natAbs
          precision := (precision.value.filter (0 ≤ ·)).map Int.toNat, conversion := c }
      let argument := arguments.head?.getD ""
      let (printed, defect, ended) := convert d argument
      let problems := problems ++ (defect.map (·.message argument)).toList
      (⟨printed, problems, arguments.tail, if ended then .ended else .goesOn⟩, used)

/-- One pass through a format of which `skip` characters have been read. -/
def printOnce : Nat → List Char → List String → Printed
  | _, [], arguments => ⟨[], [], arguments, .goesOn⟩
  | skip + 1, _ :: rest, arguments => printOnce skip rest arguments
  | 0, '\\' :: rest, arguments =>
    let (byte, size) := escape false rest
    (printOnce size rest arguments).after [byte]
  | 0, '%' :: rest, arguments =>
    if rest.head? = some '%' then (printOnce 1 rest arguments).after ['%']
    else
      let (p, size) := directive rest arguments
      match p.course with
      | .goesOn => ((printOnce size rest p.arguments).after p.output).afterProblems p.problems
      | _ => p
  | 0, c :: rest, arguments => (printOnce 0 rest arguments).after [c]

/-- Passes through a format as long as each takes some of the arguments. -/
def printAll (format : List Char) : Nat → List String → Printed
  | 0, arguments => ⟨[], [], arguments, .ended⟩
  | n + 1, arguments =>
    let p := printOnce 0 format arguments
    if p.course ≠ .goesOn ∨ p.arguments.isEmpty ∨ p.arguments.length = arguments.length then p
    else ((printAll format n p.arguments).after p.output).afterProblems p.problems

/-- A format printed with arguments, as often as it takes for all of them. -/
def print (format : String) (arguments : List String) : Printed :=
  printAll format.toList (arguments.length + 1) arguments

end MavenPom.Shell.Format
