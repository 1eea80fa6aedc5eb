import MavenPom.Text.Number

/-!
# TOML strings, numbers, dates and times

The four kinds of strings are read after their opening quotes, up to their closing ones. Double
quotes allow escapes. In strings of several lines, up to two quotes may stand alone, also right
before the closing ones, and every line break counts as `\n`. Numbers, dates and times are words;
single underscores may stand between digits, and no zero may stand before other digits of the whole
part.
-/

namespace MavenPom.Toml

/-! ## Quoted strings -/

/-- The characters that comments and strings may hold as they are. -/
def isPlain (c : Char) : Bool := c == '\t' || (0x20 ≤ c.toNat && c.toNat != 0x7F)

/-- Whether a character is a space or a tab. -/
def isSpace (c : Char) : Bool := c == ' ' || c == '\t'

/-- What a text reads as, and what is left. -/
abbrev Read (α : Type) := Option (α × List Char)

/-- Adds a character in front of what is read, if there is one. -/
def push (c? : Option Char) (read : Read (List Char)) : Read (List Char) :=
  match c?, read with
  | some c, some (cs, rest) => some (c :: cs, rest)
  | _, _ => none

/-- The character that an escape of one letter stands for. -/
def escaped? (c : Char) : Option Char :=
  match c with
  | 'b' => some '\x08'
  | 't' => some '\t'
  | 'n' => some '\n'
  | 'f' => some '\x0c'
  | 'r' => some '\r'
  | '"' => some '"'
  | '\\' => some '\\'
  | _ => none

/-- The character whose code point hexadecimal digits write. -/
def codePoint? (digits : List Char) : Option Char :=
  (Text.number? 16 digits).bind fun n =>
    if h : n.isValidChar then some (Char.ofNatAux n h) else none

/-- A string in double quotes. -/
def basic : List Char → Read (List Char)
  | [] => none
  | '"' :: rest => some ([], rest)
  | '\\' :: 'u' :: a :: b :: c :: d :: rest => push (codePoint? [a, b, c, d]) (basic rest)
  | '\\' :: 'U' :: a :: b :: c :: d :: e :: f :: g :: h :: rest =>
    push (codePoint? [a, b, c, d, e, f, g, h]) (basic rest)
  | '\\' :: c :: rest => push (escaped? c) (basic rest)
  | c :: rest => if isPlain c then push (some c) (basic rest) else none

/-- A string in single quotes. -/
def literal : List Char → Read (List Char)
  | [] => none
  | '\'' :: rest => some ([], rest)
  | c :: rest => if isPlain c then push (some c) (literal rest) else none

/-- What a backslash at the end of a line has come to. -/
inductive Joining where
  | none
  /-- The line has to end, but for blanks. -/
  | lineEnd
  /-- Blanks and line breaks are skipped. -/
  | skip
  deriving DecidableEq, Repr

/-- A string in three double quotes. A backslash at the end of a line joins it to the next
    character that is not blank. -/
def basicLines (joining : Joining) : List Char → Read (List Char)
  | [] => none
  | '\r' :: '\n' :: rest =>
    match joining with
    | .none => push (some '\n') (basicLines .none rest)
    | _ => basicLines .skip rest
  | '\n' :: rest =>
    match joining with
    | .none => push (some '\n') (basicLines .none rest)
    | _ => basicLines .skip rest
  | ' ' :: rest =>
    match joining with
    | .none => push (some ' ') (basicLines .none rest)
    | j => basicLines j rest
  | '\t' :: rest =>
    match joining with
    | .none => push (some '\t') (basicLines .none rest)
    | j => basicLines j rest
  | '"' :: '"' :: '"' :: '"' :: '"' :: rest =>
    if joining = .lineEnd then none else some (['"', '"'], rest)
  | '"' :: '"' :: '"' :: '"' :: rest => if joining = .lineEnd then none else some (['"'], rest)
  | '"' :: '"' :: '"' :: rest => if joining = .lineEnd then none else some ([], rest)
  | '\\' :: 'u' :: a :: b :: c :: d :: rest =>
    if joining = .lineEnd then none
    else push (codePoint? [a, b, c, d]) (basicLines .none rest)
  | '\\' :: 'U' :: a :: b :: c :: d :: e :: f :: g :: h :: rest =>
    if joining = .lineEnd then none
    else push (codePoint? [a, b, c, d, e, f, g, h]) (basicLines .none rest)
  | '\\' :: '\r' :: '\n' :: rest => if joining = .lineEnd then none else basicLines .skip rest
  | '\\' :: c :: rest =>
    if joining = .lineEnd then none
    else if c = '\n' then basicLines .skip rest
    else if isSpace c then basicLines .lineEnd rest
    else push (escaped? c) (basicLines .none rest)
  | c :: rest =>
    if joining = .lineEnd ∨ ¬isPlain c then none else push (some c) (basicLines .none rest)

/-- A string in three single quotes. -/
def literalLines : List Char → Read (List Char)
  | [] => none
  | '\r' :: '\n' :: rest => push (some '\n') (literalLines rest)
  | '\'' :: '\'' :: '\'' :: '\'' :: '\'' :: rest => some (['\'', '\''], rest)
  | '\'' :: '\'' :: '\'' :: '\'' :: rest => some (['\''], rest)
  | '\'' :: '\'' :: '\'' :: rest => some ([], rest)
  | c :: rest => if isPlain c ∨ c = '\n' then push (some c) (literalLines rest) else none

/-- The text without the line break that it begins with. -/
def dropBreak : List Char → List Char
  | '\n' :: rest => rest
  | '\r' :: '\n' :: rest => rest
  | cs => cs

/-! ## Numbers -/

/-- Digits with single underscores between them, without these. -/
def joined? (cs : List Char) : Option (List Char) :=
  if (cs.splitOn '_').any (·.isEmpty) then none else some (cs.filter (· != '_'))

/-- The number that digits write in a base. -/
def digits? (base : Nat) (cs : List Char) : Option Nat :=
  (joined? cs).bind (Text.number? base)

/-- The number that decimal digits write, with no zero before others. -/
def whole? (cs : List Char) : Option Nat :=
  match cs with
  | '0' :: _ :: _ => none
  | _ => digits? 10 cs

/-- A word without its sign, and whether that is a minus. -/
def unsigned : List Char → Bool × List Char
  | '-' :: cs => (true, cs)
  | '+' :: cs => (false, cs)
  | cs => (false, cs)

/-- The greatest integer. -/
def maxInteger : Nat := 0x7FFFFFFFFFFFFFFF

/-- The integer that a word writes. -/
def integer? (word : List Char) : Option Int :=
  let natural (n? : Option Nat) : Option Int := (n?.filter (· ≤ maxInteger)).map Int.ofNat
  match word with
  | '0' :: 'x' :: digits => natural (digits? 16 digits)
  | '0' :: 'o' :: digits => natural (digits? 8 digits)
  | '0' :: 'b' :: digits => natural (digits? 2 digits)
  | _ =>
    match unsigned word with
    | (true, digits) => ((whole? digits).filter (· ≤ maxInteger + 1)).map fun n => -Int.ofNat n
    | (false, digits) => natural (whole? digits)

/-! ## Fractions -/

/-- A number with a fraction or an exponent, as its digits and the power of ten of the last one. -/
structure Decimal where
  digits : Nat
  exponent : Int
  deriving DecidableEq, Repr

/-- The exponent after its mark. -/
def exponent? (cs : List Char) : Option Int :=
  match unsigned cs with
  | (negative, digits) => (digits? 10 digits).map fun n => if negative then -Int.ofNat n else n

/-- The number that a word without a sign writes. It has a fraction, an exponent, or both. -/
def decimal? (word : List Char) : Option Decimal := do
  let isMark (c : Char) : Bool := c == 'e' || c == 'E'
  let mantissa := word.takeWhile (!isMark ·)
  let exponent ← match word.drop mantissa.length with
    | [] => some none
    | _ :: cs => (exponent? cs).map some
  let whole := mantissa.takeWhile (· != '.')
  let _ ← whole? whole
  match mantissa.drop whole.length, exponent with
  | [], none => none
  | [], some e => return ⟨← digits? 10 whole, e⟩
  | _ :: fraction, _ =>
    let places ← joined? fraction
    return ⟨← digits? 10 (whole ++ places), exponent.getD 0 - places.length⟩

/-- Half a step beyond the greatest number that is told from infinity. -/
def overflow : Nat := Nat.pow 2 1024 - Nat.pow 2 970

/-- Whether a number is not too large. Those with far more or far fewer than 309 digits before the
    point are told by this number alone. -/
def Decimal.isFinite (d : Decimal) : Bool :=
  let places := (Nat.toDigits 10 d.digits).length + d.exponent
  if d.digits = 0 ∨ places < 300 then true
  else if 400 < places then false
  else d.digits * Nat.pow 10 d.exponent.toNat < overflow * Nat.pow 10 (-d.exponent).toNat

/-- Whether a word writes a number with a fraction or an exponent, infinity, or what is no number.
    Only digits below zero may write what is too large. -/
def isFraction (word : List Char) : Bool :=
  match unsigned word with
  | (negative, cs) =>
    if cs = "inf".toList ∨ cs = "nan".toList then true
    else
      match decimal? cs with
      | some d => negative || d.isFinite
      | none => false

/-! ## Dates and times -/

/-- The number that two digits write, if it is in a range. -/
def pair? (low high : Nat) (a b : Char) : Option Nat :=
  (Text.number? 10 [a, b]).filter fun n => low ≤ n && n ≤ high

def isLeapYear (year : Nat) : Bool := year % 4 == 0 && (year % 100 != 0 || year % 400 == 0)

def daysOfMonth (year month : Nat) : Nat :=
  if month = 2 then if isLeapYear year then 29 else 28
  else if month = 4 ∨ month = 6 ∨ month = 9 ∨ month = 11 then 30
  else 31

/-- What follows a date. -/
def afterDate? : List Char → Option (List Char)
  | a :: b :: c :: d :: '-' :: e :: f :: '-' :: g :: h :: rest => do
    let year ← Text.number? 10 [a, b, c, d]
    let month ← pair? 1 12 e f
    let _ ← pair? 1 (daysOfMonth year month) g h
    return rest
  | _ => none

/-- What follows a time of day. A minute may have one more second. -/
def afterTime? : List Char → Option (List Char)
  | a :: b :: ':' :: c :: d :: ':' :: e :: f :: rest => do
    let _ ← pair? 0 23 a b
    let _ ← pair? 0 59 c d
    let _ ← pair? 0 60 e f
    match rest with
    | '.' :: places =>
      match places.takeWhile Char.isDigit with
      | [] => none
      | digits => return places.drop digits.length
    | _ => return rest
  | _ => none

/-- Whether a text is a distance from universal time. -/
def isOffset : List Char → Bool
  | ['Z'] => true
  | ['z'] => true
  | [sign, a, b, ':', c, d] =>
    (sign == '+' || sign == '-') && (pair? 0 23 a b).isSome && (pair? 0 59 c d).isSome
  | _ => false

/-- Whether a text is a time of day, perhaps with a distance. -/
def isTimeOfDate (cs : List Char) : Bool :=
  match afterTime? cs with
  | some rest => rest.isEmpty || isOffset rest
  | none => false

def isDate (word : List Char) : Bool := afterDate? word = some []

/-- Whether a word is a date, a time, or a date with a time after a `T`. -/
def isMoment (word : List Char) : Bool :=
  match afterDate? word with
  | some [] => true
  | some (mark :: time) => (mark == 'T' || mark == 't') && isTimeOfDate time
  | none => afterTime? word = some []

end MavenPom.Toml
