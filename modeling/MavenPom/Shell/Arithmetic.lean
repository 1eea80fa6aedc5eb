import MavenPom.Action
import MavenPom.Shell.Octets
import MavenPom.Text.Number

/-!
# Shell arithmetic

What the expressions in `$((…))` come to, and which variables they assign. Numbers have 64 bits and
wrap around.
-/

namespace MavenPom.Shell

/-! ## Whole numbers in text -/

/-- The digits of a base that a text begins with, as a number, and what follows them. -/
def leadingDigits (base : Nat) (cs : List Char) : Nat × List Char :=
  let digits := cs.takeWhile fun c => (Text.digit? base c).isSome
  ((Text.number? base digits).getD 0, cs.drop digits.length)

/-- The number that a text begins with, in base 16 after `0x` and in base 8 after `0`. -/
def leadingNatural? : List Char → Option (Nat × List Char)
  | '0' :: x :: d :: rest =>
    if (x = 'x' ∨ x = 'X') ∧ (Text.digit? 16 d).isSome then some (leadingDigits 16 (d :: rest))
    else some (leadingDigits 8 ('0' :: x :: d :: rest))
  | '0' :: rest => some (leadingDigits 8 ('0' :: rest))
  | c :: rest => if c.isDigit then some (leadingDigits 10 (c :: rest)) else none
  | [] => none

def isSpace (c : Char) : Bool := c == ' ' || (0x09 ≤ c.toNat && c.toNat ≤ 0x0D)

/-- The number that a text begins with, perhaps after blanks and a sign. -/
def leadingInteger? (cs : List Char) : Option (Int × List Char) :=
  match cs.dropWhile isSpace with
  | '-' :: rest => (leadingNatural? rest).map fun (n, rest) => (-Int.ofNat n, rest)
  | '+' :: rest => (leadingNatural? rest).map fun (n, rest) => (Int.ofNat n, rest)
  | rest => (leadingNatural? rest).map fun (n, rest) => (Int.ofNat n, rest)

def maxWord : Int := 0x7FFFFFFFFFFFFFFF

def minWord : Int := -0x8000000000000000

/-- The nearest number of 64 bits. -/
def saturate (n : Int) : Int := max minWord (min maxWord n)

/-- The number of 64 bits that a text writes, perhaps between blanks. -/
def integer? (cs : List Char) : Option Int :=
  match leadingInteger? cs with
  | some (n, rest) => if rest.all isSpace ∧ saturate n = n then some n else none
  | none => none

namespace Arithmetic

/-- The number with the same last 64 bits. -/
def wrap (n : Int) : Int := n.bmod UInt64.size

inductive Fault where
  | noPrimary
  | noParenthesis
  | noColon
  | noEnd
  | divisionByZero
  /-- A variable has a value that is no number. -/
  | noNumber (value : String)
  deriving DecidableEq, Repr

/-- What is wrong with an expression. -/
def Fault.message (expression : String) : Fault → String
  | .noPrimary => inExpression "expecting primary"
  | .noParenthesis => inExpression "expecting ')'"
  | .noColon => inExpression "expecting ':'"
  | .noEnd => inExpression "expecting EOF"
  | .divisionByZero => inExpression "division by zero"
  | .noNumber value => "Illegal number: " ++ value
where
  inExpression (text : String) : String :=
    "arithmetic expression: " ++ text ++ ": \"" ++ expression ++ "\""

/-! ## Operators -/

/-- The binary operators with how strongly they bind. -/
def strengths : List (String × Nat) :=
  [("*", 8), ("/", 8), ("%", 8), ("+", 7), ("-", 7), ("<<", 6), (">>", 6), ("<", 5), ("<=", 5),
    (">", 5), (">=", 5), ("==", 4), ("!=", 4), ("&", 3), ("^", 2), ("|", 1)]

/-- All operators, of two that begin alike the longer one first. -/
def operators : List String :=
  ["<<=", ">>=", "<<", ">>", "<=", ">=", "==", "!=", "&&", "||", "*=", "/=", "%=", "+=", "-=", "&=",
    "^=", "|=", "<", ">", "+", "-", "*", "/", "%", "&", "^", "|", "=", "!", "~", "(", ")", "?", ":"]

/-- The operator that an assignment applies first. -/
def assigned? (operator : String) : Option String :=
  if ["==", "!=", "<=", ">="].contains operator ∨ !operator.endsWith "=" then none
  else some (operator.dropEnd 1).toString

def ofBool (b : Bool) : Int := if b then 1 else 0

/-- What a function of bits makes of numbers. -/
def bitwise (f : UInt64 → UInt64 → UInt64) (a b : Int) : Int :=
  wrap (f (a.emod UInt64.size).toNat.toUInt64 (b.emod UInt64.size).toNat.toUInt64).toNat

/-- A number shifted by the last six bits of another one. -/
def shiftAmount (b : Int) : Nat := (b.emod 64).toNat

def combine (operator : String) (a b : Int) : Except Fault Int :=
  match operator with
  | "==" => .ok (ofBool (a == b))
  | "!=" => .ok (ofBool (a != b))
  | "<=" => .ok (ofBool (a ≤ b))
  | ">=" => .ok (ofBool (b ≤ a))
  | "<" => .ok (ofBool (a < b))
  | ">" => .ok (ofBool (b < a))
  | "+" => .ok (wrap (a + b))
  | "-" => .ok (wrap (a - b))
  | "*" => .ok (wrap (a * b))
  | "/" => if b = 0 then .error .divisionByZero else .ok (wrap (a.tdiv b))
  | "%" => if b = 0 then .error .divisionByZero else .ok (a.tmod b)
  | "<<" => .ok (wrap (a * Int.ofNat (Nat.pow 2 (shiftAmount b))))
  | ">>" => .ok (a.fdiv (Int.ofNat (Nat.pow 2 (shiftAmount b))))
  | "&" => .ok (bitwise (· &&& ·) a b)
  | "^" => .ok (bitwise (· ^^^ ·) a b)
  | "|" => .ok (bitwise (· ||| ·) a b)
  | _ => .ok b

/-! ## Symbols -/

inductive Symbol where
  | number (n : Int)
  | name (text : String)
  | mark (text : String)
  | other
  deriving DecidableEq, Repr

/-- The symbols of an expression, of which `skip` characters have been read. -/
def symbolsFrom : Nat → List Char → List Symbol
  | _, [] => []
  | skip + 1, _ :: rest => symbolsFrom skip rest
  | 0, c :: rest =>
    if c = ' ' ∨ c = '\t' ∨ c = '\n' then symbolsFrom 0 rest
    else if isNameStart c then
      let name := (c :: rest).takeWhile isNameChar
      .name (String.ofList name) :: symbolsFrom (name.length - 1) rest
    else
      match leadingNatural? (if c.isDigit then c :: rest else []) with
      | some (n, left) => .number (saturate n) :: symbolsFrom (rest.length - left.length) rest
      | none =>
        match operators.find? fun t => t.toList.isPrefixOf (c :: rest) with
        | some text => .mark text :: symbolsFrom (text.length - 1) rest
        | none => .other :: symbolsFrom 0 rest

/-! ## Evaluation -/

/-- The values of variables, and what has been assigned to some of them, the last first. -/
structure Values where
  given : String → String
  assigned : List (String × Int)

/-- A step of a computation. What it assigns before it fails stays assigned. -/
abbrev Computing (α : Type) := Action Values Fault α

/-- The number that a variable holds. One that is blank counts as 0. -/
def valueOf (name : String) : Computing Int := do
  let v ← get
  match v.assigned.lookup name with
  | some n => return n
  | none =>
    let cs := (v.given name).toList
    if cs.all isSpace then return 0
    else match integer? cs with
      | some n => return n
      | none => throw (.noNumber (v.given name))

def assign (name : String) (n : Int) : Computing Unit :=
  modify fun v => { v with assigned := (name, n) :: v.assigned }

mutual

/-- An assignment, or a value, and the symbols after it. Where nothing is `live`, it is only
    read. -/
def assignment (live : Bool) : Nat → List Symbol → Computing (Int × List Symbol)
  | 0, _ => throw .noPrimary
  | n + 1, symbols =>
    match symbols with
    | .name name :: .mark operator :: rest =>
      match assigned? operator with
      | none => conditional live n symbols
      | some applied => do
        let (b, rest) ← assignment live n rest
        if ¬live then return (b, rest)
        else if applied.isEmpty then
          assign name b
          return (b, rest)
        else
          let result ← combine applied (← valueOf name) b
          assign name result
          return (result, rest)
    | _ => conditional live n symbols

/-- A condition with two values, or a value. -/
def conditional (live : Bool) : Nat → List Symbol → Computing (Int × List Symbol)
  | 0, _ => throw .noPrimary
  | n + 1, symbols => do
    let (test, rest) ← disjunction live n symbols
    match rest with
    | .mark "?" :: rest => do
      let (first, rest) ← assignment (live && test != 0) n rest
      match rest with
      | .mark ":" :: rest => do
        let (second, rest) ← conditional (live && test == 0) n rest
        return (if test ≠ 0 then first else second, rest)
      | _ => throw .noColon
    | _ => return (test, rest)

def disjunction (live : Bool) : Nat → List Symbol → Computing (Int × List Symbol)
  | 0, _ => throw .noPrimary
  | n + 1, symbols => do
    let (a, rest) ← conjunction live n symbols
    match rest with
    | .mark "||" :: rest => do
      let (b, rest) ← disjunction (live && a == 0) n rest
      return (ofBool (a != 0 || b != 0), rest)
    | _ => return (a, rest)

def conjunction (live : Bool) : Nat → List Symbol → Computing (Int × List Symbol)
  | 0, _ => throw .noPrimary
  | n + 1, symbols => do
    let (a, rest) ← primary live n symbols
    let (a, rest) ← extended live 0 n a rest
    match rest with
    | .mark "&&" :: rest => do
      let (b, rest) ← conjunction (live && a != 0) n rest
      return (ofBool (a != 0 && b != 0), rest)
    | _ => return (a, rest)

/-- A value and what the binary operators make of it that bind more strongly than `level`. -/
def extended (live : Bool) (level : Nat) : Nat → Int → List Symbol → Computing (Int × List Symbol)
  | 0, _, _ => throw .noPrimary
  | n + 1, a, symbols =>
    match symbols with
    | .mark operator :: rest =>
      match strengths.lookup operator with
      | none => return (a, symbols)
      | some strength =>
        if strength ≤ level then return (a, symbols)
        else do
          let (b, rest) ← primary live n rest
          let (b, rest) ← extended live strength n b rest
          let c ← if live then combine operator a b else pure b
          extended live level n c rest
    | _ => return (a, symbols)

/-- A number, a variable, or an expression in parentheses, perhaps after signs. -/
def primary (live : Bool) : Nat → List Symbol → Computing (Int × List Symbol)
  | 0, _ => throw .noPrimary
  | n + 1, symbols =>
    match symbols with
    | .number k :: rest => return (k, rest)
    | .name name :: rest => do
      let k ← if live then valueOf name else pure 0
      return (k, rest)
    | .mark "(" :: rest => do
      let (k, rest) ← assignment live n rest
      match rest with
      | .mark ")" :: rest => return (k, rest)
      | _ => throw .noParenthesis
    | .mark "+" :: rest => primary live n rest
    | .mark "-" :: rest => do
      let (k, rest) ← primary live n rest
      return (wrap (-k), rest)
    | .mark "!" :: rest => do
      let (k, rest) ← primary live n rest
      return (ofBool (k == 0), rest)
    | .mark "~" :: rest => do
      let (k, rest) ← primary live n rest
      return (-k - 1, rest)
    | _ => throw .noPrimary

end

/-- The number that symbols come to, of which none may be left over. -/
def whole (symbols : List Symbol) : Computing Int := do
  let (n, rest) ← assignment true (8 * (symbols.length + 1)) symbols
  if rest.isEmpty then return n else throw .noEnd

/-- What an expression comes to, and the assignments in it up to where it fails. -/
def evaluate (given : String → String) (expression : List Char) :
    Except Fault Int × List (String × Int) :=
  let (result, v) := StateT.run (ExceptT.run (whole (symbolsFrom 0 expression))) ⟨given, []⟩
  (result, v.assigned.reverse)

end Arithmetic

end MavenPom.Shell
