import MavenPom.Shell.Arithmetic

/-!
# Conditions

What `test` and `[` make of their arguments. Which of these are operators depends on how many there
are and on what stands beside them.
-/

namespace MavenPom.Shell.Condition

inductive Kind where
  | unary
  | binary
  | not
  | and
  | or
  | opening
  | closing
  deriving DecidableEq, Repr

def unaryOperators : List String :=
  ["-r", "-w", "-x", "-e", "-f", "-d", "-c", "-b", "-p", "-u", "-g", "-k", "-s", "-t", "-z", "-n",
    "-h", "-O", "-G", "-L", "-S"]

def binaryOperators : List String :=
  ["=", "!=", "<", ">", "-eq", "-ne", "-ge", "-gt", "-le", "-lt", "-nt", "-ot", "-ef"]

def kind? (word : String) : Option Kind :=
  if unaryOperators.contains word then some .unary
  else if binaryOperators.contains word then some .binary
  else
    match word with
    | "!" => some .not
    | "-a" => some .and
    | "-o" => some .or
    | "(" => some .opening
    | ")" => some .closing
    | _ => none

/-- What words begin with: their end, an operator or an operand. -/
inductive Lead where
  | ended
  | operand
  | operator (kind : Kind)
  deriving DecidableEq, Repr

/-- Whether a word is an operand because of the words after it. -/
def standsAlone : List String → Bool
  | [] => true
  | [_] => false
  | next :: _ => kind? next == some .binary

def lead : List String → Lead
  | [] => .ended
  | word :: rest =>
    match kind? word with
    | some .unary => if standsAlone rest then .operand else .operator .unary
    | some .opening => if rest.isEmpty then .operand else .operator .opening
    | some kind => .operator kind
    | none => .operand

inductive Fault where
  | unexpected (word : String)
  | noArgument (operator : String)
  | noClosing
  | noBracket
  | noNumber (word : String)
  deriving DecidableEq, Repr

def Fault.message : Fault → String
  | .unexpected "" => "unexpected operator"
  | .unexpected word => word ++ ": unexpected operator"
  | .noArgument operator => operator ++ ": argument expected"
  | .noClosing => "closing paren expected"
  | .noBracket => "missing ]"
  | .noNumber word => "Illegal number: " ++ word

/-- The decimal number that a word writes, perhaps between blanks. -/
def number (word : String) : Except Fault Int :=
  let cs := word.toList.dropWhile isSpace
  let (negative, digits) := match cs with
    | '-' :: rest => (true, rest)
    | '+' :: rest => (false, rest)
    | _ => (false, cs)
  let (n, rest) := leadingDigits 10 digits
  let n := if negative then -Int.ofNat n else Int.ofNat n
  if (digits.head?.map Char.isDigit).getD false ∧ rest.all isSpace ∧ saturate n = n then .ok n
  else .error (.noNumber word)

/-- Whether a word comes before another one. -/
def precedes (a b : String) : Bool := a < b

def binary (operator a b : String) : Except Fault Bool := do
  match operator with
  | "=" => return a == b
  | "!=" => return a != b
  | "<" => return precedes a b
  | ">" => return precedes b a
  | "-eq" => return (← number a) == (← number b)
  | "-ne" => return (← number a) != (← number b)
  | "-lt" => return decide ((← number a) < (← number b))
  | "-le" => return decide ((← number a) ≤ (← number b))
  | "-gt" => return decide ((← number a) > (← number b))
  | "-ge" => return decide ((← number a) ≥ (← number b))
  | _ => return false

/-- What is computed: whether words hold, and the words from the last one that was looked at. -/
abbrev Computed := Except Fault (Bool × List String)

/-- What an operator says of a word, given what it says of a file. -/
def unary (ofFile : String → String → Bool) (operator word : String) : Except Fault Bool :=
  match operator with
  | "-z" => .ok (word == "")
  | "-n" => .ok (word != "")
  | "-t" => (number word).map fun _ => false
  | _ => .ok (ofFile operator word)

mutual

/-- Conditions of which one must hold. -/
def disjunction (ofFile : String → String → Bool) : Nat → Lead → List String → Computed
  | 0, _, ws => .ok (false, ws)
  | n + 1, l, ws => do
    let (a, ws) ← conjunction ofFile n l ws
    match lead ws.tail with
    | .operator .or => do
      let ws := ws.drop 2
      let (b, ws) ← disjunction ofFile n (lead ws) ws
      return (a || b, ws)
    | _ => return (a, ws)

/-- Conditions that must all hold. -/
def conjunction (ofFile : String → String → Bool) : Nat → Lead → List String → Computed
  | 0, _, ws => .ok (false, ws)
  | n + 1, l, ws => do
    let (a, ws) ← negation ofFile n l ws
    match lead ws.tail with
    | .operator .and => do
      let ws := ws.drop 2
      let (b, ws) ← conjunction ofFile n (lead ws) ws
      return (a && b, ws)
    | _ => return (a, ws)

def negation (ofFile : String → String → Bool) : Nat → Lead → List String → Computed
  | 0, _, ws => .ok (false, ws)
  | n + 1, l, ws =>
    match l with
    | .operator .not => do
      let next := lead ws.tail
      let (a, ws) ← negation ofFile n next (if next = .ended then ws else ws.tail)
      return (!a, ws)
    | _ => primary ofFile n l ws

def primary (ofFile : String → String → Bool) : Nat → Lead → List String → Computed
  | 0, _, ws => .ok (false, ws)
  | n + 1, l, ws => do
    match l, ws with
    | .ended, _ => return (false, ws)
    | .operator .opening, _ => do
      let ws := ws.tail
      if lead ws = .operator .closing then return (false, ws)
      else do
        let (a, ws) ← disjunction ofFile n (lead ws) ws
        if lead ws.tail = .operator .closing then return (a, ws.tail) else throw .noClosing
    | .operator .unary, operator :: ws =>
      match ws with
      | [] => throw (.noArgument operator)
      | word :: _ => return (← unary ofFile operator word, ws)
    | _, a :: rest =>
      if lead rest = .operator .binary then
        match rest with
        | operator :: b :: more => return (← binary operator a b, b :: more)
        | _ => throw (.noArgument (rest.head?.getD ""))
      else return (a != "", ws)
    | _, [] => return (false, [])

end

/-- Whether words hold that are read from the first one on. -/
def whole (ofFile : String → String → Bool) (l : Lead) (ws : List String) : Except Fault Bool := do
  match ← disjunction ofFile (4 * (ws.length + 1)) l ws with
  | (_, w :: _ :: _) => throw (.unexpected w)
  | (holds, _) => return holds

/-- Whether words hold, or whether they do not. A second negation among three or four words changes
    nothing. -/
def evaluateAs (ofFile : String → String → Bool) (expected : Bool) :
    List String → Except Fault Bool
  | [] => .ok false
  | [a, operator, b] =>
    if kind? operator = some .binary then outcome (whole ofFile .operand [a, operator, b])
    else if a = "(" ∧ b = ")" then outcome (whole ofFile (lead [operator]) [operator])
    else if a = "!" then evaluateAs ofFile false [operator, b]
    else outcome (whole ofFile (lead [a, operator, b]) [a, operator, b])
  | [a, b, c, d] =>
    if a = "(" ∧ d = ")" then outcome (whole ofFile (lead [b, c]) [b, c])
    else if a = "!" then evaluateAs ofFile false [b, c, d]
    else outcome (whole ofFile (lead [a, b, c, d]) [a, b, c, d])
  | ws => outcome (whole ofFile (lead ws) ws)
where
  outcome (result : Except Fault Bool) : Except Fault Bool := result.map (· == expected)

/-- Whether words hold, given whether an operator holds of a file. -/
def evaluate (ofFile : String → String → Bool) (ws : List String) : Except Fault Bool :=
  evaluateAs ofFile true ws

/-- The same for `[`, which has a bracket as its last argument. -/
def evaluateBracket (ofFile : String → String → Bool) (ws : List String) : Except Fault Bool :=
  if ws.getLast? = some "]" then evaluate ofFile ws.dropLast else .error .noBracket

end MavenPom.Shell.Condition
