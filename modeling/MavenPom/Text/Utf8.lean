/-!
# UTF-8

Bytes as characters and back. Reading goes one character at a time and says where an
ill-formed sequence stops, so that the strict reader (`decode`) and the replacing one
(`decodeLossy`) share every rule.
-/

namespace MavenPom

/-- The content of a file or of a stream. -/
abbrev Bytes := List UInt8

namespace Utf8

/-- A byte that continues a sequence. -/
def isTail (b : UInt8) : Bool :=
  0x80 ≤ b.toNat && b.toNat ≤ 0xBF

/-- The bytes that may come second after the first byte `lead` of a sequence of three or four.
    The narrowed ranges leave out overlong forms, surrogates and values above U+10FFFF. -/
def isSecond (lead : Nat) (b : UInt8) : Bool :=
  if lead = 0xE0 then 0xA0 ≤ b.toNat && b.toNat ≤ 0xBF
  else if lead = 0xED then 0x80 ≤ b.toNat && b.toNat ≤ 0x9F
  else if lead = 0xF0 then 0x90 ≤ b.toNat && b.toNat ≤ 0xBF
  else if lead = 0xF4 then 0x80 ≤ b.toNat && b.toNat ≤ 0x8F
  else isTail b

/-- Reads the continuation bytes that a sequence still owes, after the bits `code`. -/
def readTail : Nat → Nat → Bytes → Option Char × Bytes
  | 0, code, rest => (some (Char.ofNat code), rest)
  | _ + 1, _, [] => (none, [])
  | owed + 1, code, b :: rest =>
    if isTail b then readTail owed (code * 0x40 + (b.toNat - 0x80)) rest else (none, b :: rest)

/-- The character at the head of `first :: rest` and what follows it. An ill-formed sequence has
    no character and ends before the first byte that cannot belong to it. -/
def next (first : UInt8) (rest : Bytes) : Option Char × Bytes :=
  let lead := first.toNat
  if lead < 0x80 then (some (Char.ofNat lead), rest)
  else if lead < 0xC2 then (none, rest)
  else if lead < 0xE0 then readTail 1 (lead - 0xC0) rest
  else if lead < 0xF5 then
    match rest with
    | [] => (none, [])
    | b :: after =>
      if isSecond lead b then
        if lead < 0xF0 then readTail 1 ((lead - 0xE0) * 0x40 + (b.toNat - 0x80)) after
        else readTail 2 ((lead - 0xF0) * 0x40 + (b.toNat - 0x80)) after
      else (none, rest)
  else (none, rest)

theorem readTail_length_le (owed code : Nat) (rest : Bytes) :
    (readTail owed code rest).2.length ≤ rest.length := by
  induction owed generalizing code rest with
  | zero => simp [readTail]
  | succ owed ih =>
    cases rest with
    | nil => simp [readTail]
    | cons b rest =>
      unfold readTail
      split
      · exact Nat.le_succ_of_le (ih _ rest)
      · exact Nat.le_refl _

/-- Reading a character always uses up its first byte. -/
theorem next_length_le (first : UInt8) (rest : Bytes) :
    (next first rest).2.length ≤ rest.length := by
  unfold next
  simp only
  split
  · exact Nat.le_refl _
  split
  · exact Nat.le_refl _
  split
  · exact readTail_length_le 1 _ rest
  split
  · cases rest with
    | nil => exact Nat.le_refl _
    | cons b after =>
      simp only
      split
      · split
        · exact Nat.le_succ_of_le (readTail_length_le 1 _ after)
        · exact Nat.le_succ_of_le (readTail_length_le 2 _ after)
      · exact Nat.le_refl _
  · exact Nat.le_refl _

/-- The characters of well-formed bytes. -/
def decode : Bytes → Option (List Char)
  | [] => some []
  | first :: rest =>
    match (next first rest).1 with
    | none => none
    | some c => (decode (next first rest).2).map (c :: ·)
termination_by bytes => bytes.length
decreasing_by exact Nat.lt_succ_of_le (next_length_le first rest)

/-- The characters of any bytes, with U+FFFD for each ill-formed sequence. -/
def decodeLossy : Bytes → List Char
  | [] => []
  | first :: rest =>
    (next first rest).1.getD '\uFFFD' :: decodeLossy (next first rest).2
termination_by bytes => bytes.length
decreasing_by exact Nat.lt_succ_of_le (next_length_le first rest)

/-- The characters before the first ill-formed sequence. -/
def decodePrefix : Bytes → List Char
  | [] => []
  | first :: rest =>
    match (next first rest).1 with
    | none => []
    | some c => c :: decodePrefix (next first rest).2
termination_by bytes => bytes.length
decreasing_by exact Nat.lt_succ_of_le (next_length_le first rest)

/-- The bytes of a character. -/
def encodeChar (c : Char) : Bytes :=
  let n := c.toNat
  if n < 0x80 then [n.toUInt8]
  else if n < 0x800 then [(0xC0 + n / 0x40).toUInt8, (0x80 + n % 0x40).toUInt8]
  else if n < 0x10000 then
    [(0xE0 + n / 0x1000).toUInt8, (0x80 + n / 0x40 % 0x40).toUInt8, (0x80 + n % 0x40).toUInt8]
  else
    [(0xF0 + n / 0x40000).toUInt8, (0x80 + n / 0x1000 % 0x40).toUInt8,
      (0x80 + n / 0x40 % 0x40).toUInt8, (0x80 + n % 0x40).toUInt8]

/-- The bytes of a sequence of characters. -/
def encode (cs : List Char) : Bytes :=
  cs.flatMap encodeChar

/-- The number of bytes that characters take. -/
def size (cs : List Char) : Nat :=
  cs.foldr (·.utf8Size + ·) 0

/-- The characters that fill the first `n` bytes. -/
def take : Nat → List Char → List Char
  | _, [] => []
  | n, c :: cs => if c.utf8Size ≤ n then c :: take (n - c.utf8Size) cs else []

/-- The characters after the first `n` bytes. -/
def drop : Nat → List Char → List Char
  | _, [] => []
  | n, c :: cs => if c.utf8Size ≤ n then drop (n - c.utf8Size) cs else c :: cs

/-- Whether a byte offset stands between two characters, or at an end of them. -/
def isBoundary : Nat → List Char → Bool
  | n, [] => n == 0
  | n, c :: cs => n == 0 || (c.utf8Size ≤ n && isBoundary (n - c.utf8Size) cs)

/-- Cutting at a byte offset loses nothing. -/
theorem take_append_drop (n : Nat) (cs : List Char) : take n cs ++ drop n cs = cs := by
  induction cs generalizing n with
  | nil => rfl
  | cons c cs ih =>
    unfold take drop
    split
    · exact congrArg (c :: ·) (ih _)
    · rfl

end Utf8

end MavenPom
