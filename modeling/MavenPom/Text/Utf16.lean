import MavenPom.Text.Utf8

/-!
# UTF-16

Characters as sequences of 16-bit units, and units as pairs of bytes in either order.
-/

namespace MavenPom.Utf16

/-- Which byte of a unit comes first. -/
inductive ByteOrder where
  | little
  | big
  deriving DecidableEq, Repr

/-- The units of a character: one, or a surrogate pair above U+FFFF. -/
def units (c : Char) : List Nat :=
  let n := c.toNat
  if n < 0x10000 then [n]
  else [0xD800 + (n - 0x10000) / 0x400, 0xDC00 + (n - 0x10000) % 0x400]

/-- The characters of a sequence of units, unless a surrogate stands alone. -/
def ofUnits : List Nat → Option (List Char)
  | [] => some []
  | [u] => if u < 0xD800 || 0xE000 ≤ u then some [Char.ofNat u] else none
  | u :: v :: rest =>
    if u < 0xD800 || 0xE000 ≤ u then (ofUnits (v :: rest)).map (Char.ofNat u :: ·)
    else if u < 0xDC00 && 0xDC00 ≤ v && v < 0xE000 then
      (ofUnits rest).map (Char.ofNat (0x10000 + (u - 0xD800) * 0x400 + (v - 0xDC00)) :: ·)
    else none

/-- The bytes of a unit. -/
def unitBytes (order : ByteOrder) (u : Nat) : Bytes :=
  match order with
  | .little => [(u % 0x100).toUInt8, (u / 0x100).toUInt8]
  | .big => [(u / 0x100).toUInt8, (u % 0x100).toUInt8]

/-- The units of an even number of bytes. -/
def unitsOfBytes (order : ByteOrder) : Bytes → Option (List Nat)
  | [] => some []
  | [_] => none
  | a :: b :: rest =>
    let u := match order with
      | .little => a.toNat + b.toNat * 0x100
      | .big => a.toNat * 0x100 + b.toNat
    (unitsOfBytes order rest).map (u :: ·)

/-- The characters of well-formed bytes. -/
def decode (order : ByteOrder) (bytes : Bytes) : Option (List Char) :=
  (unitsOfBytes order bytes).bind ofUnits

/-- The bytes of a sequence of characters. -/
def encode (order : ByteOrder) (cs : List Char) : Bytes :=
  (cs.flatMap units).flatMap (unitBytes order)

end MavenPom.Utf16
