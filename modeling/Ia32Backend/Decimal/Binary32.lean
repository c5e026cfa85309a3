import Ia32Backend.Decimal.Shortest

/-!
Text of binary32 numbers, from their bit patterns: the shortest decimal that reads back as the same
number. Numbers from a ten-thousandth up to ten to the sixteenth are written with a decimal point
and at least one decimal, all others with an exponent.
-/
namespace Ia32Backend

inductive Binary32 where
  | nan
  | infinite (negative : Bool)
  | zero (negative : Bool)
  /-- The number `mantissa * 2 ^ exp`. -/
  | finite (negative : Bool) (mantissa : Nat) (exp : Int)
  deriving DecidableEq, Repr

namespace Binary32

/-- The leading bit of a normal number, which its bit pattern leaves out. -/
def leadingBit : Nat := 0x800000

/-- A sign bit, eight bits of exponent and 23 bits of fraction. -/
def ofBits (bits : UInt32) : Binary32 :=
  let b := bits.toNat
  let negative : Bool := b ≥ 0x80000000
  let field : Nat := b / leadingBit % 256
  let fraction := b % leadingBit
  if field = 255 then
    if fraction = 0 then infinite negative else nan
  else if field = 0 then
    if fraction = 0 then zero negative else finite negative fraction (-149)
  else finite negative (leadingBit + fraction) ((field : Int) - 150)

/-- The reals that round to `mantissa * 2 ^ exp`, ties to even. Numbers lie half as far apart below
a power of two as above it, unless those below are subnormal. -/
def rounding (mantissa : Nat) (exp : Int) : Rounding :=
  let quarter := Nat.pow 2 (exp - 2).toNat
  let gapBelow := if mantissa = leadingBit ∧ -149 < exp then 1 else 2
  { lo := (4 * mantissa - gapBelow) * quarter
    mid := 4 * mantissa * quarter
    hi := (4 * mantissa + 2) * quarter
    scale := (2 - exp).toNat
    closed := mantissa % 2 = 0 }

end Binary32

namespace Decimal

def digitChars (d : Decimal) : List Char := Nat.toDigits 10 d.digits

/-- The power of ten at which the leading digit stands. -/
def leading (d : Decimal) : Int := d.exp + d.digitChars.length - 1

def zeros (n : Nat) : List Char := List.replicate n '0'

def positional (d : Decimal) : List Char :=
  let ds := d.digitChars
  let places := (-d.exp).toNat
  if places = 0 then ds ++ zeros d.exp.toNat ++ ['.', '0']
  else if places < ds.length then
    ds.take (ds.length - places) ++ '.' :: ds.drop (ds.length - places)
  else '0' :: '.' :: zeros (places - ds.length) ++ ds

def scientific (d : Decimal) : List Char :=
  let mantissa := match d.digitChars with
    | [] => []
    | [c] => [c]
    | c :: rest => c :: '.' :: rest
  mantissa ++ 'e' :: (toString d.leading).toList

def text (d : Decimal) : List Char :=
  if -4 ≤ d.leading ∧ d.leading < 16 then d.positional else d.scientific

end Decimal

namespace Binary32

def sign (negative : Bool) : List Char := if negative then ['-'] else []

def text : Binary32 → String
  | nan => "NaN"
  | infinite negative => String.ofList (sign negative ++ ['i', 'n', 'f'])
  | zero negative => String.ofList (sign negative ++ ['0', '.', '0'])
  | finite negative mantissa exp =>
      String.ofList (sign negative ++ (rounding mantissa exp).shortest.text)

end Binary32

end Ia32Backend
