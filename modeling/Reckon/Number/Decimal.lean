/-!
# Decimal numerals

A numeral is a run of digits with an optional fraction. It is read as the nearest double, and a
decimal `coefficient · 10 ^ exponent` is written positionally, however large its exponent is.
-/

set_option autoImplicit false

namespace Reckon

/-- The number `coefficient · 10 ^ exponent`. -/
structure Decimal where
  coefficient : Nat
  exponent : Int
deriving DecidableEq, Repr

namespace Decimal

/-- The value of a run of digits, the most significant first. -/
def ofDigits (digits : List Char) : Nat :=
  digits.foldl (fun value digit => 10 * value + (digit.toNat - '0'.toNat)) 0

/-- The numeral `whole.fraction`. -/
def ofParts (whole fraction : List Char) : Decimal :=
  ⟨ofDigits (whole ++ fraction), -(fraction.length : Int)⟩

/-- The double nearest to a decimal, a tie going to the even mantissa. -/
def toFloat (d : Decimal) : Float :=
  Float.ofScientific d.coefficient (d.exponent < 0) d.exponent.natAbs

/-- The digits of a natural number. -/
def digits (n : Nat) : List Char := Nat.toDigits 10 n

/-- The digits of a decimal, with zeros up to the units or down to them where it has none. -/
def positional (d : Decimal) : List Char :=
  if 0 ≤ d.exponent then
    digits d.coefficient ++ List.replicate d.exponent.toNat '0'
  else
    let places := (-d.exponent).toNat
    let written := digits d.coefficient
    let padded := List.replicate (places + 1 - written.length) '0' ++ written
    padded.take (padded.length - places) ++ '.' :: padded.drop (padded.length - places)

end Decimal

end Reckon
