import Reckon.Number.Decimal

/-!
# The shortest decimal of a double

`Double.shortest` is the decimal with the fewest digits among those that are read back as the same
double; of two such decimals on one grid it is the nearer, and of two equally near the larger.
`numberText` writes it positionally.
-/

set_option autoImplicit false

namespace Reckon

/-- A positive finite double, `mantissa · 2 ^ exponent`. The gap below it is half as wide as the gap
above it when `narrowBelow`. -/
structure Double where
  mantissa : Nat
  exponent : Int
  narrowBelow : Bool
deriving DecidableEq, Repr

namespace Double

/-- The number of fractions that share an exponent, `2 ^ 52`. -/
def fractions : Nat := 0x10000000000000

/-- The magnitude that a biased exponent and a fraction stand for. -/
def ofFields (biased fraction : Nat) : Double :=
  if biased = 0 then ⟨fraction, -1074, false⟩
  else ⟨fraction + fractions, biased - 1075, fraction = 0 ∧ 1 < biased⟩

/-- Whether the ends of the rounding interval are rounded to the double itself. -/
def closed (x : Double) : Bool := x.mantissa % 2 = 0

/-- The decimal on the grid of multiples of `10 ^ place` that is read back as `x`, if there is one.
A quarter of the last binary place is `num / den` of a grid step. -/
def onGrid (x : Double) (place : Int) : Option Decimal :=
  let num := Nat.pow 2 (x.exponent - 2).toNat * Nat.pow 10 (-place).toNat
  let den := Nat.pow 2 (2 - x.exponent).toNat * Nat.pow 10 place.toNat
  let value := 4 * x.mantissa * num
  let least := value - (if x.narrowBelow then 1 else 2) * num
  let greatest := value + 2 * num
  let below := value / den
  let above := below + 1
  let within (low high : Nat) : Bool := low < high || (low = high && x.closed)
  let hitBelow := within least (below * den)
  let hitAbove := within (above * den) greatest
  if hitBelow && (!hitAbove || value - below * den < above * den - value) then
    some ⟨below, place⟩
  else if hitAbove then some ⟨above, place⟩
  else none

/-- The exact decimal value of a double. -/
def exact (x : Double) : Decimal :=
  ⟨x.mantissa * Nat.pow 2 x.exponent.toNat * Nat.pow 5 (-x.exponent).toNat,
    -((-x.exponent).toNat : Int)⟩

/-- A place above the leading digit of `x`: `30103 / 100000` is `log₁₀ 2`, rounded up. -/
def leadingPlace (x : Double) : Int :=
  ((Nat.log2 x.mantissa + 1 : Nat) + x.exponent) * 30103 / 100000 + 1

/-- The first grid, from coarse to fine, with a decimal that is read back as `x`. Seventeen digits
are always enough. -/
def shortest (x : Double) : Decimal :=
  ((List.range 20).findSome? fun (i : Nat) => x.onGrid (x.leadingPlace - i)).getD x.exact

end Double

/-- The text of a number: a sign when its sign bit is set, then the shortest decimal without an
exponent; infinity is `inf`, and `NaN` has no sign. -/
def numberText (x : Float) : String :=
  let bits := x.toBits.toNat
  let fraction := bits % Double.fractions
  let biased := bits / Double.fractions % 2048
  let negative := 2048 ≤ bits / Double.fractions
  let magnitude :=
    if biased = 2047 then "inf".toList
    else if biased = 0 ∧ fraction = 0 then "0".toList
    else (Double.ofFields biased fraction).shortest.positional
  if x.isNaN then "NaN"
  else if negative then String.ofList ('-' :: magnitude)
  else String.ofList magnitude

end Reckon
