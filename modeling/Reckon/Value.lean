import Reckon.Expr.Basic
import Reckon.Number.Shortest

/-!
# Values

A value is a number or a function.
-/

set_option autoImplicit false

namespace Reckon

inductive Value (τ : Type) where
  | number (value : Float)
  | function (function : Function τ)
deriving DecidableEq, Repr

namespace Value

variable {τ : Type}

/-- The value of every name that has not been given one. -/
def zero : Value τ := number 0

def asNumber? : Value τ → Option Float
  | number x => some x
  | function _ => none

def typeName : Value τ → String
  | number _ => "number"
  | function _ => "function"

/-- How a value is shown. -/
def text : Value τ → String
  | number x => numberText x
  | function f => f.text

/-- Numbers are the same when they compare equal, functions when they have one tag. -/
def same [DecidableEq τ] : Value τ → Value τ → Bool
  | number x, number y => x == y
  | function f, function g => f.tag = g.tag
  | _, _ => false

end Value

end Reckon
