/-!
# Settings

The two guards against runaway programs, and what division by zero does.
-/

set_option autoImplicit false

namespace Reckon

/-- What division by zero does. -/
inductive Division where
  /-- It gives an infinity or NaN. -/
  | ieee
  /-- It is an error. -/
  | strict
deriving DecidableEq, Repr

structure Settings where
  maxNestingDepth : Nat := 256
  maxCallDepth : Nat := 256
  division : Division := .ieee
deriving DecidableEq, Repr

end Reckon
