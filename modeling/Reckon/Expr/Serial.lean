import Reckon.Expr.Basic

/-!
# Serial numbers of function literals

`serial` gives each function literal of a tree a number of its own, in the order in which the
literals start in the source text. The numbers of one run of `serial` are consecutive, and the state
holds the first one that is still free.
-/

set_option autoImplicit false

namespace Reckon

/-- The next free number. -/
def freshSerial : StateM Nat Nat := modifyGet fun next => (next, next + 1)

mutual

def Expr.serial {τ : Type} : Expr τ → StateM Nat (Expr Nat)
  | .number value line => pure (.number value line)
  | .var name line => pure (.var name line)
  | .arithmetic op left right line => do
    let left ← left.serial
    let right ← right.serial
    pure (.arithmetic op left right line)
  | .assign name value line => do
    let value ← value.serial
    pure (.assign name value line)
  | .function _ params body line => do
    let tag ← freshSerial
    let body ← serialAll body
    pure (.function tag params body line)
  | .call name arguments line => do
    let arguments ← serialAll arguments
    pure (.call name arguments line)

def serialAll {τ : Type} : List (Expr τ) → StateM Nat (List (Expr Nat))
  | [] => pure []
  | e :: es => do
    let e ← e.serial
    let es ← serialAll es
    pure (e :: es)

end

def Function.serial {τ : Type} (f : Function τ) : StateM Nat (Function Nat) := do
  let tag ← freshSerial
  let body ← serialAll f.body
  pure ⟨tag, f.params, body, f.line⟩

def Statement.serial {τ : Type} (s : Statement τ) : StateM Nat (Statement Nat) := do
  let expressions ← serialAll s.expressions
  pure ⟨expressions, s.line⟩

end Reckon
