import Reckon.Error
import Reckon.Scope
import Reckon.Settings

/-!
# Evaluation

Expressions are evaluated from left to right in a scope that they may change; what a failing
evaluation has changed stays changed. A function runs in a new scope inside that of its caller, so
that its free names are the caller's.

`evalWith` is evaluation over a given meaning of calls and recurses on the expression.
`Function.applyWithin n` gives calls their meaning when at most `n` of them may be nested, and
recurses on `n`. The entry points (`Expr.eval`, `evalSequence`, `evalStatements`, `Function.invoke`)
take `n` from the settings and the number of active calls.
-/

set_option autoImplicit false

namespace Reckon

/-- The scope at hand, and the number of active calls. -/
structure Machine (τ : Type) where
  scope : Scope τ
  callDepth : Nat := 0

abbrev Eval (τ α : Type) := EStateM RuntimeError (Machine τ) α

namespace Eval

variable {τ α : Type}

def read (name : String) : Eval τ (Value τ) := fun m =>
  let (value, scope) := m.scope.read name
  .ok value { m with scope }

def write (name : String) (value : Value τ) : Eval τ Unit := fun m =>
  .ok () { m with scope := m.scope.write name value }

/-- Runs the body of a call in a scope of its own. The scope is given up and the call ends also when
the body fails. -/
def inFrame (bindings : List (String × Value τ)) (body : Eval τ α) : Eval τ α := fun m =>
  let leave (m : Machine τ) : Machine τ := ⟨m.scope.pop, m.callDepth - 1⟩
  match body ⟨m.scope.push.writeAll bindings, m.callDepth + 1⟩ with
  | .ok a m => .ok a (leave m)
  | .error e m => .error e (leave m)

end Eval

/-- The number that an operand is. -/
def operand {τ : Type} (op : Operator) (line : Nat) (value : Value τ) :
    Except RuntimeError Float :=
  match value.asNumber? with
  | some x => .ok x
  | none =>
    .error (.typeMismatch s!"operator '{op.symbol}' expects numbers, found a {value.typeName}" line)

/-- The value of an operation. -/
def Operator.apply (division : Division) (line : Nat) :
    Operator → Float → Float → Except RuntimeError Float
  | add, x, y => .ok (x + y)
  | subtract, x, y => .ok (x - y)
  | multiply, x, y => .ok (x * y)
  | divide, x, y =>
    if y == 0 ∧ division = .strict then .error (.divisionByZero line) else .ok (x / y)

/-- What a call does with a function, the values of its arguments and the line of the call. -/
abbrev Call (τ : Type) := Function τ → List (Value τ) → Nat → Eval τ (Value τ)

section With

variable {τ : Type} (division : Division) (call : Call τ)

mutual

def evalWith : Expr τ → Eval τ (Value τ)
  | .number x _ => pure (.number x)
  | .var name _ => Eval.read name
  | .arithmetic op left right line => do
    let x ← MonadExcept.ofExcept (operand op line (← evalWith left))
    let y ← MonadExcept.ofExcept (operand op line (← evalWith right))
    let z ← MonadExcept.ofExcept (op.apply division line x y)
    pure (.number z)
  | .assign name value _ => do
    let v ← evalWith value
    Eval.write name v
    pure v
  | .function tag params body line => pure (.function ⟨tag, params, body, line⟩)
  | .call name arguments line => do
    match ← Eval.read name with
    | .function f => call f (← evalAllWith arguments) line
    | .number _ => throw (.notCallable name line)

/-- The values of a list of expressions. -/
def evalAllWith : List (Expr τ) → Eval τ (List (Value τ))
  | [] => pure []
  | e :: es => do
    let v ← evalWith e
    let vs ← evalAllWith es
    pure (v :: vs)

end

/-- The value of the last of a list of expressions, all of which are evaluated. -/
def evalLastWith (es : List (Expr τ)) : Eval τ (Option (Value τ)) := do
  let vs ← evalAllWith division call es
  pure vs.getLast?

end With

section Entry

variable {τ : Type} (settings : Settings)

/-- A call when at most that many further calls may be active at once. -/
def Function.applyWithin : Nat → Call τ
  | n, f, arguments, line =>
    if arguments.length = f.params.length then
      match n with
      | 0 => throw (.callDepth settings.maxCallDepth line)
      | n + 1 => do
        let body := evalLastWith settings.division (applyWithin n) f.body
        match ← Eval.inFrame (f.params.zip arguments) body with
        | some value => pure value
        | none => throw (.emptyBody f.line)
    else throw (.argumentCount f.params.length arguments.length line)

/-- A call under the limit of the settings. -/
def Function.apply : Call τ := fun f arguments line m =>
  applyWithin settings (settings.maxCallDepth - m.callDepth) f arguments line m

/-- The value of a call whose arguments are evaluated in the caller's scope. -/
def Function.invoke (f : Function τ) (arguments : List (Expr τ)) (line : Nat) :
    Eval τ (Value τ) := do
  let values ← evalAllWith settings.division (apply settings) arguments
  f.apply settings values line

/-- The value of an expression. -/
def Expr.eval (e : Expr τ) : Eval τ (Value τ) :=
  evalWith settings.division (Function.apply settings) e

/-- The value of the last of a list of expressions, if there is one. -/
def evalSequence (es : List (Expr τ)) : Eval τ (Option (Value τ)) :=
  evalLastWith settings.division (Function.apply settings) es

/-- The value of the last expression of a program, or zero if there is none. -/
def evalStatements (program : List (Statement τ)) : Eval τ (Value τ) := do
  let last ← evalSequence settings (program.flatMap Statement.expressions)
  pure (last.getD .zero)

end Entry

end Reckon
