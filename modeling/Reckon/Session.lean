import Reckon.Eval
import Reckon.Expr.Serial
import Reckon.Parse.Grammar

/-!
# Sessions

A session runs source texts one after another in one scope. A text that is no program changes
nothing; a program that fails keeps what it had changed before.
-/

set_option autoImplicit false

namespace Reckon

/-- What is kept from one source text to the next. The serial number of every function that the
session has met is below `nextSerial`. -/
structure Session where
  settings : Settings := {}
  scope : Scope Nat := .empty
  nextSerial : Nat := 0

/-- A function gets a serial number of its own. -/
def Value.serial {τ : Type} : Value τ → StateM Nat (Value Nat)
  | .number x => pure (.number x)
  | .function f => do
    let f ← f.serial
    pure (.function f)

namespace Session

/-- Runs a program. -/
def execute (s : Session) (program : List (Statement Unit)) :
    Except RuntimeError (Value Nat) × Session :=
  let (program, nextSerial) := (program.mapM Statement.serial).run s.nextSerial
  match evalStatements s.settings program { scope := s.scope } with
  | .ok value m => (.ok value, { s with scope := m.scope, nextSerial })
  | .error e m => (.error e, { s with scope := m.scope, nextSerial })

/-- Runs a source text. -/
def run (s : Session) (source : String) : Except Error (Value Nat) × Session :=
  match parse s.settings.maxNestingDepth source with
  | .error e => (.error (.syntaxError e), s)
  | .ok program =>
    let (outcome, s) := s.execute program
    (outcome.mapError .runtimeError, s)

/-- Binds a name in the session's scope. -/
def write (s : Session) (name : String) (value : Value Unit) : Session :=
  let (value, nextSerial) := value.serial.run s.nextSerial
  { s with scope := s.scope.write name value, nextSerial }

end Session

end Reckon
