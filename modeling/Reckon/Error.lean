/-!
# Errors

Why a source text is no program (`SyntaxError`) and why a program stops without a value
(`RuntimeError`). Every error knows its line, its kind and its message.
-/

set_option autoImplicit false

namespace Reckon

/-- The families of errors. -/
inductive ErrorKind where
  | lexical
  | grammar
  | invocation
  | emptyBody
  | recursionLimit
  | typeMismatch
  | arithmetic
deriving DecidableEq, Repr

/-- Why a source text is not a program. `wanted`, `found` and `token` describe tokens. -/
inductive SyntaxError where
  | unknownCharacter (character : Char) (line : Nat)
  | expected (wanted found : String) (line : Nat)
  | unexpectedToken (token : String) (line : Nat)
  | unexpectedEnd (line : Nat)
  | assignmentTarget (line : Nat)
  | nestingTooDeep (limit line : Nat)
deriving DecidableEq, Repr

/-- Why a program stops without a value. -/
inductive RuntimeError where
  | notCallable (name : String) (line : Nat)
  | argumentCount (expected found line : Nat)
  | emptyBody (line : Nat)
  | callDepth (limit line : Nat)
  | typeMismatch (details : String) (line : Nat)
  | divisionByZero (line : Nat)
deriving DecidableEq, Repr

inductive Error where
  | syntaxError (error : SyntaxError)
  | runtimeError (error : RuntimeError)
deriving DecidableEq, Repr

/-- The text of an error on a line. -/
def onLine (line : Nat) (reason : String) : String := s!"Error on line {line}: {reason}."

namespace SyntaxError

def line : SyntaxError → Nat
  | unknownCharacter _ line | expected _ _ line | unexpectedToken _ line | unexpectedEnd line
  | assignmentTarget line | nestingTooDeep _ line => line

def kind : SyntaxError → ErrorKind
  | unknownCharacter .. => .lexical
  | nestingTooDeep .. => .recursionLimit
  | _ => .grammar

def reason : SyntaxError → String
  | unknownCharacter character _ => s!"Unknown character '{character}'"
  | expected wanted found _ => s!"Expected {wanted} but found {found}"
  | unexpectedToken token _ => s!"Unexpected token: {token}"
  | unexpectedEnd _ => "Unexpected end of input"
  | assignmentTarget _ => "Only a variable can be assigned to"
  | nestingTooDeep limit _ => s!"Expression nesting exceeds the limit of {limit}"

def message (e : SyntaxError) : String := onLine e.line e.reason

end SyntaxError

namespace RuntimeError

def line : RuntimeError → Nat
  | notCallable _ line | argumentCount _ _ line | emptyBody line | callDepth _ line
  | typeMismatch _ line | divisionByZero line => line

def kind : RuntimeError → ErrorKind
  | notCallable .. | argumentCount .. => .invocation
  | emptyBody _ => .emptyBody
  | callDepth .. => .recursionLimit
  | typeMismatch .. => .typeMismatch
  | divisionByZero _ => .arithmetic

def reason : RuntimeError → String
  | notCallable name _ => s!"'{name}' is not a function"
  | argumentCount expected found _ =>
    s!"Argument count mismatch. Expected {expected}, but found {found}"
  | emptyBody _ => "Function body is empty and has no value"
  | callDepth limit _ => s!"Call depth exceeds the limit of {limit}"
  | typeMismatch details _ => s!"Type error: {details}"
  | divisionByZero _ => "Division by zero"

def message (e : RuntimeError) : String := onLine e.line e.reason

end RuntimeError

namespace Error

def line : Error → Nat
  | syntaxError e => e.line
  | runtimeError e => e.line

def kind : Error → ErrorKind
  | syntaxError e => e.kind
  | runtimeError e => e.kind

def message : Error → String
  | syntaxError e => e.message
  | runtimeError e => e.message

end Error

end Reckon
