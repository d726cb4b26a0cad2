import Reckon.Expr.Basic
import Reckon.Parse.Cursor
import Reckon.Token.Scan

/-!
# The grammar

A program is a non-empty list of statements, a statement a non-empty list of expressions between
commas, closed by a point. Operators are folded onto a term by precedence; a function literal takes
no operator after it.

The parsers named `…Within n` are for at most `n` remaining tokens; the parsers without a bound take
it from the cursor. Each loop and each nested expression uses up a token, and a bound of zero says
that none is left, so that the bound never decides anything else.

The rules that open or close nesting levels do so by the operations of a `Levels`; the parsers without
a bound have those of their `Bounds`.
-/

set_option autoImplicit false

namespace Reckon

/-- What may stand between two operands. -/
inductive Joint where
  | assign
  | arithmetic (op : Operator)
deriving DecidableEq, Repr

namespace Joint

def ofToken? : Token → Option Joint
  | .mark .equals => some assign
  | .mark .plus => some (arithmetic .add)
  | .mark .minus => some (arithmetic .subtract)
  | .mark .star => some (arithmetic .multiply)
  | .mark .slash => some (arithmetic .divide)
  | _ => none

def precedence : Joint → Nat
  | assign => 1
  | arithmetic op => op.precedence

/-- Whether an operand of the given precedence goes on with this joint. An assignment always does,
which makes it group to the right. -/
def continues (minimum : Nat) : Joint → Bool
  | assign => true
  | arithmetic op => minimum < op.precedence

/-- The tree of two joined operands. -/
def combine (line : Nat) : Joint → Expr Unit → Expr Unit → Except SyntaxError (Expr Unit)
  | assign, .var name _, value => .ok (.assign name value line)
  | assign, _, _ => .error (.assignmentTarget line)
  | arithmetic op, left, right => .ok (.arithmetic op left right line)

end Joint

namespace Parser

variable {α : Type} (b : Bounds) (l : Levels)

/-- One or more items between commas. -/
def list (item : Parser α) : Nat → Parser (List α)
  | 0 => do
    let first ← item
    pure [first]
  | n + 1 => do
    let first ← item
    if ← accept .comma then
      let others ← list item n
      pure (first :: others)
    else pure [first]

/-- One or more items between commas, up to and with a closing mark. -/
def listUpTo (closing : Mark) (item : Parser α) : Nat → Parser (List α)
  | 0 => do
    let first ← item
    pure [first]
  | n + 1 => do
    let first ← item
    match ← next with
    | some t =>
      if t.token = .mark .comma then
        let others ← listUpTo closing item n
        pure (first :: others)
      else if t.token = .mark closing then pure [first]
      else throw (.expected s!"{Mark.comma.description} or {closing.description}"
        t.token.description t.line)
    | none => throw (.expected closing.description "end of input" b.endLine)

/-- Items between commas, up to and with a closing mark. -/
def enclosed (closing : Mark) (item : Parser α) (n : Nat) : Parser (List α) := do
  if ← accept closing then pure []
  else listUpTo b closing item n

/-- Takes the next token if it is a joint with which an operand goes on. -/
def joint (minimum : Nat) : Parser (Option (Joint × Nat)) := do
  match ← peek with
  | some t =>
    match Joint.ofToken? t.token with
    | some j =>
      if j.continues minimum then
        let _ ← next
        pure (some (j, t.line))
      else pure none
    | none => pure none
  | none => pure none

section Open

/-! The rules of the grammar over a given parser for expressions, whose argument is the precedence
that operators have to exceed. -/

variable (expression : Nat → Parser (Expr Unit))

/-- A number, a variable, a call or an expression in parentheses. -/
def term (n : Nat) : Parser (Expr Unit) := do
  match ← next with
  | some ⟨.number value, line⟩ => pure (.number value line)
  | some ⟨.name name, line⟩ =>
    if ← accept .openParen then
      let arguments ← enclosed b .closeParen (expression 0) n
      pure (.call name arguments line)
    else pure (.var name line)
  | some ⟨.mark .openParen, _⟩ => do
    let e ← expression 0
    let _ ← expect b .closeParen
    pure e
  | some t => throw (.unexpectedToken t.token.description t.line)
  | none => throw (.unexpectedEnd b.endLine)

/-- Folds the joints that follow, and their right operands, onto `left`. Each of them puts `left` one
level deeper; the result tells how many of these levels are open. -/
def chain (minimum : Nat) : Nat → Nat → Expr Unit → Parser (Expr Unit × Nat)
  | 0, opened, left => pure (left, opened)
  | n + 1, opened, left => do
    match ← joint minimum with
    | some (j, line) =>
      l.enter line
      let right ← expression j.precedence
      match j.combine line left right with
      | .ok e => chain minimum n (opened + 1) e
      | .error e => throw e
    | none => pure (left, opened)

/-- A term with the joints that follow it. The levels of the chain are closed at its end, and stay
open when it fails. -/
def operation (minimum n : Nat) : Parser (Expr Unit) := do
  let first ← term l.toBounds expression n
  let (e, opened) ← chain l expression minimum n 0 first
  l.release opened
  pure e

def functionLiteral (n : Nat) : Parser (Expr Unit) := do
  let line ← expect b .function
  let _ ← expect b .openParen
  let params ← enclosed b .closeParen (name b) n
  let _ ← expect b .arrow
  let body ← do
    if ← ahead .finish then pure []
    else list (expression 0) n
  let _ ← expect b .finish
  pure (.function () params body line)

end Open

/-- An expression whose operators bind tighter than `minimum`. -/
def expressionWithin : Nat → Nat → Parser (Expr Unit)
  | 0, _ => nested l (throw (.unexpectedEnd l.endLine))
  | n + 1, minimum => nested l do
    if ← ahead .function then functionLiteral l.toBounds (expressionWithin n) n
    else operation l (expressionWithin n) minimum n

def expressionsWithin (n : Nat) : Parser (List (Expr Unit)) := list (expressionWithin l n 0) n

def statementWithin (n : Nat) : Parser (Statement Unit) := do
  let line ← nextLine l.toBounds
  let expressions ← expressionsWithin l n
  let _ ← expect l.toBounds .dot
  pure ⟨expressions, line⟩

def statementsWithin : Nat → Parser (List (Statement Unit))
  | 0 => do
    let first ← statementWithin l 0
    pure [first]
  | n + 1 => do
    let first ← statementWithin l (n + 1)
    match ← peek with
    | some _ => do
      let others ← statementsWithin n
      pure (first :: others)
    | none => pure [first]

def expression (minimum : Nat) : Parser (Expr Unit) :=
  fun c => expressionWithin b c.rest.length minimum c

/-- One or more expressions between commas. -/
def expressions : Parser (List (Expr Unit)) := fun c => expressionsWithin b c.rest.length c

def statement : Parser (Statement Unit) := fun c => statementWithin b c.rest.length c

/-- One or more statements, up to the end of the tokens. -/
def statements : Parser (List (Statement Unit)) := fun c => statementsWithin b c.rest.length c

end Parser

/-- The program that a list of tokens stands for, when at most `limit` nesting levels may be open.
The end of the tokens counts as standing on the line of the last one. -/
def parseTokens (limit : Nat) (tokens : List Located) :
    Except SyntaxError (List (Statement Unit)) :=
  let endLine := (tokens.getLast?.map Located.line).getD 1
  match Parser.statements ⟨limit, endLine⟩ { rest := tokens } with
  | .ok program _ => .ok program
  | .error e _ => .error e

/-- The program that a source text stands for. -/
def parse (limit : Nat) (source : String) : Except SyntaxError (List (Statement Unit)) := do
  parseTokens limit (← tokenize source)

end Reckon
