import Reckon.Error
import Reckon.Token.Basic

/-!
# The parser's cursor

A parser moves along a list of tokens and keeps count of the nesting levels that are open. A failing
parser leaves the cursor where it stopped.
-/

set_option autoImplicit false

namespace Reckon

/-- The tokens that are left, and the number of open nesting levels. -/
structure Cursor where
  rest : List Located
  depth : Nat := 0
deriving DecidableEq, Repr

/-- What stays the same throughout a parse: how many levels may be open at once, and the line that is
reported when the tokens run out. -/
structure Bounds where
  limit : Nat
  endLine : Nat
deriving DecidableEq, Repr

abbrev Parser (α : Type) := EStateM SyntaxError Cursor α

namespace Parser

variable {α : Type} (b : Bounds)

/-- The next token, left where it is. -/
def peek : Parser (Option Located) := fun c => .ok c.rest.head? c

/-- Takes the next token. -/
def next : Parser (Option Located) := fun c => .ok c.rest.head? { c with rest := c.rest.tail }

/-- The line of the next token, or the last line. -/
def nextLine : Parser Nat := do
  match ← peek with
  | some t => pure t.line
  | none => pure b.endLine

/-- Whether the next token is the given mark. -/
def ahead (m : Mark) : Parser Bool := do
  match ← peek with
  | some t => pure (t.token = .mark m)
  | none => pure false

/-- Takes the next token if it is the given mark. -/
def accept (m : Mark) : Parser Bool := do
  if ← ahead m then
    let _ ← next
    pure true
  else pure false

/-- Opens a nesting level. -/
def enter (line : Nat) : Parser Unit := fun c =>
  if b.limit ≤ c.depth then .error (.nestingTooDeep b.limit line) c
  else .ok () { c with depth := c.depth + 1 }

/-- Closes nesting levels, as many of them as are open. -/
def release (levels : Nat) : Parser Unit := fun c => .ok () { c with depth := c.depth - levels }

/-- Closes a nesting level. -/
def leave : Parser Unit := release 1

/-- Takes the given mark, and tells its line. -/
def expect (m : Mark) : Parser Nat := do
  match ← next with
  | some t =>
    if t.token = .mark m then pure t.line
    else throw (.expected m.description t.token.description t.line)
  | none => throw (.expected m.description "end of input" b.endLine)

/-- Takes a name. -/
def name : Parser String := do
  match ← next with
  | some ⟨.name text, _⟩ => pure text
  | some t => throw (.expected "an identifier" t.token.description t.line)
  | none => throw (.unexpectedEnd b.endLine)

end Parser

/-- The bounds of a parse, and how its nesting levels are opened and closed. -/
structure Levels extends Bounds where
  enter (line : Nat) : Parser Unit
  release (levels : Nat) : Parser Unit

/-- Levels are opened up to the limit, and closed as far as they are open. -/
def Bounds.levels (b : Bounds) : Levels :=
  { b with enter := Parser.enter b, release := Parser.release }

instance : Coe Bounds Levels := ⟨Bounds.levels⟩

@[simp] theorem Bounds.toBounds_levels (b : Bounds) : b.levels.toBounds = b := rfl

@[simp] theorem Bounds.enter_levels (b : Bounds) : b.levels.enter = Parser.enter b := rfl

@[simp] theorem Bounds.release_levels (b : Bounds) : b.levels.release = Parser.release := rfl

/-- Runs a parser one level deeper; the level is closed also when the parser fails. -/
def Parser.nested {α : Type} (l : Levels) (p : Parser α) : Parser α := do
  l.enter (← nextLine l.toBounds)
  fun c =>
    match p c with
    | .ok a c => (do l.release 1; pure a) c
    | .error e c => (do l.release 1; throw e) c

end Reckon
