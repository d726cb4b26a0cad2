import Reckon.Number.Shortest

/-!
# Tokens

Numbers, names and marks. A mark is a word or a sign with one fixed spelling.
-/

set_option autoImplicit false

namespace Reckon

/-- The words and signs of the language. Scanning skips line breaks and blanks, so that they occur
only in token lists that come from elsewhere. -/
inductive Mark where
  | function
  | finish
  | dot
  | comma
  | openParen
  | closeParen
  | arrow
  | equals
  | plus
  | minus
  | star
  | slash
  | lineBreak
  | blank
deriving DecidableEq, Repr

inductive Token where
  | number (value : Float)
  | name (text : String)
  | mark (mark : Mark)
deriving DecidableEq, Repr

/-- A token and the line that it stands on, the first line being 1. -/
structure Located where
  token : Token
  line : Nat
deriving DecidableEq, Repr

namespace Mark

/-- How a mark is written. -/
def spelling : Mark → String
  | function => "fun"
  | finish => "end"
  | dot => "."
  | comma => ","
  | openParen => "("
  | closeParen => ")"
  | arrow => "->"
  | equals => "="
  | plus => "+"
  | minus => "-"
  | star => "*"
  | slash => "/"
  | lineBreak => "\n"
  | blank => " "

/-- How messages call a mark. -/
def description : Mark → String
  | lineBreak => "newline"
  | blank => "whitespace"
  | m => s!"'{m.spelling}'"

end Mark

namespace Token

/-- How messages call a token. -/
def description : Token → String
  | number value => s!"number {numberText value}"
  | name text => s!"identifier '{text}'"
  | mark m => m.description

end Token

end Reckon
