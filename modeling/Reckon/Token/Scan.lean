import Reckon.Error
import Reckon.Token.Basic

/-!
# Scanning

A source text is cut into tokens from left to right, each as long as possible. Spaces, tabs and
line breaks separate tokens; a character that starts no token is an error of its own, after which
scanning goes on.
-/

set_option autoImplicit false

namespace Reckon

/-- A token at the start of a text, and the number of characters that spell it. -/
structure Lexeme where
  token : Token
  length : Nat
deriving DecidableEq, Repr

namespace Lexeme

def isWordStart (c : Char) : Bool := c.isAlpha || c = '_'

def isWordPart (c : Char) : Bool := c.isAlphanum || c = '_'

/-- The fraction after a run of digits: a point counts only when a digit follows it. -/
def fraction : List Char → List Char
  | '.' :: rest => rest.takeWhile Char.isDigit
  | _ => []

/-- The numeral at the start of a text that starts with a digit. -/
def numeral (text : List Char) : Lexeme :=
  let whole := text.takeWhile Char.isDigit
  let decimals := fraction (text.dropWhile Char.isDigit)
  ⟨.number (Decimal.ofParts whole decimals).toFloat,
    whole.length + if decimals.isEmpty then 0 else decimals.length + 1⟩

/-- A word is a name unless it is one of the two reserved words. -/
def ofWord (letters : List Char) : Token :=
  let word := String.ofList letters
  if word = Mark.function.spelling then .mark .function
  else if word = Mark.finish.spelling then .mark .finish
  else .name word

/-- The word at the start of a text that starts with a letter or an underscore. -/
def word (text : List Char) : Lexeme :=
  let letters := text.takeWhile isWordPart
  ⟨ofWord letters, letters.length⟩

/-- The sign at the start of a text. -/
def sign? : List Char → Option Lexeme
  | '-' :: '>' :: _ => some ⟨.mark .arrow, 2⟩
  | '.' :: _ => some ⟨.mark .dot, 1⟩
  | ',' :: _ => some ⟨.mark .comma, 1⟩
  | '(' :: _ => some ⟨.mark .openParen, 1⟩
  | ')' :: _ => some ⟨.mark .closeParen, 1⟩
  | '=' :: _ => some ⟨.mark .equals, 1⟩
  | '+' :: _ => some ⟨.mark .plus, 1⟩
  | '-' :: _ => some ⟨.mark .minus, 1⟩
  | '*' :: _ => some ⟨.mark .star, 1⟩
  | '/' :: _ => some ⟨.mark .slash, 1⟩
  | _ => none

/-- The longest token at the start of a text. -/
def read? : List Char → Option Lexeme
  | [] => none
  | c :: rest =>
    if c.isDigit then some (numeral (c :: rest))
    else if isWordStart c then some (word (c :: rest))
    else sign? (c :: rest)

end Lexeme

/-- The tokens and unknown characters of a text whose first character stands on `line` and whose
first `covered` characters belong to a token already read. -/
def scanFrom (line covered : Nat) : List Char → List (Except SyntaxError Located)
  | [] => []
  | c :: rest =>
    match covered with
    | covered + 1 => scanFrom line covered rest
    | 0 =>
      if c = '\n' then scanFrom (line + 1) 0 rest
      else if c = ' ' ∨ c = '\t' then scanFrom line 0 rest
      else match Lexeme.read? (c :: rest) with
        | some lexeme => .ok ⟨lexeme.token, line⟩ :: scanFrom line (lexeme.length - 1) rest
        | none => .error (.unknownCharacter c line) :: scanFrom line 0 rest

/-- Covered characters are passed over without counting lines. -/
theorem scanFrom_covered (line covered : Nat) (text : List Char) :
    scanFrom line covered text = scanFrom line 0 (text.drop covered) := by
  induction text generalizing covered with
  | nil => simp [scanFrom]
  | cons c rest ih =>
    cases covered with
    | zero => rfl
    | succ covered => simpa [scanFrom] using ih covered

/-- The tokens and unknown characters of a source text. -/
def scan (source : String) : List (Except SyntaxError Located) := scanFrom 1 0 source.toList

/-- The tokens of a source text, or its first unknown character. -/
def tokenize (source : String) : Except SyntaxError (List Located) := (scan source).mapM id

end Reckon
