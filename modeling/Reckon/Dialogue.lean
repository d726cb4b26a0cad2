import Reckon.Session
import Reckon.Text.Blank

/-!
# Dialogues

A dialogue reads lines and answers each of them in one session. It ends at the line `exit`, at a
line that is no text, and with the input.
-/

set_option autoImplicit false

namespace Reckon

/-- The name and version that the program goes by. -/
def banner : String := "funcalc 0.1.0\n"

/-- What asks for the next line. -/
def prompt : String := "> "

/-- The answer to a line. A blank line has none. -/
inductive Reply where
  | silence
  | result (value : Value Nat)
  | failure (error : Error)

/-- The text of an answer that took `elapsed` seconds. -/
def Reply.text (elapsed : String) : Reply → String
  | silence => ""
  | result value => s!"result: {value.text} ({elapsed} sec)\n"
  | failure error => s!"error: {error.message}\n"

namespace Session

/-- The answer to a line, without the blanks around it, unless the line ends the dialogue. -/
def answer? (s : Session) (line : String) : Option (Reply × Session) :=
  let command := trimBlanks line.toList
  if command = "exit".toList then none
  else if command.isEmpty then some (.silence, s)
  else
    match s.run (String.ofList command) with
    | (.ok value, s) => some (.result value, s)
    | (.error e, s) => some (.failure e, s)

/-- The answers to the lines of a dialogue; `none` is a line that is no text. -/
def replies (s : Session) : List (Option String) → List Reply
  | [] | none :: _ => []
  | some line :: lines =>
    match s.answer? line with
    | some (reply, s) => reply :: s.replies lines
    | none => []

/-- All that a dialogue writes, if its `i`-th answer takes `elapsed i` seconds. -/
def transcript (s : Session) (elapsed : Nat → String) (lines : List (Option String)) : String :=
  banner ++ prompt ++
    String.join ((s.replies lines).mapIdx fun i reply => reply.text (elapsed i) ++ prompt)

end Session

/-- The pieces of a byte string between its line breaks; nothing follows the last line break. -/
def splitLines : List UInt8 → List (List UInt8)
  | [] => []
  | byte :: bytes =>
    if byte = 10 then [] :: splitLines bytes
    else match splitLines bytes with
      | [] => [[byte]]
      | line :: lines => (byte :: line) :: lines

/-- The text that bytes stand for in UTF-8. -/
def decodeText? (bytes : List UInt8) : Option String := String.fromUTF8? ⟨bytes.toArray⟩

/-- The lines of an input. -/
def inputLines (input : List UInt8) : List (Option String) := (splitLines input).map decodeText?

end Reckon
