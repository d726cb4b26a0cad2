import Reckon.CommandLine

/-!
# The program

The command line with its real files, clock and input.
-/

set_option autoImplicit false

namespace Reckon

/-- A span of time in seconds, to the microsecond. -/
def secondsText (nanoseconds : Nat) : String :=
  String.ofList (Decimal.positional ⟨(nanoseconds + 500) / 1000, -6⟩)

/-- The bytes up to the next line break, or none at the end of the input. -/
partial def readLine (input : IO.FS.Stream) (line : List UInt8) : IO (Option (List UInt8)) := do
  let bytes ← input.read 1
  match bytes.toList with
  | [] => return if line.isEmpty then none else some line.reverse
  | byte :: _ => if byte = 10 then return some line.reverse else readLine input (byte :: line)

/-- Answers the lines of the input one by one. -/
partial def converse (input output : IO.FS.Stream) (s : Session) : IO Unit := do
  output.putStr prompt
  output.flush
  let some bytes ← readLine input [] | return
  let some line := decodeText? bytes | return
  let start ← IO.monoNanosNow
  let some (reply, s) := s.answer? line | return
  output.putStr (reply.text (secondsText ((← IO.monoNanosNow) - start)))
  converse input output s

/-- The contents of a file, if it can be read as text. -/
def readText (path : String) : IO (Option String) := do
  try
    let bytes ← IO.FS.readBinFile path
    return decodeText? bytes.toList
  catch _ => return none

/-- Writes what a run leaves behind. -/
def finish (outcome : Outcome) : IO UInt32 := do
  (← IO.getStdout).putStr outcome.output
  (← IO.getStderr).putStr outcome.errors
  return outcome.exitCode.toUInt32

end Reckon

open Reckon in
def main (arguments : List String) : IO UInt32 := do
  match Options.ofArguments arguments with
  | .error halt => finish (.ofHalt halt)
  | .ok o =>
    match o.contents with
    | none => do
      let output ← IO.getStdout
      output.putStr banner
      converse (← IO.getStdin) output { settings := o.settings }
      return 0
    | some contents =>
      if o.file then
        finish (.ofFile o.settings contents (← readText contents))
      else finish (.ofScript o.settings contents)
