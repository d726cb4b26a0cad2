import Reckon.Dialogue

/-!
# The command line

Arguments are read from left to right, and the first one that asks for the version or cannot stand
where it does decides. With an argument that is no option the program runs one script, and without
one it holds a dialogue.
-/

set_option autoImplicit false

namespace Reckon

/-- What the arguments have asked for so far. -/
structure Options where
  file : Bool := false
  strict : Bool := false
  nesting : Option Nat := none
  calls : Option Nat := none
  contents : Option String := none
deriving DecidableEq, Repr

/-- Why reading the arguments stops early. -/
inductive Halt where
  | version
  | misuse
deriving DecidableEq, Repr

/-- Options without a value. -/
inductive Flag where
  | file
  | strict
  | version
deriving DecidableEq, Repr

/-- Options with a number as their value. -/
inductive Quantity where
  | nesting
  | calls
deriving DecidableEq, Repr

def Flag.ofLetter? : Char → Option Flag
  | 'f' => some file
  | 'V' => some version
  | _ => none

def Flag.ofName? : String → Option Flag
  | "file" => some file
  | "strict-division" => some strict
  | "version" => some version
  | _ => none

def Quantity.ofName? : String → Option Quantity
  | "max-nesting-depth" => some nesting
  | "max-call-depth" => some calls
  | _ => none

/-- What an argument is. A quantity without a value takes the next argument as its value; an unknown
flag is `none`. -/
inductive Argument where
  | flags (flags : List (Option Flag))
  | quantity (quantity : Quantity) (value : Option (List Char))
  | contents (text : String)
  | escape
deriving DecidableEq, Repr

/-- The option that a name after two dashes stands for, with the value after an equals sign. -/
def Argument.ofOption (option : List Char) : Argument :=
  let name := String.ofList (option.takeWhile (· ≠ '='))
  let value := (option.dropWhile (· ≠ '=')).tail?
  match Quantity.ofName? name with
  | some q => quantity q value
  | none => flags [if value.isSome then none else Flag.ofName? name]

def Argument.ofText (text : String) : Argument :=
  match text.toList with
  | ['-', '-'] => escape
  | '-' :: '-' :: option => ofOption option
  | '-' :: letter :: letters => flags ((letter :: letters).map Flag.ofLetter?)
  | _ => contents text

/-- A number in decimal digits, with a plus sign or without, that fits into 64 bits. -/
def natural? (text : List Char) : Option Nat :=
  let digits := match text with
    | '+' :: rest => rest
    | _ => text
  if digits.isEmpty then none
  else if digits.all Char.isDigit then
    let n := Decimal.ofDigits digits
    if n < UInt64.size then some n else none
  else none

namespace Options

def settings (o : Options) : Settings where
  maxNestingDepth := o.nesting.getD { : Settings }.maxNestingDepth
  maxCallDepth := o.calls.getD { : Settings }.maxCallDepth
  division := if o.strict then .strict else .ieee

/-- No flag is given twice. -/
def addFlag (o : Options) : Option Flag → Except Halt Options
  | some .file => if o.file then .error .misuse else .ok { o with file := true }
  | some .strict => if o.strict then .error .misuse else .ok { o with strict := true }
  | some .version => .error .version
  | none => .error .misuse

/-- No quantity is given twice. -/
def addQuantity (o : Options) (quantity : Quantity) (text : List Char) : Except Halt Options :=
  match quantity, natural? text, o.nesting, o.calls with
  | .nesting, some n, none, _ => .ok { o with nesting := some n }
  | .calls, some n, _, none => .ok { o with calls := some n }
  | _, _, _, _ => .error .misuse

/-- There is one script at most. -/
def addContents (o : Options) (text : String) : Except Halt Options :=
  if o.contents.isSome then .error .misuse else .ok { o with contents := some text }

/-- Reads the arguments that are left. After `--` none of them is an option. -/
def addArguments (o : Options) : List String → Except Halt Options
  | [] => .ok o
  | argument :: rest =>
    match Argument.ofText argument with
    | .flags flags => do
      let o ← flags.foldlM addFlag o
      o.addArguments rest
    | .quantity q (some value) => do
      let o ← o.addQuantity q value
      o.addArguments rest
    | .quantity q none =>
      match rest with
      | [] => .error .misuse
      | value :: rest => do
        let o ← o.addQuantity q value.toList
        o.addArguments rest
    | .contents text => do
      let o ← o.addContents text
      o.addArguments rest
    | .escape => rest.foldlM addContents o

/-- What a command line asks for. -/
def ofArguments (arguments : List String) : Except Halt Options := addArguments {} arguments

end Options

/-- What a run of the program leaves behind. -/
structure Outcome where
  exitCode : Nat
  output : String := ""
  errors : String := ""
deriving DecidableEq, Repr

namespace Outcome

def usage : String :=
  "Usage: funcalc [-f|--file] [--strict-division] [--max-nesting-depth N] [--max-call-depth N]" ++
    " [-V|--version] [CONTENTS]\n"

/-- The run that ends while the arguments are read. -/
def ofHalt : Halt → Outcome
  | .version => { exitCode := 0, output := banner }
  | .misuse => { exitCode := 2, errors := usage }

/-- The run of one script. -/
def ofScript (settings : Settings) (source : String) : Outcome :=
  match (Session.run { settings } source).1 with
  | .ok value => { exitCode := 0, output := value.text ++ "\n" }
  | .error e => { exitCode := 1, errors := e.message ++ "\n" }

/-- The run of the script in a file, whose contents are given if it could be read as text. -/
def ofFile (settings : Settings) (path : String) : Option String → Outcome
  | some source => ofScript settings source
  | none =>
    { exitCode := 1,
      errors := s!"Failed to read the input file '{path}'. Perhaps this file does not exist?\n" }

/-- The run of the program with the given arguments, files and input, whose answers all take
`elapsed` seconds. -/
def ofArguments (arguments : List String) (readFile : String → Option String)
    (input : List UInt8) (elapsed : String) : Outcome :=
  match Options.ofArguments arguments with
  | .error halt => ofHalt halt
  | .ok o =>
    match o.contents with
    | none =>
      { exitCode := 0,
        output :=
          Session.transcript { settings := o.settings } (fun _ => elapsed) (inputLines input) }
    | some contents =>
      if o.file then ofFile o.settings contents (readFile contents)
      else ofScript o.settings contents

end Outcome

end Reckon
