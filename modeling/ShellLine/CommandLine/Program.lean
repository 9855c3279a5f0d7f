import ShellLine.Analysis.Json
import ShellLine.CommandLine.Fault
import ShellLine.Parse
import ShellLine.Text.WhiteSpace
import ShellLine.Tree.Dump
import ShellLine.Tree.Json

set_option autoImplicit false

namespace ShellLine.CommandLine

inductive Format
  | text
  | json
deriving DecidableEq, Repr

inductive Action
  | check
  | dump
deriving DecidableEq, Repr

-- Where the command line comes from and how its errors are told.
structure InputArgs where
  command : Option String
  stdin : Bool
  bare : Bool
deriving DecidableEq, Repr

structure Cli where
  output : Format
  verbose : Bool
  command : Option (Action × InputArgs)
deriving DecidableEq, Repr

-- Wrong arguments end a run before it has printed anything of its own.
inductive Outcome
  | exit (code : Nat) (out err : String)
  | misuse
deriving DecidableEq, Repr

structure Environment where
  maxInput : Option String := none
  maxDepth : Option String := none
deriving DecidableEq, Repr

def digits? (chars : List Char) : Option Nat :=
  if chars ≠ [] ∧ chars.all Char.isDigit then
    some (chars.foldl (fun value digit => 10 * value + (digit.toNat - '0'.toNat)) 0)
  else none

-- Decimal digits with an optional plus sign and white space around.
def limit? (text : String) : Option Nat := do
  let value ← match Text.trim text.toList with
    | '+' :: chars => digits? chars
    | chars => digits? chars
  if value ≤ Config.largestLimit then some value else none

-- Limits that cannot be read are left at their defaults.
def Environment.config (environment : Environment) (bare : Bool) : Config :=
  { maxInputLength := (environment.maxInput.bind limit?).getD Config.default.maxInputLength
    maxDepth := (environment.maxDepth.bind limit?).getD Config.default.maxDepth
    errorStyle := if bare then .bare else .context }

def readToString (stdin : ByteArray) : Except Fault String :=
  match String.fromUTF8? stdin with
  | some text => .ok text
  | none => .error (.of (.told "stream did not contain valid UTF-8"))

-- Syntax errors have an exit code of their own.
def refusal : ParseError → Fault
  | .malformed e => .of (.exit ⟨2, e.render⟩)
  | other => .of (.parse other)

namespace InputArgs

def read (input : InputArgs) (stdin : ByteArray) : Except Fault String :=
  match input.command with
  | some command => .ok command
  | none =>
      if input.stdin then
        (readToString stdin).mapError (.withContext "failed to read command line from stdin")
      else .error (.of (.told "no command line given; pass COMMAND or --stdin"))

def parse (input : InputArgs) (environment : Environment) (source : String) : Except Fault Node :=
  (ShellLine.parse (environment.config input.bare) source).mapError refusal

end InputArgs

-- What a run takes from libraries: its arguments, unless they end it, the text of its help, and values
-- as indented JSON.
structure Libraries where
  arguments : List String → Except Outcome Cli
  help : Except String String
  pretty : Json → Except String String

-- What fails keeps what was printed before.
abbrev Printing := ExceptT Fault (StateM String)

namespace Printing

def ofLibrary {α : Type} (result : Except String α) : Printing α :=
  ofExcept (result.mapError fun message => .of (.told message))

def print (text : String) : Printing Unit := modify (· ++ text)

end Printing

namespace Libraries

open Printing

variable (libraries : Libraries)

def printJson (value : Json) : Printing Unit := do
  print ((← ofLibrary (libraries.pretty value)) ++ "\n")

def answer (tree : Node) : Action → Format → Printing Unit
  | .check, .text => print tree.describe.text
  | .check, .json => libraries.printJson tree.describe.toJson
  | .dump, .text => print (tree.dump ++ "\n")
  | .dump, .json => libraries.printJson tree.toJson

def handle (environment : Environment) (stdin : ByteArray) (action : Action) (input : InputArgs)
    (format : Format) : Printing Unit := do
  let source ← ofExcept (input.read stdin)
  let tree ← ofExcept (input.parse environment source)
  libraries.answer tree action format

def program (environment : Environment) (stdin : ByteArray) (cli : Cli) : Printing Unit := do
  match cli.command with
  | some (action, input) => libraries.handle environment stdin action input cli.output
  | none =>
      print (← ofLibrary libraries.help)
      print "\n"

end Libraries

def conclude : Except Fault Unit × String → Outcome
  | (.ok (), out) => .exit 0 out ""
  | (.error fault, out) =>
      let message := fault.message
      .exit fault.code out (if message = "" then "" else "Error: " ++ message ++ "\n")

-- What a run prints and its exit code.
def Libraries.run (libraries : Libraries) (arguments : List String) (environment : Environment)
    (stdin : ByteArray) : Outcome :=
  match libraries.arguments arguments with
  | .error outcome => outcome
  | .ok cli => conclude ((libraries.program environment stdin cli).run.run "")

end ShellLine.CommandLine
