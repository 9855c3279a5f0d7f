import ShellLine.Parsing.Expected
import ShellLine.Source.Location

set_option autoImplicit false

namespace ShellLine

inductive ErrorStyle
  | context
  | bare
deriving DecidableEq, Repr

-- What was expected at the rightmost place that was reached, in order and each once.
structure SyntaxError where
  expected : List Expected
  found : Option Char
  input : String
  offset : Nat
  style : ErrorStyle
deriving DecidableEq, Repr

namespace SyntaxError

def message (e : SyntaxError) : String := Expected.message e.expected e.found

def location (e : SyntaxError) : Location := locate e.input e.offset

def context (e : SyntaxError) : String := e.message ++ "\n" ++ caretContext e.input e.offset

def diagnostic (e : SyntaxError) : String := diagnosticContext e.input e.offset e.message

def withStyle (style : ErrorStyle) (e : SyntaxError) : SyntaxError := { e with style := style }

def render (e : SyntaxError) : String :=
  match e.style with
  | .context => e.context
  | .bare => e.message

end SyntaxError

-- Only `malformed` blames the command line; the others are limits and what is not
-- supported.
inductive ParseError
  | malformed (e : SyntaxError)
  | hereDocument (line column : Nat)
  | inputTooLong (length limit : Nat)
  | nestingTooDeep (limit : Nat)
deriving DecidableEq, Repr

namespace ParseError

def message : ParseError → String
  | malformed e => e.render
  | hereDocument line column =>
      "here-documents are not supported (line " ++ line.repr ++ ", column " ++ column.repr ++ ")"
  | inputTooLong length limit =>
      "input is " ++ length.repr ++ " bytes, exceeding the limit of " ++ limit.repr
  | nestingTooDeep limit => "nesting exceeds the limit of " ++ limit.repr ++ " levels"

def position? : ParseError → Option (Nat × Nat)
  | malformed e => some (e.location.line, e.location.column)
  | hereDocument line column => some (line, column)
  | inputTooLong _ _ | nestingTooDeep _ => none

-- Only syntax errors have a style.
def withStyle (style : ErrorStyle) : ParseError → ParseError
  | malformed e => malformed (e.withStyle style)
  | other => other

end ParseError

end ShellLine
