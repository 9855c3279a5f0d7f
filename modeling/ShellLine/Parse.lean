import ShellLine.Config
import ShellLine.Grammar.Rules
import ShellLine.Parsing.Engine
import ShellLine.Tree.Walk

set_option autoImplicit false

namespace ShellLine

open Text

def readProgram (mode : Mode) (text : List Char) : Option Node × State :=
  Grammar.program.run (evaluate grammar mode) mode.limit 0 (.start text)

def State.syntaxError (style : ErrorStyle) (input : String) (s : State) : SyntaxError :=
  let failure := (s.note .endOfInput).failure
  { expected := Expected.sorted failure.expected
    found := failure.cursor.rest.head?
    input := input
    offset := byteLength input.toList - failure.cursor.left
    style := style }

def judge (config : Config) (input : String) (result : Option Node) (s : State) :
    Except ParseError Node :=
  if s.tooDeep then .error (.nestingTooDeep config.maxDepth)
  else
    match s.cursor.rest, result with
    | [], some tree =>
        match tree.firstHereDocument? with
        | some mark =>
            let location := locate input (byteLength input.toList - mark)
            .error (.hereDocument location.line location.column)
        | none => .ok tree
    | _, _ => .error (.malformed (s.syntaxError config.errorStyle input))

def parseWith (keeps : Bool) (config : Config) (input : String) : Except ParseError Node :=
  let length := byteLength input.toList
  if config.maxInputLength ≠ 0 ∧ config.maxInputLength < length then
    .error (.inputTooLong length config.maxInputLength)
  else
    let reading := readProgram ⟨keeps, config.maxDepth⟩ input.toList
    judge config input reading.1 reading.2

-- The tree of a command line, or the first of the errors that apply.
def parse (config : Config) (input : String) : Except ParseError Node :=
  parseWith true config input

end ShellLine
