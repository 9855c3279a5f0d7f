import ShellLine.Grammar.Command
import ShellLine.Grammar.Redirection

set_option autoImplicit false

namespace ShellLine

def grammar : Rule → Parser Node
  | .word => Grammar.word
  | .redirection => Grammar.redirection
  | .operand => Grammar.operand
  | .command => Grammar.command
  | .andOr => Grammar.andOr
  | .conditional => Grammar.conditional

end ShellLine
