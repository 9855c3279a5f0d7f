import ShellLine.ParseError

set_option autoImplicit false

namespace ShellLine

-- A limit of 0 is none. Nesting counts compound lists, substitutions and braced operands.
structure Config where
  maxInputLength : Nat := 65536
  maxDepth : Nat := 64
  errorStyle : ErrorStyle := .context
deriving DecidableEq, Repr

namespace Config

def default : Config := {}

def unlimited : Config := { maxInputLength := 0, maxDepth := 0 }

-- Limits are numbers of 64 bits.
def largestLimit : Nat := 18446744073709551615

end Config

end ShellLine
