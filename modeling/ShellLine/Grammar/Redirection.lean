import ShellLine.Grammar.Word

set_option autoImplicit false

namespace ShellLine.Grammar

open ShellLine.Parser

-- The redirection operators. One that starts with another stands before it.
def redirectionOperators : List (String × Kind) :=
  [("<<-", .hereDocumentStripped), ("<<", .hereDocument), ("<&", .duplicateInput),
    ("<>", .readAndWrite), ("<", .input), (">>", .appendOutput), (">&", .duplicateOutput),
    (">|", .clobber), (">", .output)]

-- Digits are a descriptor only right in front of an operator.
def redirectedDescriptor : Parser Node :=
  atomic do
    let digits ← takeWhile Char.isDigit
    if digits = [] then refuse (.token .digit)
    else
      match (← look).head? with
      | some '<' | some '>' => return .leaf .redirectedDescriptor digits
      | _ => fail

def redirection : Parser Node := do
  let descriptor ← attempt redirectedDescriptor
  let mark ← place
  let kind ← literalAmong redirectionOperators
  blanks
  let target ← call .word
  let operation : Node :=
    ⟨kind, .ofNodes [target], if kind.isHereDocument then some mark else none⟩
  return .ofNodes .redirection (descriptor.toList ++ [operation])

end ShellLine.Grammar
