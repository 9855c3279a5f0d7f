import ShellLine.Grammar.CommandList

set_option autoImplicit false

namespace ShellLine.Grammar

open ShellLine.Parser

def isSpecialParameter (c : Char) : Bool := c ∈ ['@', '*', '#', '?', '-', '$', '!', '0']

-- The operators of braced parameters. One that starts with another stands before it.
def parameterOperators : List (String × Kind) :=
  [(":-", .useDefault), (":=", .assignDefault), (":?", .indicateError), (":+", .useAlternative),
    ("%%", .removeLargestSuffix), ("%", .removeSmallestSuffix), ("##", .removeLargestPrefix),
    ("#", .removeSmallestPrefix), ("-", .useDefaultUnset), ("=", .assignDefaultUnset),
    ("?", .indicateErrorUnset), ("+", .useAlternativeUnset)]

def arithmeticExpansion : Parser Node :=
  nested <| atomic do
    skip 3
    blanks
    let words ← many (call .word)
    literal "))"
    return .ofNodes .arithmeticExpansion words

def commandExpansion : Parser Node :=
  nested <| atomic do
    skip 2
    blanks
    lineBreak
    let commands ← completeCommands
    lineBreak
    literal ")"
    return .ofNodes .commandExpansion commands

-- A name, a run of digits or one special parameter.
def bracedParameter : Parser (List Char) := do
  match ← look with
  | c :: _ =>
      if c.isDigit then takeWhile Char.isDigit
      else if isSpecialParameter c then take 1
      else name <|> refuse (.token .parameter)
  | [] => name <|> refuse (.token .parameter)

def stringLength : Parser Node :=
  atomic do
    skip 2
    literal "#"
    let parameter ← bracedParameter
    literal "\x7d"
    return .leaf .stringLength parameter

def parameterOperation : Parser Node :=
  atomic do
    skip 2
    let parameter ← bracedParameter
    let kind ← literalAmong parameterOperators
    let operand ← nested (call .operand)
    literal "\x7d"
    return ⟨kind, .ofList [.text parameter, .node operand], none⟩

def bareBracedParameter : Parser Node :=
  atomic do
    skip 2
    let parameter ← bracedParameter
    literal "\x7d"
    return .leaf .bracedParameter parameter

def bracedExpansion : Parser Node := stringLength <|> parameterOperation <|> bareBracedParameter

-- A dollar sign that no parameter follows is an error, never text.
def namedParameter : Parser Node := do
  match ← attempt name with
  | some chars => return .leaf .namedParameter chars
  | none =>
      expected (.literal "(")
      expected (.literal "\x7b")
      refuse (.token .dollarParameter)

def plainParameter : Parser Node :=
  atomic do
    skip 1
    match ← look with
    | c :: _ =>
        if isSpecialParameter c then
          skip 1
          return .leaf .specialParameter [c]
        else if c.isDigit then
          skip 1
          return .leaf .positionalParameter [c]
        else namedParameter
    | [] => namedParameter

-- Two parentheses open an arithmetic expansion or, failing that, a subshell in a command.
def dollarExpansion : Parser Node := do
  match ← look with
  | '$' :: '(' :: '(' :: _ => arithmeticExpansion <|> commandExpansion
  | '$' :: '(' :: _ => commandExpansion
  | '$' :: '\x7b' :: _ => bracedExpansion
  | _ => plainParameter

end ShellLine.Grammar
