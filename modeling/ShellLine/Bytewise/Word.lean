import ShellLine.Bytewise.CommandList
import ShellLine.Grammar.Redirection

set_option autoImplicit false

namespace ShellLine.Bytewise

open Program
open Grammar (backtick isWordBreak isSpecialParameter isDoubleQuotedText parameterOperators
  redirectionOperators quotedNode)

def unquotedLiteral (braced : Bool) : Program Node := do
  let start ← position
  scanWhile fun c => !isWordBreak braced c
  if (← position) = start then refuse (.token .unquoted)
  else return .leaf .unquotedLiteral (← sliceFrom start)

-- The number of bytes in front of a character.
def find? (c : Char) : List Char → Option Nat
  | [] => none
  | first :: others => if first = c then some 0 else (find? c others).map (first.utf8Size + ·)

def singleQuote : Program Node :=
  atomic do
    advance 1
    match find? '\'' (← rest) with
    | some count =>
        let start ← position
        let chars ← act (.slice start (start + count))
        advance (count + 1)
        return .leaf .singleQuote chars
    | none =>
        moveTo (← act .length)
        fail (.literal "'")
        refuse (.token .singleQuoted)

def bareEscape : Program Node :=
  atomic do
    advance 1
    match ← rest with
    | [] => refuse (.token .anyCharacter)
    | c :: _ =>
        advance c.utf8Size
        return .leaf .bareEscape (if c = '\n' then [] else [c])

def textRun (accepts : Char → Bool) : Program (Turn Child) := do
  let start ← position
  scanWhile accepts
  return .more (.text (← sliceFrom start))

def escaped (kind : Kind) (chars : List Char) : Program (Turn Child) := do
  advance 2
  return .more (.node (.leaf kind chars))

def backslash : Program (Turn Child) := do
  advance 1
  return .more (.text ['\\'])

def backquotedPart (inDoubleQuote : Bool) : Program (Turn Child) := do
  match ← peek with
  | none =>
      fail (.literal "\x60")
      fail (.literal "\\")
      refuse (.token .backquoted)
  | some '\x60' =>
      advance 1
      return .stop
  | some '\\' =>
      match ← peekAt 1 with
      | some c =>
          if c = backtick ∨ c = '$' ∨ c = '\\' ∨ inDoubleQuote ∧ c = '"' then
            escaped .backquotedEscape [c]
          else backslash
      | none => backslash
  | some _ => textRun fun c => c ≠ backtick && c ≠ '\\'

def backquote (inDoubleQuote : Bool) : Program Node :=
  atomic do
    advance 1
    let parts ← rounds (backquotedPart inDoubleQuote)
    return quotedNode (if inDoubleQuote then .doubleBackquote else .backquote) parts

def bracedParameter : Program (List Char) := do
  let start ← position
  match ← peek with
  | some c =>
      if c.isDigit then
        scanWhile Char.isDigit
        sliceFrom start
      else if isSpecialParameter c then
        advance 1
        sliceFrom start
      else name <|> refuse (.token .parameter)
  | none => name <|> refuse (.token .parameter)

def stringLength : Program Node :=
  atomic do
    advance 2
    literal "#"
    let parameter ← bracedParameter
    literal "\x7d"
    return .leaf .stringLength parameter

def parameterOperation : Program Node :=
  atomic do
    advance 2
    let parameter ← bracedParameter
    let kind ← literalAmong parameterOperators
    let operand ← nested (call .operand)
    literal "\x7d"
    return ⟨kind, .ofList [.text parameter, .node operand], none⟩

def bareBracedParameter : Program Node :=
  atomic do
    advance 2
    let parameter ← bracedParameter
    literal "\x7d"
    return .leaf .bracedParameter parameter

def bracedExpansion : Program Node := stringLength <|> parameterOperation <|> bareBracedParameter

def namedParameter : Program Node := do
  match ← maybe name with
  | some chars => return .leaf .namedParameter chars
  | none =>
      fail (.literal "(")
      fail (.literal "\x7b")
      refuse (.token .dollarParameter)

def plainParameter : Program Node :=
  atomic do
    advance 1
    match ← peek with
    | some c =>
        if isSpecialParameter c then
          advance 1
          return .leaf .specialParameter [c]
        else if c.isDigit then
          advance 1
          return .leaf .positionalParameter [c]
        else namedParameter
    | none => namedParameter

def arithmeticExpansion : Program Node :=
  nested <| atomic do
    advance 3
    blanks
    let words ← many (call .word)
    literal "))"
    return .ofNodes .arithmeticExpansion words

def commandExpansion : Program Node :=
  nested <| atomic do
    advance 2
    blanks
    lineBreak
    let commands ← completeCommands
    lineBreak
    literal ")"
    return .ofNodes .commandExpansion commands

def dollarExpansion : Program Node := do
  let tried ←
    if "$((".toList.isPrefixOf (← rest) then maybe arithmeticExpansion else pure none
  match tried with
  | some node => return node
  | none =>
      if "$(".toList.isPrefixOf (← rest) then commandExpansion
      else if "$\x7b".toList.isPrefixOf (← rest) then bracedExpansion
      else plainParameter

def doubleQuotedPart : Program (Turn Child) := do
  match ← peek with
  | none =>
      fail (.literal "\"")
      fail (.literal "\\")
      fail (.literal "\x60")
      fail (.literal "$")
      refuse (.token .doubleQuoted)
  | some '"' =>
      advance 1
      return .stop
  | some '\\' =>
      match ← peekAt 1 with
      | some c =>
          if c = '$' ∨ c = backtick ∨ c = '"' ∨ c = '\\' then escaped .doubleQuotedEscape [c]
          else if c = '\n' then escaped .doubleQuotedEscape []
          else backslash
      | none => backslash
  | some '\x60' => return .more (.node (← backquote true))
  | some '$' => return .more (.node (← dollarExpansion))
  | some _ => textRun isDoubleQuotedText

def doubleQuote : Program Node :=
  atomic do
    advance 1
    let parts ← rounds doubleQuotedPart
    return quotedNode .doubleQuote parts

def wordPart (braced : Bool) : Program Node := do
  match ← peek with
  | some '\'' => singleQuote
  | some '"' => doubleQuote
  | some '\x60' => backquote false
  | some '$' => dollarExpansion
  | some '\\' => bareEscape
  | _ => unquotedLiteral braced

def wordParts (braced : Bool) : Program (List Node) := many (wordPart braced)

def word : Program Node := do
  match ← wordParts false with
  | [] => miss
  | parts =>
      blanks
      return .ofNodes .word parts

def operand : Program Node := return .ofNodes .word (← wordParts true)

def redirectedDescriptor : Program Node :=
  atomic do
    let start ← position
    scanWhile Char.isDigit
    if (← position) = start then refuse (.token .digit)
    else
      match ← peek with
      | some '<' | some '>' => return .leaf .redirectedDescriptor (← sliceFrom start)
      | _ => miss

-- The mark of an operator counts the bytes from its start on.
def redirection : Program Node := do
  let descriptor ← maybe redirectedDescriptor
  let start ← position
  let kind ← literalAmong redirectionOperators
  blanks
  let target ← call .word
  let mark := (← act .length) - start
  let operation : Node :=
    ⟨kind, .ofNodes [target], if kind.isHereDocument then some mark else none⟩
  return .ofNodes .redirection (descriptor.toList ++ [operation])

end ShellLine.Bytewise
