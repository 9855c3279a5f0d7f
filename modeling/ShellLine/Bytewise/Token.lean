import ShellLine.Bytewise.Program
import ShellLine.Grammar.Token

set_option autoImplicit false

namespace ShellLine.Bytewise

open Program
open Grammar (isDelimiter startsName continuesName reservedWords)

def blank : Program (Turn Unit) := do
  match ← peek with
  | some ' ' | some '\t' =>
      advance 1
      return .more ()
  | some '\\' =>
      if (← peekAt 1) = some '\n' then
        advance 2
        return .more ()
      else return .stop
  | some '#' =>
      scanWhile (· ≠ '\n')
      return .more ()
  | _ => return .stop

def blanks : Program Unit := do
  let _ ← rounds blank

def newline : Program (Turn Unit) := do
  if (← peek) = some '\n' then
    advance 1
    blanks
    return .more ()
  else return .stop

def newlines : Program Unit := do
  if (← peek) = some '\n' then
    let _ ← rounds newline
  else refuse (.token .newline)

def lineBreak : Program Unit := optional newlines

def literal (text : String) : Program Unit := do
  if text.toList.isPrefixOf (← rest) then advance text.utf8ByteSize else refuse (.literal text)

def operator (text : String) : Program Unit := do
  literal text
  blanks

def loneOperator (c : Char) : Program Unit := do
  let start ← position
  literal (.singleton c)
  if (← peek) = some c then
    moveTo start
    refuse (.literal (.singleton c))
  else blanks

def literalAmong : List (String × Kind) → Program Kind
  | [] => miss
  | (text, kind) :: others => (do literal text; return kind) <|> literalAmong others

def keywordHere (word : String) : Program Bool := do
  if word.toList.isPrefixOf (← rest) then
    return (← peekAt word.utf8ByteSize).all isDelimiter
  else return false

def keyword (word : String) : Program Unit := do
  if ← keywordHere word then
    advance word.utf8ByteSize
    blanks
  else refuse (.literal word)

def anyHere : List String → Program Bool
  | [] => return false
  | word :: others => do if ← keywordHere word then return true else anyHere others

def reservedHere : Program Bool := anyHere reservedWords

def name : Program (List Char) := do
  let start ← position
  match ← peek with
  | some c =>
      if startsName c then
        advance 1
        scanWhile continuesName
        sliceFrom start
      else refuse (.token .name)
  | none => refuse (.token .name)

end ShellLine.Bytewise
