import ShellLine.Bytewise.Token
import ShellLine.Grammar.CommandList

set_option autoImplicit false

namespace ShellLine.Bytewise

open Program
open Grammar (Separator)

def separator (lines : Bool) : Program Separator :=
  let moreLines : Program Unit := if lines then lineBreak else return ()
  (do loneOperator '&'; moreLines; return .background) <|>
    (do loneOperator ';'; moreLines; return .sequential) <|>
    (if lines then do newlines; return .sequential else miss)

def term (lines : Bool) : Program (Turn Node) := do
  match ← maybe (call .andOr) with
  | none => return .stop
  | some node =>
      match ← maybe (separator lines) with
      | none => return .last node
      | some .background => return .more (.wrap .background node)
      | some .sequential => return .more node

def termList (lines : Bool) : Program Node := do
  match ← rounds (term lines) with
  | [] => miss
  | [only] => return only
  | terms => return .ofNodes .list terms

def completeCommand : Program Node := return .wrap .completeCommand (← termList false)

def completeCommands : Program (List Node) := do
  match ← maybe completeCommand with
  | none => return []
  | some first => return first :: (← attempts do newlines; completeCommand)

def program : Program Node := do
  blanks
  lineBreak
  let commands ← completeCommands
  lineBreak
  return .ofNodes .program commands

end ShellLine.Bytewise
