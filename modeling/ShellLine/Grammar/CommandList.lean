import ShellLine.Grammar.Token

set_option autoImplicit false

namespace ShellLine.Grammar

open ShellLine.Parser

inductive Separator
  | background
  | sequential
deriving DecidableEq, Repr

def separator (lines : Bool) : Parser Separator :=
  let moreLines : Parser Unit := if lines then lineBreak else return ()
  (do loneOperator '&'; moreLines; return .background) <|>
    (do loneOperator ';'; moreLines; return .sequential) <|>
    (if lines then do newlines; return .sequential else fail)

def term (lines : Bool) : Parser (Turn Node) := do
  match ← attempt (call .andOr) with
  | none => return .stop
  | some node =>
      match ← attempt (separator lines) with
      | none => return .last node
      | some .background => return .more (.wrap .background node)
      | some .sequential => return .more node

def termList (lines : Bool) : Parser Node := do
  match ← rounds (term lines) with
  | [] => fail
  | [only] => return only
  | terms => return .ofNodes .list terms

def completeCommand : Parser Node := return .wrap .completeCommand (← termList false)

def completeCommands : Parser (List Node) := do
  match ← attempt completeCommand with
  | none => return []
  | some first => return first :: (← many (do newlines; completeCommand))

def program : Parser Node := do
  blanks
  lineBreak
  let commands ← completeCommands
  lineBreak
  return .ofNodes .program commands

end ShellLine.Grammar
