import ShellLine.Tree.Forest

set_option autoImplicit false

namespace ShellLine

-- What is left of a double quote, if it holds texts and escapes only.
def unquoteDouble? : List Child → Option (List Char)
  | [] => some []
  | .text chars :: others => (unquoteDouble? others).map (chars ++ ·)
  | .node inner :: others =>
      if inner.kind = .doubleQuotedEscape then do
        return (← inner.soleText?) ++ (← unquoteDouble? others)
      else none
  | .list _ :: _ => none

def unquotePart? : Child → Option (List Char)
  | .node part =>
      match part.kind with
      | .singleQuote | .unquotedLiteral | .bareEscape => part.soleText?
      | .doubleQuote => unquoteDouble? part.contents.toList
      | _ => none
  | _ => none

namespace Node

-- The text that a word stands for once its quotes are gone.
def unquote? (word : Node) : Option String := do
  let parts ← word.contents.toList.mapM unquotePart?
  return String.ofList parts.flatten

-- The only child of a node of the given kind.
def onlyChild? (kind : Kind) (node : Node) : Option Node :=
  if node.kind = kind then
    match node.contents.toList with
    | [.node only] => some only
    | _ => none
  else none

def words (node : Node) : List Node :=
  node.contents.toList.filterMap fun
    | .node inner => if inner.kind = .word then some inner else none
    | _ => none

-- Redirections and assignments in front of the command are no arguments.
def literalArgv? (root : Node) : Option (List String) := do
  let command ← (← root.onlyChild? .program).onlyChild? .completeCommand
  if command.kind = .simpleCommand then command.words.mapM unquote? else none

end Node

end ShellLine
