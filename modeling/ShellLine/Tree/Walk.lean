import ShellLine.Tree.Forest

set_option autoImplicit false

namespace ShellLine

inductive Visit
  | node (node : Node)
  | text (chars : List Char)
deriving DecidableEq, Repr

namespace Visit

def node? : Visit → Option Node
  | node inner => some inner
  | text _ => none

def text? : Visit → Option (List Char)
  | node _ => none
  | text chars => some chars

end Visit

def Forest.walk (enters : Node → Bool) : Forest → List Visit
  | nil => []
  | node kind mark contents others =>
      .node ⟨kind, contents, mark⟩ ::
        ((if enters ⟨kind, contents, mark⟩ then contents.walk enters else []) ++ others.walk enters)
  | text chars others => .text chars :: others.walk enters
  | list items others => items.walk enters ++ others.walk enters

namespace Node

def walk (enters : Node → Bool) (node : Node) : List Visit :=
  .node node :: if enters node then node.contents.walk enters else []

def descendants (node : Node) : List Node := (node.walk fun _ => true).filterMap Visit.node?

def texts (node : Node) : List (List Char) := (node.walk fun _ => true).filterMap Visit.text?

-- The mark of the leftmost here-document: the one with the most bytes still to come.
def firstHereDocument? (node : Node) : Option Nat :=
  ((node.descendants.filter fun inner => inner.kind.isHereDocument).map
    fun inner => inner.mark.getD 0).max?

end Node

end ShellLine
