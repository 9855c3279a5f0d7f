import ShellLine.Tree.Forest

set_option autoImplicit false

namespace ShellLine

def escapeMarkup : Char → List Char
  | '&' => "&amp;".toList
  | '<' => "&lt;".toList
  | '>' => "&gt;".toList
  | '[' => "&#91;".toList
  | ']' => "&#93;".toList
  | c => [c]

def openingTag (kind : Kind) : List Char := '<' :: (kind.tag.toList ++ ['>'])

def closingTag (kind : Kind) : List Char := '<' :: '/' :: (kind.tag.toList ++ ['>'])

def Forest.markup : Forest → List Char
  | nil => []
  | node kind _ contents others =>
      openingTag kind ++ (contents.markup ++ (closingTag kind ++ others.markup))
  | text chars others => chars.flatMap escapeMarkup ++ others.markup
  | list items others => '[' :: (items.markup ++ ']' :: others.markup)

def Node.markup (node : Node) : List Char :=
  openingTag node.kind ++ (node.contents.markup ++ closingTag node.kind)

def Node.dump (node : Node) : String := String.ofList node.markup

end ShellLine
