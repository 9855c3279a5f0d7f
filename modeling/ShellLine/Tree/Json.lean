import ShellLine.Json.Value
import ShellLine.Tree.Forest

set_option autoImplicit false

namespace ShellLine

-- A node is an object of its kind and its contents.
def nodeJson (kind : Kind) (contents : JsonItems) : Json :=
  .object (.cons "type".toList (.string kind.tag.toList)
    (.cons "contents".toList (.array contents) .nil))

def Forest.toJson : Forest → JsonItems
  | nil => .nil
  | node kind _ contents others => .cons (nodeJson kind contents.toJson) others.toJson
  | text chars others => .cons (.string chars) others.toJson
  | list items others => .cons (.array items.toJson) others.toJson

def Node.toJson (node : Node) : Json := nodeJson node.kind node.contents.toJson

end ShellLine
