import ShellLine.Tree.Kind

set_option autoImplicit false

namespace ShellLine

-- The mark of a node is the number of bytes from its start to the end of the text it was
-- read from. Only the operators that open a here-document carry one.
inductive Forest
  | nil
  | node (kind : Kind) (mark : Option Nat) (contents others : Forest)
  | text (chars : List Char) (others : Forest)
  | list (items others : Forest)
deriving DecidableEq, Repr

structure Node where
  kind : Kind
  contents : Forest
  mark : Option Nat := none
deriving DecidableEq, Repr

inductive Child
  | node (node : Node)
  | text (chars : List Char)
  | list (items : Forest)
deriving DecidableEq, Repr

namespace Forest

def cons : Child → Forest → Forest
  | .node ⟨kind, contents, mark⟩, others => .node kind mark contents others
  | .text chars, others => .text chars others
  | .list items, others => .list items others

def ofList : List Child → Forest
  | [] => nil
  | child :: others => cons child (ofList others)

def toList : Forest → List Child
  | nil => []
  | node kind mark contents others => .node ⟨kind, contents, mark⟩ :: others.toList
  | text chars others => .text chars :: others.toList
  | list items others => .list items :: others.toList

def ofNodes (nodes : List Node) : Forest := ofList (nodes.map Child.node)

def append : Forest → Forest → Forest
  | nil, more => more
  | node kind mark contents others, more => .node kind mark contents (others.append more)
  | text chars others, more => .text chars (others.append more)
  | list items others, more => .list items (others.append more)

def nodes : Forest → List Node
  | nil => []
  | node kind mark contents others => ⟨kind, contents, mark⟩ :: others.nodes
  | text _ others => others.nodes
  | list items others => items.nodes ++ others.nodes

def ownText : Forest → List Char
  | nil => []
  | node _ _ _ others => others.ownText
  | text chars others => chars ++ others.ownText
  | list _ others => others.ownText

def soleText? : Forest → Option (List Char)
  | text chars nil => some chars
  | _ => none

theorem to_list_cons (child : Child) (others : Forest) :
    (cons child others).toList = child :: others.toList := by
  cases child <;> rfl

theorem to_list_of_list (children : List Child) : (ofList children).toList = children := by
  induction children with
  | nil => rfl
  | cons child others ih => rw [ofList, to_list_cons, ih]

theorem of_list_to_list (forest : Forest) : ofList forest.toList = forest := by
  induction forest with
  | nil => rfl
  | node kind mark contents others _ ih => simp only [toList, ofList, cons, ih]
  | text chars others ih => simp only [toList, ofList, cons, ih]
  | list items others _ ih => simp only [toList, ofList, cons, ih]

theorem to_list_append (forest more : Forest) :
    (forest.append more).toList = forest.toList ++ more.toList := by
  induction forest with
  | nil => rfl
  | node kind mark contents others _ ih => simp only [append, toList, ih, List.cons_append]
  | text chars others ih => simp only [append, toList, ih, List.cons_append]
  | list items others _ ih => simp only [append, toList, ih, List.cons_append]

theorem to_list_inj {forest other : Forest} : forest.toList = other.toList ↔ forest = other := by
  refine ⟨fun same => ?_, congrArg toList⟩
  rw [← of_list_to_list forest, same, of_list_to_list]

theorem append_nil (forest : Forest) : forest.append nil = forest := by
  rw [← to_list_inj, to_list_append, toList, List.append_nil]

theorem of_nodes_append (nodes more : List Node) :
    (ofNodes nodes).append (ofNodes more) = ofNodes (nodes ++ more) := by
  rw [← to_list_inj, to_list_append]
  simp only [ofNodes, to_list_of_list, List.map_append]

end Forest

namespace Node

def ofNodes (kind : Kind) (nodes : List Node) : Node := ⟨kind, .ofNodes nodes, none⟩

def wrap (kind : Kind) (inner : Node) : Node := ofNodes kind [inner]

def leaf (kind : Kind) (chars : List Char) : Node := ⟨kind, .text chars .nil, none⟩

def children (node : Node) : List Node := node.contents.nodes

def text (node : Node) : List Char := node.contents.ownText

def soleText? (node : Node) : Option (List Char) := node.contents.soleText?

theorem contents_of_nodes (kind : Kind) (nodes : List Node) :
    (ofNodes kind nodes).contents.toList = nodes.map Child.node := Forest.to_list_of_list _

theorem children_of_nodes (kind : Kind) (nodes : List Node) :
    (ofNodes kind nodes).children = nodes := by
  change (Forest.ofNodes nodes).nodes = nodes
  induction nodes with
  | nil => rfl
  | cons first others ih => exact congrArg (first :: ·) ih

theorem mem_of_nodes (kind : Kind) (nodes : List Node) (node : Node) :
    Child.node node ∈ (ofNodes kind nodes).contents.toList ↔ node ∈ nodes := by
  simp [contents_of_nodes]

theorem of_nodes_injective (kind kind' : Kind) (nodes others : List Node)
    (same : ofNodes kind nodes = ofNodes kind' others) : kind = kind' ∧ nodes = others := by
  have kinds := congrArg Node.kind same
  have lists := congrArg children same
  rw [children_of_nodes, children_of_nodes] at lists
  exact ⟨kinds, lists⟩

end Node

end ShellLine
