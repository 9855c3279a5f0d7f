import ShellLine.Proofs.Tree.Descendants

set_option autoImplicit false

namespace ShellLine

def Kind.moveMark (move : Nat → Nat) (kind : Kind) (mark : Option Nat) : Option Nat :=
  if kind.isHereDocument then mark.map move else mark

def Forest.moved (move : Nat → Nat) : Forest → Forest
  | nil => nil
  | node kind mark contents others =>
      node kind (kind.moveMark move mark) (contents.moved move) (others.moved move)
  | text chars others => text chars (others.moved move)
  | list items others => list (items.moved move) (others.moved move)

def Node.moved (move : Nat → Nat) (node : Node) : Node :=
  ⟨node.kind, node.contents.moved move, node.kind.moveMark move node.mark⟩

def Child.moved (move : Nat → Nat) : Child → Child
  | .node inner => .node (inner.moved move)
  | .text chars => .text chars
  | .list items => .list (items.moved move)

def Kind.shiftMark (kind : Kind) (mark : Option Nat) : Option Nat :=
  if kind.isHereDocument then mark.map (· + 1) else mark

def Forest.shifted : Forest → Forest
  | nil => nil
  | node kind mark contents others =>
      node kind (kind.shiftMark mark) contents.shifted others.shifted
  | text chars others => text chars others.shifted
  | list items others => list items.shifted others.shifted

def Node.shifted (node : Node) : Node :=
  ⟨node.kind, node.contents.shifted, node.kind.shiftMark node.mark⟩

def Child.shifted : Child → Child
  | .node inner => .node inner.shifted
  | .text chars => .text chars
  | .list items => .list items.shifted

section Moved

variable (move : Nat → Nat)

@[simp] theorem move_no_mark (kind : Kind) : kind.moveMark move none = none := by
  rw [Kind.moveMark]
  split <;> rfl

theorem moved_cons (child : Child) (others : Forest) :
    (Forest.cons child others).moved move = .cons (child.moved move) (others.moved move) := by
  cases child <;> rfl

@[simp] theorem moved_of_list (children : List Child) :
    (Forest.ofList children).moved move = .ofList (children.map (Child.moved move)) := by
  induction children with
  | nil => rfl
  | cons child others ih => rw [Forest.ofList, moved_cons, ih, List.map_cons, Forest.ofList]

@[simp] theorem moved_row (nodes : List Node) :
    (Forest.ofNodes nodes).moved move = .ofNodes (nodes.map (Node.moved move)) := by
  simp [Forest.ofNodes, Child.moved, Function.comp_def]

@[simp] theorem moved_append (forest more : Forest) :
    (forest.append more).moved move = (forest.moved move).append (more.moved move) := by
  induction forest with
  | nil => rfl
  | node kind mark contents others _ ih => simp only [Forest.append, Forest.moved, ih]
  | text chars others ih => simp only [Forest.append, Forest.moved, ih]
  | list items others _ ih => simp only [Forest.append, Forest.moved, ih]

@[simp] theorem moved_of_nodes (kind : Kind) (nodes : List Node) :
    (Node.ofNodes kind nodes).moved move = .ofNodes kind (nodes.map (Node.moved move)) := by
  simp [Node.moved, Node.ofNodes]

@[simp] theorem moved_wrap (kind : Kind) (node : Node) :
    (Node.wrap kind node).moved move = .wrap kind (node.moved move) := moved_of_nodes move kind [node]

@[simp] theorem moved_leaf (kind : Kind) (chars : List Char) :
    (Node.leaf kind chars).moved move = .leaf kind chars := by
  simp [Node.moved, Node.leaf, Forest.moved]

theorem moved_unmarked_row (forest : Forest)
    (unmarked : ∀ inner ∈ forest.descendants, inner.kind.isHereDocument = false) :
    forest.moved move = forest := by
  induction forest with
  | nil => rfl
  | text chars others ih => rw [Forest.moved, ih unmarked]
  | list items others itemsIh othersIh =>
      rw [descendants_of_list_row, List.forall_mem_append] at unmarked
      rw [Forest.moved, itemsIh unmarked.1, othersIh unmarked.2]
  | node kind mark contents others contentsIh othersIh =>
      rw [descendants_of_node_row, List.forall_mem_cons, List.forall_mem_append] at unmarked
      obtain ⟨plain, inside, later⟩ := unmarked
      have kept : kind.moveMark move mark = mark := if_neg (Bool.eq_false_iff.mp plain)
      rw [Forest.moved, kept, contentsIh inside, othersIh later]

theorem moved_without_here_document {node : Node} (absent : node.firstHereDocument? = none) :
    node.moved move = node := by
  have unmarked := no_here_document_iff.mp absent
  rw [node_descendants, List.forall_mem_cons] at unmarked
  have kept : node.kind.moveMark move node.mark = node.mark := if_neg (Bool.eq_false_iff.mp unmarked.1)
  rw [Node.moved, kept, moved_unmarked_row move _ unmarked.2]

end Moved

section Shifted

theorem shifted_row_is_moved (forest : Forest) : forest.shifted = forest.moved (· + 1) := by
  induction forest with
  | nil => rfl
  | node kind mark contents others contentsIh othersIh =>
      rw [Forest.shifted, Forest.moved, contentsIh, othersIh]
      rfl
  | text chars others ih => rw [Forest.shifted, Forest.moved, ih]
  | list items others itemsIh othersIh => rw [Forest.shifted, Forest.moved, itemsIh, othersIh]

theorem shifted_is_moved : Node.shifted = Node.moved (· + 1) := by
  funext node
  rw [Node.shifted, Node.moved, shifted_row_is_moved]
  rfl

theorem shifted_child_is_moved : Child.shifted = Child.moved (· + 1) := by
  funext child
  cases child with
  | node inner => rw [Child.shifted, Child.moved, shifted_is_moved]
  | text chars => rfl
  | list items => rw [Child.shifted, Child.moved, shifted_row_is_moved]

@[simp] theorem shift_no_mark (kind : Kind) : kind.shiftMark none = none := move_no_mark _ kind

@[simp] theorem shifted_of_list (children : List Child) :
    (Forest.ofList children).shifted = .ofList (children.map Child.shifted) := by
  rw [shifted_row_is_moved, moved_of_list, shifted_child_is_moved]

@[simp] theorem shifted_row (nodes : List Node) :
    (Forest.ofNodes nodes).shifted = .ofNodes (nodes.map Node.shifted) := by
  rw [shifted_row_is_moved, moved_row, shifted_is_moved]

@[simp] theorem shifted_append (forest more : Forest) :
    (forest.append more).shifted = forest.shifted.append more.shifted := by
  rw [shifted_row_is_moved, moved_append, ← shifted_row_is_moved, ← shifted_row_is_moved]

@[simp] theorem shifted_of_nodes (kind : Kind) (nodes : List Node) :
    (Node.ofNodes kind nodes).shifted = .ofNodes kind (nodes.map Node.shifted) := by
  rw [shifted_is_moved, moved_of_nodes]

@[simp] theorem shifted_wrap (kind : Kind) (node : Node) :
    (Node.wrap kind node).shifted = .wrap kind node.shifted := shifted_of_nodes kind [node]

@[simp] theorem shifted_leaf (kind : Kind) (chars : List Char) :
    (Node.leaf kind chars).shifted = .leaf kind chars := by
  rw [shifted_is_moved, moved_leaf]

theorem shifted_without_here_document {node : Node} (absent : node.firstHereDocument? = none) :
    node.shifted = node := by
  rw [shifted_is_moved, moved_without_here_document _ absent]

end Shifted

end ShellLine
