import ShellLine.Proofs.Reading.MayGive
import ShellLine.Proofs.Shape.Formed

set_option autoImplicit false

namespace ShellLine

-- Whether a node is marked as the grammar marks it: the operators that open a here-document with a
-- place of which something holds, and nothing else.
def Node.Marked (places : Nat → Prop) (node : Node) : Prop :=
  if node.kind.isHereDocument then ∃ place, node.mark = some place ∧ places place
  else node.mark = none

-- A node that stacks up at most so many others, and itself, above the next level, within the levels
-- that are left. Links of chains do not count, and neither does an `else` with the choice it holds.
inductive Stacked (places : Nat → Prop) : Room → Nat → Node → Prop
  | node {room : Room} {count : Nat} {node : Node} (marked : node.Marked places)
      (below : ∀ child ∈ node.children, Stacked places room count child) :
      Stacked places room (count + 1) node
  | link {room : Room} {count : Nat} {node : Node} (links : node.kind = .andIf ∨ node.kind = .orIf)
      (marked : node.Marked places)
      (below : ∀ child ∈ node.children, Stacked places room (count + 1) child) :
      Stacked places room (count + 1) node
  | choice {room : Room} {count : Nat} {parts : List Node}
      (below : ∀ part ∈ parts, Stacked places room (count + 1) part) :
      Stacked places room (count + 1) (.wrap .otherwise (.ofNodes .ifChoice parts))
  | deeper {room less : Room} {node : Node} (opens : less.map (· + 1) = room)
      (inside : Stacked places less 13 node) : Stacked places room 0 node
  | higher {room : Room} {count more : Nat} {node : Node} (bounds : count ≤ more)
      (stacked : Stacked places room count node) : Stacked places room more node

section Building

variable {places : Nat → Prop} {room : Room} {count : Nat} {kind : Kind} {nodes : List Node}

theorem marked_of_plain {node : Node} (plain : node.kind.isHereDocument = false)
    (unmarked : node.mark = none) : node.Marked places := by
  rwa [Node.Marked, plain]

theorem stacked_leaf {chars : List Char} (plain : kind.isHereDocument = false) :
    Stacked places room (count + 1) (.leaf kind chars) :=
  .node (marked_of_plain plain rfl) (by intro child member; cases member)

theorem stacked_of_nodes (plain : kind.isHereDocument = false)
    (below : ∀ node ∈ nodes, Stacked places room count node) :
    Stacked places room (count + 1) (.ofNodes kind nodes) :=
  .node (marked_of_plain plain rfl) (by rwa [Node.children_of_nodes])

theorem stacked_wrap {inner : Node} (plain : kind.isHereDocument = false)
    (inside : Stacked places room count inner) : Stacked places room (count + 1) (.wrap kind inner) :=
  stacked_of_nodes plain (List.forall_mem_singleton.mpr inside)

theorem marked_descendants {node : Node} (marked : node.Marked places)
    (below : ∀ child ∈ node.children, ∀ inner ∈ child.descendants, inner.Marked places) :
    ∀ inner ∈ node.descendants, inner.Marked places := by
  rw [node_descendants]
  refine List.forall_mem_cons.mpr ⟨marked, fun inner member => ?_⟩
  obtain ⟨child, here, inside⟩ := (mem_descendants_iff_below_nodes _ inner).mp member
  exact below child here inner inside

theorem stacked_marked {node : Node} (stacked : Stacked places room count node) :
    ∀ inner ∈ node.descendants, inner.Marked places := by
  induction stacked with
  | node marked _ below => exact marked_descendants marked below
  | link _ marked _ below => exact marked_descendants marked below
  | choice _ below =>
      refine marked_descendants (marked_of_plain rfl rfl) ?_
      rw [Node.wrap, Node.children_of_nodes]
      refine List.forall_mem_singleton.mpr (marked_descendants (marked_of_plain rfl rfl) ?_)
      rwa [Node.children_of_nodes]
  | deeper _ _ ih | higher _ _ ih => exact ih

end Building

section Redirected

variable {places : Nat → Prop} {room : Room}

def StackedCompound (places : Nat → Prop) (room : Room) (node : Node) : Prop :=
  ∀ redirections : List Node, (∀ inner ∈ redirections, Stacked places room 6 inner) →
    Stacked places room 7 (node.redirected redirections)

theorem stacked_compound {node : Node} (plain : node.kind.isHereDocument = false)
    (unmarked : node.mark = none) (below : ∀ child ∈ node.children, Stacked places room 6 child) :
    StackedCompound places room node := by
  refine fun redirections each => .node (marked_of_plain plain unmarked) ?_
  rw [redirected_children]
  exact List.forall_mem_append.mpr ⟨below, each⟩

end Redirected

end ShellLine
