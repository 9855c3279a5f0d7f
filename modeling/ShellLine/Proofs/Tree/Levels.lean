import ShellLine.Tree.Forest

set_option autoImplicit false

namespace ShellLine

-- For which of its children a node opens a level. Children in a list never count.
inductive Deepening
  | none
  | first
  | each
deriving DecidableEq, Repr

-- Behind a group or a subshell stand its redirections, which are not inside.
def Kind.deepening (kind : Kind) : Deepening :=
  match kind with
  | .braceGroup | .subshell | .loopBody | .condition | .consequent => .first
  | .caseItem | .commandExpansion | .arithmeticExpansion => .each
  | _ => if kind.isParameterOperator then .each else .none

namespace Deepening

def step : Deepening → Nat
  | none => 0
  | first | each => 1

def later : Deepening → Deepening
  | none | first => none
  | each => each

theorem step_le_one (deepening : Deepening) : deepening.step ≤ 1 := by
  cases deepening <;> decide

end Deepening

def Forest.levels : Deepening → Forest → Nat
  | _, nil => 0
  | deepening, node kind _ contents others =>
      max (deepening.step + contents.levels kind.deepening) (others.levels deepening.later)
  | deepening, text _ others => others.levels deepening
  | deepening, list items others => max (items.levels .none) (others.levels deepening)

def Node.levels (node : Node) : Nat := node.contents.levels node.kind.deepening

def Child.levels : Child → Nat
  | .node inner => inner.levels
  | .text _ => 0
  | .list items => items.levels .none

theorem levels_row_le {n : Nat} {forest : Forest} (each : ∀ child ∈ forest.toList, child.levels ≤ n) :
    forest.levels .none ≤ n := by
  induction forest with
  | nil => exact Nat.zero_le n
  | node kind mark contents others _ ih =>
      obtain ⟨here, behind⟩ := List.forall_mem_cons.mp each
      change max (0 + (⟨kind, contents, mark⟩ : Node).levels) (others.levels .none) ≤ n
      rw [Nat.zero_add]
      exact Nat.max_le.mpr ⟨here, ih behind⟩
  | text chars others ih => exact ih (List.forall_mem_cons.mp each).2
  | list items others _ ih =>
      obtain ⟨here, behind⟩ := List.forall_mem_cons.mp each
      exact Nat.max_le.mpr ⟨here, ih behind⟩

theorem levels_of_nodes_le {n : Nat} {nodes : List Node} (each : ∀ node ∈ nodes, node.levels ≤ n) :
    (Forest.ofNodes nodes).levels .none ≤ n := by
  apply levels_row_le
  intro child member
  rw [Forest.ofNodes, Forest.to_list_of_list] at member
  obtain ⟨node, here, rfl⟩ := List.mem_map.mp member
  exact each node here

theorem levels_of_nodes_lt {n : Nat} {nodes : List Node} (deepening : Deepening)
    (each : ∀ node ∈ nodes, node.levels < n) : (Forest.ofNodes nodes).levels deepening ≤ n := by
  induction nodes generalizing deepening with
  | nil => exact Nat.zero_le n
  | cons first others ih =>
      have here : first.levels < n := each first (List.mem_cons_self ..)
      have behind := ih deepening.later fun node member => each node (List.mem_cons_of_mem _ member)
      have step := deepening.step_le_one
      change max (deepening.step + first.levels) ((Forest.ofNodes others).levels deepening.later) ≤ n
      omega

theorem levels_flat_le {n : Nat} {kind : Kind} {nodes : List Node} (flat : kind.deepening = .none)
    (each : ∀ node ∈ nodes, node.levels ≤ n) : (Node.ofNodes kind nodes).levels ≤ n := by
  change (Forest.ofNodes nodes).levels kind.deepening ≤ n
  rw [flat]
  exact levels_of_nodes_le each

theorem levels_wrap_le {n : Nat} (kind : Kind) {inner : Node} (deeper : inner.levels < n) :
    (Node.wrap kind inner).levels ≤ n :=
  levels_of_nodes_lt kind.deepening (List.forall_mem_singleton.mpr deeper)

theorem levels_append_le {n : Nat} {forest more : Forest} {deepening : Deepening}
    (row : forest.levels deepening ≤ n) (behind : more.levels .none ≤ n)
    (settled : deepening = .none ∨
      deepening = .first ∧ ∃ kind mark contents others, forest = .node kind mark contents others) :
    (forest.append more).levels deepening ≤ n := by
  have flat : ∀ forest : Forest, forest.levels .none ≤ n → (forest.append more).levels .none ≤ n := by
    intro forest row
    induction forest with
    | nil => exact behind
    | node kind mark contents others _ ih =>
        simp only [Forest.levels, Forest.append, Deepening.later, Nat.max_le] at row ⊢
        exact ⟨row.1, ih row.2⟩
    | text chars others ih => exact ih row
    | list items others _ ih =>
        simp only [Forest.levels, Forest.append, Nat.max_le] at row ⊢
        exact ⟨row.1, ih row.2⟩
  rcases settled with rfl | ⟨rfl, kind, mark, contents, others, rfl⟩
  · exact flat forest row
  · simp only [Forest.levels, Forest.append, Deepening.later, Nat.max_le] at row ⊢
    exact ⟨row.1, flat others row.2⟩

end ShellLine
