import ShellLine.Proofs.Nesting.Depth
import ShellLine.Proofs.Nesting.Stacks

set_option autoImplicit false

namespace ShellLine

-- A node stands in front of the ways down from its children, or is a leaf.
def Kind.before (kind : Kind) : List (List Kind) → List (List Kind)
  | [] => [[kind]]
  | below => below.map (kind :: ·)

def Forest.ways : Forest → List (List Kind)
  | nil => []
  | node kind _ contents others => kind.before contents.ways ++ others.ways
  | text _ others => others.ways
  | list items others => items.ways ++ others.ways

def Node.ways (node : Node) : List (List Kind) := node.kind.before node.contents.ways

-- The nodes of a way that stack up without a level: the links of chains, and every `else` with the
-- choice behind it.
def linked : List Kind → Nat
  | [] => 0
  | .andIf :: later | .orIf :: later => linked later + 1
  | .otherwise :: .ifChoice :: later => linked later + 2
  | _ :: later => linked later

theorem linked_le (kind : Kind) (later : List Kind) : linked later ≤ linked (kind :: later) := by
  cases kind <;> try exact Nat.le_refl _
  case andIf | orIf => exact Nat.le_succ _
  case otherwise =>
    cases later with
    | nil => exact Nat.le_refl _
    | cons next others => cases next <;> first | exact Nat.le_refl _ | exact Nat.le_add_right _ 2

theorem linked_link {kind : Kind} (links : kind = .andIf ∨ kind = .orIf) (later : List Kind) :
    linked (kind :: later) = linked later + 1 := by
  rcases links with rfl | rfl <;> rfl

theorem mem_before {kind : Kind} {below : List (List Kind)} {way : List Kind}
    (member : way ∈ kind.before below) : way = [kind] ∨ ∃ later ∈ below, way = kind :: later := by
  cases below with
  | nil => exact Or.inl (List.mem_singleton.mp member)
  | cons first others =>
      obtain ⟨later, here, rfl⟩ := List.mem_map.mp member
      exact Or.inr ⟨later, here, rfl⟩

theorem mem_ways_of_row {forest : Forest} {way : List Kind} (member : way ∈ forest.ways) :
    ∃ child ∈ forest.nodes, way ∈ child.ways := by
  induction forest with
  | nil => cases member
  | node kind mark contents others _ ih =>
      rcases List.mem_append.mp member with here | later
      · exact ⟨⟨kind, contents, mark⟩, List.mem_cons_self .., here⟩
      · obtain ⟨child, inside, known⟩ := ih later
        exact ⟨child, List.mem_cons_of_mem _ inside, known⟩
  | text chars others ih => exact ih member
  | list items others itemsIh othersIh =>
      rcases List.mem_append.mp member with here | later
      · obtain ⟨child, inside, known⟩ := itemsIh here
        exact ⟨child, List.mem_append_left _ inside, known⟩
      · obtain ⟨child, inside, known⟩ := othersIh later
        exact ⟨child, List.mem_append_right _ inside, known⟩

theorem mem_ways {node : Node} {way : List Kind} (member : way ∈ node.ways) :
    way = [node.kind] ∨ ∃ child ∈ node.children, ∃ later ∈ child.ways, way = node.kind :: later := by
  rcases mem_before member with leaf | ⟨later, below, same⟩
  · exact Or.inl leaf
  · obtain ⟨child, here, known⟩ := mem_ways_of_row below
    exact Or.inr ⟨child, here, later, known, same⟩

theorem stacked_ways {places : Nat → Prop} {n count : Nat} {room : Room} {node : Node}
    (stacked : Stacked places room count node) (left : room = some n) :
    ∀ way ∈ node.ways, way.length ≤ 13 * n + count + linked way := by
  induction stacked generalizing n with
  | @node _ count node _ _ belowWays =>
      intro way member
      rcases mem_ways member with rfl | ⟨child, here, later, known, rfl⟩
      · simp only [List.length_singleton]
        omega
      · have shorter := belowWays child here left later known
        have links := linked_le node.kind later
        simp only [List.length_cons]
        omega
  | @link _ count node links _ _ belowWays =>
      intro way member
      rcases mem_ways member with rfl | ⟨child, here, later, known, rfl⟩
      · simp only [List.length_singleton]
        omega
      · have shorter := belowWays child here left later known
        rw [linked_link links, List.length_cons]
        omega
  | @choice _ count parts _ belowWays =>
      intro way member
      rcases mem_ways member with rfl | ⟨choice, here, inside, known, rfl⟩
      · simp only [List.length_singleton]
        omega
      · rw [Node.wrap, Node.children_of_nodes, List.mem_singleton] at here
        subst here
        rcases mem_ways known with rfl | ⟨part, below, later, deeper, rfl⟩
        · simp [linked, Node.wrap, Node.ofNodes]
        · rw [Node.children_of_nodes] at below
          have shorter := belowWays part below left later deeper
          change later.length + 1 + 1 ≤ 13 * n + (count + 1) + (linked later + 2)
          omega
  | @deeper _ less _ opens _ ih =>
      subst left
      obtain ⟨m, rfl, rfl⟩ := Option.map_eq_some_iff.mp opens
      intro way member
      have shorter := ih rfl way member
      omega
  | higher bounds _ ih =>
      intro way member
      have shorter := ih left way member
      omega

/-- A way down a tree that was parsed under a limit has thirteen nodes for each level and fourteen
more, but for links of chains and choices behind an `else`, unless the limit is exceeded when no
results are kept. -/
theorem parsed_tree_ways_within_limit (config : Config) (input : String) (tree : Node)
    (limited : 0 < config.maxDepth) (parsed : parse config input = .ok tree) :
    (∀ way ∈ tree.ways, way.length ≤ 13 * config.maxDepth + 14 + linked way) ∨
      parseWith false config input = .error (.nestingTooDeep config.maxDepth) := by
  obtain ⟨d, read, -⟩ := parse_ok config input tree parsed
  refine (parse_ok_shallow config input tree limited parsed).imp_left fun shallow => ?_
  have given := read_may_give attained_covers_reading Grammar.program read shallow
  exact stacked_ways (attained_program_stacks given) rfl

theorem grouped_chain_ways_within_limit :
    0 < 2 ∧ ∃ tree, parse { maxDepth := 2 } "(a && if b; then c; elif d; then e; fi)" = .ok tree ∧
      ((∀ way ∈ tree.ways, way.length ≤ 13 * 2 + 14 + linked way) ∨
        parseWith false { maxDepth := 2 } "(a && if b; then c; elif d; then e; fi)" =
          .error (.nestingTooDeep 2)) := by
  obtain ⟨tree, parsed, -⟩ := parse_ok_of_view { maxDepth := 2 }
    "(a && if b; then c; elif d; then e; fi)" (fun _ => ()) () (by decide +kernel)
  exact ⟨by decide, tree, parsed,
    parsed_tree_ways_within_limit { maxDepth := 2 } _ tree (by decide) parsed⟩

theorem long_chain_exceeds_ways :
    ∃ tree, parse { maxDepth := 1 }
      "a&&a&&a&&a&&a&&a&&a&&a&&a&&a&&a&&a&&a&&a&&a&&a&&a&&a&&a&&a&&a&&a&&a&&a&&a&&a&&a&&a&&a&&a&&a&&a&&a&&a&&a&&a&&a&&a&&a&&a&&a&&a&&a&&a&&a" = .ok tree ∧
      ∃ way ∈ tree.ways, 24 * (1 + 1) < way.length := by
  refine (parse_ok_of_view { maxDepth := 1 } _
    (fun tree => decide (∃ way ∈ tree.ways, 24 * (1 + 1) < way.length)) true ?_).imp
    fun tree => And.imp_right of_decide_eq_true
  decide +kernel

end ShellLine
