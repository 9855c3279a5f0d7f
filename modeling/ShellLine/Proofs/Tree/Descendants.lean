import ShellLine.Analysis.Feature

set_option autoImplicit false

namespace ShellLine

def Kind.isExpansion (kind : Kind) : Bool :=
  kind.feature? = some .parameter ∨ kind.feature? = some .exoticExpansion ∨
    kind.feature? = some .commandExpansion

theorem feature_of_expansion {kind : Kind} (expansion : kind.isExpansion = true) :
    kind.feature? ≠ none := by
  intro plain
  simp [Kind.isExpansion, plain] at expansion

def Forest.descendants (forest : Forest) : List Node :=
  (forest.walk fun _ => true).filterMap Visit.node?

def Child.descendants : Child → List Node
  | .node inner => inner.descendants
  | .text _ => []
  | .list items => items.descendants

theorem node_descendants (node : Node) :
    node.descendants = node :: node.contents.descendants := by
  simp [Node.descendants, Node.walk, Forest.descendants, Visit.node?]

theorem self_mem_descendants (node : Node) : node ∈ node.descendants := by
  rw [node_descendants]
  exact List.mem_cons_self ..

theorem forest_descendants (forest : Forest) :
    forest.descendants = forest.toList.flatMap Child.descendants := by
  induction forest with
  | nil => rfl
  | node kind mark contents others _ ih =>
      rw [Forest.toList, List.flatMap_cons, ← ih, Child.descendants, node_descendants]
      simp [Forest.descendants, Forest.walk, Visit.node?]
  | text chars others ih =>
      rw [Forest.toList, List.flatMap_cons, ← ih]
      rfl
  | list items others _ ih =>
      rw [Forest.toList, List.flatMap_cons, ← ih]
      simp [Forest.descendants, Forest.walk, Child.descendants]

theorem descendants_cons (child : Child) (others : Forest) :
    (Forest.cons child others).descendants = child.descendants ++ others.descendants := by
  rw [forest_descendants, Forest.to_list_cons, List.flatMap_cons, ← forest_descendants]

theorem descendants_of_node_row (kind : Kind) (mark : Option Nat) (contents others : Forest) :
    (Forest.node kind mark contents others).descendants =
      ⟨kind, contents, mark⟩ :: (contents.descendants ++ others.descendants) := by
  have first := descendants_cons (.node ⟨kind, contents, mark⟩) others
  rwa [Child.descendants, node_descendants] at first

theorem descendants_of_list_row (items others : Forest) :
    (Forest.list items others).descendants = items.descendants ++ others.descendants :=
  descendants_cons (.list items) others

theorem mem_descendants (node inner : Node) :
    inner ∈ node.descendants ↔
      inner = node ∨ ∃ child ∈ node.contents.toList, inner ∈ child.descendants := by
  rw [node_descendants, List.mem_cons, forest_descendants, List.mem_flatMap]

theorem below_child {node inner : Node} {child : Child} (member : child ∈ node.contents.toList)
    (below : inner ∈ child.descendants) : inner ∈ node.descendants :=
  (mem_descendants node inner).mpr (Or.inr ⟨child, member, below⟩)

theorem mem_descendants_of_row {kind : Kind} {nodes : List Node} {inner : Node} :
    inner ∈ (Node.ofNodes kind nodes).descendants ↔
      inner = .ofNodes kind nodes ∨ ∃ node ∈ nodes, inner ∈ node.descendants := by
  rw [mem_descendants, Node.contents_of_nodes]
  refine or_congr_right ⟨?_, fun ⟨node, here, below⟩ => ⟨.node node, List.mem_map_of_mem here, below⟩⟩
  rintro ⟨child, inside, below⟩
  obtain ⟨node, here, rfl⟩ := List.mem_map.mp inside
  exact ⟨node, here, below⟩

theorem mem_features (node : Node) (feature : Feature) :
    feature ∈ node.features ↔ ∃ inner ∈ node.descendants, inner.kind.feature? = some feature := by
  simp [Node.features, Feature.all_complete]

theorem features_eq_nil (node : Node) :
    node.features = [] ↔ ∀ inner ∈ node.descendants, inner.kind.feature? = none := by
  rw [List.eq_nil_iff_forall_not_mem]
  constructor
  · intro none inner member
    cases implied : inner.kind.feature? with
    | none => rfl
    | some feature => exact absurd ((mem_features node feature).mpr ⟨inner, member, implied⟩) (none feature)
  · intro plain feature member
    obtain ⟨inner, below, implied⟩ := (mem_features node feature).mp member
    rw [plain inner below] at implied
    cases implied

theorem plain_of_nodes {kind : Kind} {nodes : List Node} (plain : kind.feature? = none)
    (each : ∀ node ∈ nodes, node.features = []) : (Node.ofNodes kind nodes).features = [] := by
  rw [features_eq_nil]
  intro inner member
  rcases mem_descendants_of_row.mp member with rfl | ⟨node, here, below⟩
  · exact plain
  · exact (features_eq_nil node).mp (each node here) inner below

theorem mem_features_of_row {kind : Kind} {nodes : List Node} {feature : Feature} :
    feature ∈ (Node.ofNodes kind nodes).features ↔
      kind.feature? = some feature ∨ ∃ node ∈ nodes, feature ∈ node.features := by
  simp only [mem_features, mem_descendants_of_row]
  constructor
  · rintro ⟨inner, rfl | ⟨node, here, below⟩, implied⟩
    · exact Or.inl implied
    · exact Or.inr ⟨node, here, inner, below, implied⟩
  · rintro (implied | ⟨node, here, inner, below, implied⟩)
    · exact ⟨_, Or.inl rfl, implied⟩
    · exact ⟨inner, Or.inr ⟨node, here, below⟩, implied⟩

theorem no_here_document_iff {node : Node} : node.firstHereDocument? = none ↔
    ∀ inner ∈ node.descendants, inner.kind.isHereDocument = false := by
  rw [Node.firstHereDocument?, List.max?_eq_none_iff, List.map_eq_nil_iff, List.filter_eq_nil_iff]
  exact forall₂_congr fun inner _ => Bool.not_eq_true _ ▸ Iff.rfl

theorem no_here_document_of_row {kind : Kind} {nodes : List Node} (plain : kind.isHereDocument = false) :
    (Node.ofNodes kind nodes).firstHereDocument? = none ↔ ∀ node ∈ nodes, node.firstHereDocument? = none := by
  simp only [no_here_document_iff, mem_descendants_of_row]
  constructor
  · exact fun every node here inner below => every inner (Or.inr ⟨node, here, below⟩)
  · rintro every inner (rfl | ⟨node, here, below⟩)
    · exact plain
    · exact every node here inner below

theorem no_here_document_of_plain {node : Node} (plain : node.features = []) :
    node.firstHereDocument? = none := by
  refine no_here_document_iff.mpr fun inner member => Bool.eq_false_iff.mpr fun opens => ?_
  have implied := (features_eq_nil node).mp plain inner member
  cases kind : inner.kind <;> simp_all [Kind.isHereDocument, Kind.feature?]

theorem descendants_wrap (kind : Kind) (inner : Node) :
    (Node.wrap kind inner).descendants = .wrap kind inner :: inner.descendants := by
  rw [node_descendants, forest_descendants]
  simp [Node.wrap, Node.contents_of_nodes, Child.descendants]

theorem features_wrap {kind : Kind} (plain : kind.feature? = none) (inner : Node) :
    (Node.wrap kind inner).features = inner.features := by
  have skipped : (Node.wrap kind inner).kind.feature? = none := plain
  simp only [Node.features, descendants_wrap, List.filterMap_cons, skipped]

def Node.expands (node : Node) : Bool := node.descendants.any fun inner => inner.kind.isExpansion

def Node.expandsWord (node : Node) : Bool :=
  node.descendants.any fun word => word.kind = .word && word.expands

theorem expands_eq_false (node : Node) :
    node.expands = false ↔ ∀ inner ∈ node.descendants, inner.kind.isExpansion = false := by
  simp [Node.expands]

theorem not_expands_of_plain {node : Node} (plain : node.features = []) : node.expands = false := by
  rw [expands_eq_false]
  intro inner member
  cases expansion : inner.kind.isExpansion with
  | false => rfl
  | true => exact absurd ((features_eq_nil node).mp plain inner member) (feature_of_expansion expansion)

theorem forest_descendants_trans {forest : Forest} {node inner : Node}
    (outer : node ∈ forest.descendants) (below : inner ∈ node.descendants) :
    inner ∈ forest.descendants := by
  induction forest with
  | nil => cases outer
  | text chars others ih => exact ih outer
  | list items others itemsIh othersIh =>
      have split : ∀ found, found ∈ (Forest.list items others).descendants ↔
          found ∈ items.descendants ∨ found ∈ others.descendants := by
        simp [Forest.descendants, Forest.walk]
      exact (split inner).mpr (((split node).mp outer).imp itemsIh othersIh)
  | node kind mark contents others contentsIh othersIh =>
      have split : ∀ found, found ∈ (Forest.node kind mark contents others).descendants ↔
          found ∈ (⟨kind, contents, mark⟩ : Node).descendants ∨ found ∈ others.descendants := by
        intro found
        rw [node_descendants]
        simp [Forest.descendants, Forest.walk, Visit.node?, or_assoc]
      refine (split inner).mpr (((split node).mp outer).imp (fun here => ?_) othersIh)
      rw [node_descendants, List.mem_cons] at here ⊢
      rcases here with rfl | inside
      · rwa [node_descendants, List.mem_cons] at below
      · exact Or.inr (contentsIh inside)

theorem descendants_trans {root node inner : Node} (outer : node ∈ root.descendants)
    (below : inner ∈ node.descendants) : inner ∈ root.descendants := by
  rw [node_descendants, List.mem_cons] at outer ⊢
  rcases outer with rfl | inside
  · rwa [node_descendants, List.mem_cons] at below
  · exact Or.inr (forest_descendants_trans inside below)

@[simp] theorem Forest.nodes_of_nodes (nodes : List Node) : (Forest.ofNodes nodes).nodes = nodes :=
  Node.children_of_nodes .program nodes

@[simp] theorem Forest.nodes_append (forest more : Forest) :
    (forest.append more).nodes = forest.nodes ++ more.nodes := by
  induction forest with
  | nil => rfl
  | node kind mark contents others _ ih => simp only [append, nodes, ih, List.cons_append]
  | text chars others ih => simp only [append, nodes, ih]
  | list items others _ ih => simp only [append, nodes, ih, List.append_assoc]

theorem mem_descendants_of_nodes {forest : Forest} {inner : Node} (member : inner ∈ forest.nodes) :
    inner ∈ forest.descendants := by
  induction forest with
  | nil => cases member
  | text chars others ih => exact ih member
  | list items others itemsIh othersIh =>
      rw [Forest.nodes, List.mem_append] at member
      rw [descendants_of_list_row, List.mem_append]
      exact member.imp itemsIh othersIh
  | node kind mark contents others _ ih =>
      rw [Forest.nodes, List.mem_cons] at member
      rw [descendants_of_node_row, List.mem_cons, List.mem_append]
      exact member.imp_right fun later => Or.inr (ih later)

theorem child_mem_descendants {node inner : Node} (child : inner ∈ node.children) :
    inner ∈ node.descendants := by
  rw [node_descendants]
  exact List.mem_cons_of_mem _ (mem_descendants_of_nodes child)

def Node.kinds (node : Node) : List Kind := node.descendants.map Node.kind

theorem kind_mem_kinds (node : Node) : node.kind ∈ node.kinds :=
  List.mem_map_of_mem (self_mem_descendants node)

theorem child_kinds {node inner : Node} (child : inner ∈ node.children) :
    inner.kinds ⊆ node.kinds := by
  intro kind member
  obtain ⟨below, inside, rfl⟩ := List.mem_map.mp member
  exact List.mem_map_of_mem (descendants_trans (child_mem_descendants child) inside)

theorem kinds_of_append (node : Node) (more : Forest) :
    node.kinds ⊆ ({ node with contents := node.contents.append more } : Node).kinds := by
  simp only [Node.kinds, node_descendants, forest_descendants, Forest.to_list_append,
    List.flatMap_append, List.map_cons, List.map_append]
  exact List.cons_subset_cons _ (List.subset_append_left _ _)

theorem not_expands_word {node : Node} (literal : node.expands = false) :
    node.expandsWord = false := by
  rw [expands_eq_false] at literal
  simp only [Node.expandsWord, List.any_eq_false, Bool.and_eq_true, not_and]
  intro word member isWord
  rw [Bool.not_eq_true, expands_eq_false]
  exact fun inner below => literal inner (descendants_trans member below)

theorem expands_word_of_word {word : Node} (isWord : word.kind = .word)
    (expands : word.expands = true) : word.expandsWord = true := by
  rw [Node.expandsWord, List.any_eq_true]
  exact ⟨word, self_mem_descendants word, by simp [isWord, expands]⟩

end ShellLine
