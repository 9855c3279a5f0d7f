import ShellLine.Proofs.Analysis.LiteralArgv

set_option autoImplicit false

namespace ShellLine

-- The kinds in a row of trees, or in one, that imply a feature.
def Forest.outline (forest : Forest) : List Kind :=
  (forest.descendants.map Node.kind).filter fun kind => kind.feature?.isSome

def Node.outline (node : Node) : List Kind := node.kinds.filter fun kind => kind.feature?.isSome

-- Trees that differ at most in how their words are cut into parts.
structure Alike (a b : Node) : Prop where
  kind : a.kind = b.kind
  outline : a.outline = b.outline
  word : a.kind = .word → a.unquote? = b.unquote?
  command : a.kind = .simpleCommand → a.words.mapM Node.unquote? = b.words.mapM Node.unquote?

section Outline

theorem node_outline (node : Node) :
    node.outline = (if node.kind.feature?.isSome then [node.kind] else []) ++ node.contents.outline := by
  rw [Node.outline, Node.kinds, node_descendants, List.map_cons, List.filter_cons, Forest.outline]
  split <;> rfl

theorem outline_of_list (forest : Forest) : forest.outline = forest.toList.flatMap fun child =>
    (child.descendants.map Node.kind).filter fun kind => kind.feature?.isSome := by
  rw [Forest.outline, forest_descendants, List.map_flatMap, List.filter_flatMap]

@[simp] theorem outline_append (forest more : Forest) :
    (forest.append more).outline = forest.outline ++ more.outline := by
  simp only [outline_of_list, Forest.to_list_append, List.flatMap_append]

@[simp] theorem outline_of_nodes (nodes : List Node) :
    (Forest.ofNodes nodes).outline = nodes.flatMap Node.outline := by
  rw [outline_of_list, Forest.ofNodes, Forest.to_list_of_list, List.flatMap_map]
  rfl

@[simp] theorem outline_text (chars : List Char) (others : Forest) :
    (Forest.text chars others).outline = others.outline := by
  rfl

@[simp] theorem outline_list (items others : Forest) :
    (Forest.list items others).outline = items.outline ++ others.outline := by
  simp [Forest.outline, Forest.descendants, Forest.walk]

theorem outline_of_plain {node : Node} (plain : node.features = []) : node.outline = [] := by
  rw [Node.outline, List.filter_eq_nil_iff]
  intro kind member
  obtain ⟨inner, below, rfl⟩ := List.mem_map.mp member
  simp [(features_eq_nil node).mp plain inner below]

theorem features_of_outline {a b : Node} (same : a.outline = b.outline) : a.features = b.features := by
  have found : ∀ node : Node, node.descendants.filterMap (fun inner => inner.kind.feature?) =
      node.outline.filterMap Kind.feature? := by
    intro node
    rw [Node.outline, Node.kinds, List.filterMap_filter, List.filterMap_map]
    refine List.filterMap_congr fun inner _ => ?_
    cases implied : inner.kind.feature? <;> simp [implied]
  simp only [Node.features, found, same]

theorem no_here_document_of_outline {a b : Node} (same : a.outline = b.outline)
    (absent : a.firstHereDocument? = none) : b.firstHereDocument? = none := by
  have opens : ∀ kind : Kind, kind.isHereDocument = true → kind.feature?.isSome = true := by
    intro kind mark
    cases kind <;> first | rfl | cases mark
  refine no_here_document_iff.mpr fun inner below => Bool.eq_false_iff.mpr fun mark => ?_
  have counts : inner.kind ∈ b.outline :=
    List.mem_filter.mpr ⟨List.mem_map_of_mem below, opens inner.kind mark⟩
  rw [← same, Node.outline, List.mem_filter] at counts
  obtain ⟨other, inside, kind⟩ := List.mem_map.mp counts.1
  have none := no_here_document_iff.mp absent other inside
  rw [kind] at none
  cases none.symm.trans mark

end Outline

section Rows

variable {as bs : List Node}

theorem outline_of_same (each : List.Forall₂ (fun a b : Node => a.outline = b.outline) as bs) :
    as.flatMap Node.outline = bs.flatMap Node.outline := by
  induction each with
  | nil => rfl
  | cons first _ ih => rw [List.flatMap_cons, List.flatMap_cons, first, ih]

theorem outline_of_alike (each : List.Forall₂ Alike as bs) :
    as.flatMap Node.outline = bs.flatMap Node.outline :=
  outline_of_same (each.imp fun _ _ same => same.outline)

theorem alike_of_contents {kind : Kind} (count : kind ∉ [.word, .simpleCommand]) {f g : Forest}
    {mark other : Option Nat} (same : f.outline = g.outline) :
    Alike ⟨kind, f, mark⟩ ⟨kind, g, other⟩ where
  kind := rfl
  outline := by rw [node_outline, node_outline, same]
  word := by
    rintro rfl
    simp at count
  command := by
    rintro rfl
    simp at count

theorem alike_of_nodes {kind : Kind} (count : kind ∉ [.word, .simpleCommand])
    (each : List.Forall₂ Alike as bs) : Alike (.ofNodes kind as) (.ofNodes kind bs) :=
  alike_of_contents count (by simp [outline_of_alike each])

theorem alike_wrap {kind : Kind} (count : kind ∉ [.word, .simpleCommand]) {a b : Node}
    (inner : Alike a b) : Alike (.wrap kind a) (.wrap kind b) :=
  alike_of_nodes count (.cons inner .nil)

theorem alike_append {a b : Node} (count : a.kind ∉ [.word, .simpleCommand]) (first : Alike a b)
    (each : List.Forall₂ Alike as bs) :
    Alike { a with contents := a.contents.append (.ofNodes as) }
      { b with contents := b.contents.append (.ofNodes bs) } := by
  obtain ⟨kind, contents, mark⟩ := a
  obtain ⟨kind', contents', mark'⟩ := b
  obtain rfl : kind = kind' := first.kind
  have outline := first.outline
  rw [node_outline, node_outline, List.append_cancel_left_eq] at outline
  exact alike_of_contents count (by simp [outline, outline_of_alike each])

theorem words_of_alike (each : List.Forall₂ Alike as bs) :
    (as.filter fun node => node.kind = .word).mapM Node.unquote? =
      (bs.filter fun node => node.kind = .word).mapM Node.unquote? := by
  induction each with
  | nil => rfl
  | @cons a b _ _ first _ ih =>
      have kind := first.kind
      by_cases isWord : a.kind = .word
      · rw [List.filter_cons_of_pos (by simpa using isWord),
          List.filter_cons_of_pos (by simpa [← kind] using isWord), List.mapM_cons, List.mapM_cons,
          first.word isWord, ih]
      · rw [List.filter_cons_of_neg (by simpa using isWord),
          List.filter_cons_of_neg (by simpa [← kind] using isWord), ih]

theorem alike_simple_command (each : List.Forall₂ Alike as bs) :
    Alike (.ofNodes .simpleCommand as) (.ofNodes .simpleCommand bs) where
  kind := rfl
  outline := by
    rw [node_outline, node_outline, Node.ofNodes, Node.ofNodes, outline_of_nodes, outline_of_nodes,
      outline_of_alike each]
  word := by
    intro impossible
    cases impossible
  command _ := by rw [Node.words_of_row, Node.words_of_row, words_of_alike each]

theorem alike_word {a b : Node} (isWord : a.kind = .word) (other : b.kind = .word)
    (plain : a.features = []) (otherPlain : b.features = []) (same : a.unquote? = b.unquote?) :
    Alike a b where
  kind := isWord.trans other.symm
  outline := by rw [outline_of_plain plain, outline_of_plain otherPlain]
  word _ := same
  command := by
    intro impossible
    cases isWord.symm.trans impossible

end Rows

end ShellLine
