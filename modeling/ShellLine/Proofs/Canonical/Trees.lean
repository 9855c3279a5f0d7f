import ShellLine.Proofs.Canonical.Syntax
import ShellLine.Proofs.Tree.Descendants

set_option autoImplicit false

namespace ShellLine.Canonical

open Grammar

def UnmarkedRow (forest : Forest) : Prop :=
  ∀ inner ∈ forest.descendants, inner.kind.isHereDocument = false

def Unmarked (node : Node) : Prop := ∀ inner ∈ node.descendants, inner.kind.isHereDocument = false

section Rows

variable {kind : Kind} {node : Node} {nodes : List Node} {forest others : Forest}

theorem unmarked_node (plain : kind.isHereDocument = false) (contents : UnmarkedRow forest) :
    Unmarked ⟨kind, forest, none⟩ := by
  rw [Unmarked, node_descendants, List.forall_mem_cons]
  exact ⟨plain, contents⟩

theorem unmarked_text (chars : List Char) (later : UnmarkedRow others) :
    UnmarkedRow (.text chars others) := later

theorem unmarked_list (items : UnmarkedRow forest) (later : UnmarkedRow others) :
    UnmarkedRow (.list forest others) := by
  rw [UnmarkedRow, descendants_of_list_row]
  exact List.forall_mem_append.mpr ⟨items, later⟩

theorem unmarked_row (each : ∀ node ∈ nodes, Unmarked node) : UnmarkedRow (.ofNodes nodes) := by
  rw [UnmarkedRow, forest_descendants, Forest.ofNodes, Forest.to_list_of_list]
  simpa [Child.descendants] using fun inner node member => each node member inner

theorem unmarked_of_nodes (plain : kind.isHereDocument = false) (each : ∀ node ∈ nodes, Unmarked node) :
    Unmarked (.ofNodes kind nodes) := unmarked_node plain (unmarked_row each)

theorem unmarked_wrap (plain : kind.isHereDocument = false) (unmarked : Unmarked node) :
    Unmarked (.wrap kind node) := unmarked_of_nodes plain (List.forall_mem_singleton.mpr unmarked)

theorem unmarked_leaf (plain : kind.isHereDocument = false) (chars : List Char) :
    Unmarked (.leaf kind chars) := unmarked_node plain (unmarked_text chars nofun)

end Rows

section Parts

theorem words_unmarked (words : List Quoted) : ∀ node ∈ words.map Quoted.node, Unmarked node := by
  intro node member
  obtain ⟨word, -, rfl⟩ := List.mem_map.mp member
  exact unmarked_wrap rfl (unmarked_leaf rfl _)

theorem stages_unmarked {first : Node} {others : List Node} (head : Unmarked first)
    (later : ∀ node ∈ others, Unmarked node) : Unmarked (stagesNode first others) := by
  rw [stagesNode]
  split
  · exact head
  · exact unmarked_of_nodes rfl (List.forall_mem_cons.mpr ⟨head, later⟩)

theorem chain_unmarked {first : Node} {links : List (Kind × Node)} (head : Unmarked first)
    (each : ∀ link ∈ links, link.1.isHereDocument = false ∧ Unmarked link.2) :
    Unmarked (chainNode first links) := by
  induction links generalizing first with
  | nil => exact head
  | cons link others ih =>
      obtain ⟨⟨plain, right⟩, later⟩ := List.forall_mem_cons.mp each
      refine ih (unmarked_of_nodes plain ?_) later
      exact List.forall_mem_cons.mpr ⟨head, List.forall_mem_singleton.mpr right⟩

theorem list_unmarked {terms : List Node} (each : ∀ term ∈ terms, Unmarked term) :
    Unmarked (listNode terms) := by
  unfold listNode
  split
  · exact each _ (List.mem_singleton_self _)
  · exact unmarked_of_nodes rfl each

theorem term_unmarked {lines : Bool} {term : Node} (ending : Ending lines) (unmarked : Unmarked term) :
    Unmarked (ending.wrap term) := by
  cases ending with
  | background => exact unmarked_wrap rfl unmarked
  | semicolon | newline => exact unmarked

theorem choice_unmarked {condition consequent : Node} {alternative : List Node}
    (first : Unmarked condition) (second : Unmarked consequent)
    (third : ∀ node ∈ alternative, Unmarked node) :
    Unmarked (choiceNode condition consequent alternative) := by
  apply unmarked_of_nodes rfl
  simp only [List.cons_append, List.nil_append, List.forall_mem_cons]
  exact ⟨unmarked_wrap rfl first, unmarked_wrap rfl second, third⟩

theorem item_unmarked (patterns : List Quoted) {body : List Node} (each : ∀ node ∈ body, Unmarked node) :
    Unmarked (itemNode patterns body) :=
  unmarked_node rfl (unmarked_list (unmarked_row (words_unmarked patterns)) (unmarked_row each))

end Parts

def UnmarkedMeaning : {form : Form} → form.Meaning → Prop
  | .links, links => ∀ link ∈ links, link.1.isHereDocument = false ∧ Unmarked link.2
  | .stages, nodes | .list _, nodes | .alternative, nodes | .items, nodes => ∀ node ∈ nodes, Unmarked node
  | .command, node | .compound, node | .pipeline, node | .chain, node => Unmarked node

theorem meaning_unmarked {form : Form} (phrase : Phrase form) : UnmarkedMeaning phrase.meaning := by
  induction phrase with
  | simple first others => exact unmarked_of_nodes rfl (words_unmarked (first :: others))
  | grouped _ inner => exact inner
  | function name _ body =>
      refine unmarked_of_nodes rfl (List.forall_mem_cons.mpr ⟨unmarked_leaf rfl _, ?_⟩)
      exact List.forall_mem_singleton.mpr body
  | lastStage => exact List.forall_mem_nil _
  | stage _ _ next others => exact List.forall_mem_cons.mpr ⟨next, others⟩
  | pipeline negated _ _ first others =>
      cases negated with
      | true => exact unmarked_wrap rfl (stages_unmarked first others)
      | false => exact stages_unmarked first others
  | lastLink => exact List.forall_mem_nil _
  | link connective _ _ next others =>
      refine List.forall_mem_cons.mpr ⟨⟨?_, next⟩, others⟩
      cases connective <;> rfl
  | chain _ _ first links =>
      rw [UnmarkedMeaning, Phrase.meaning]
      exact chain_unmarked first links
  | lastTerm _ ending only => exact List.forall_mem_singleton.mpr (term_unmarked ending only)
  | term _ ending _ first others => exact List.forall_mem_cons.mpr ⟨term_unmarked ending first, others⟩
  | subshell _ body => exact unmarked_wrap rfl (list_unmarked body)
  | braceGroup _ body => exact unmarked_wrap rfl (list_unmarked body)
  | ifChoice _ _ _ condition consequent alternative =>
      exact choice_unmarked (list_unmarked condition) (list_unmarked consequent) alternative
  | loop repeated _ _ condition body =>
      refine unmarked_of_nodes (by cases repeated <;> rfl) ?_
      refine List.forall_mem_cons.mpr ⟨unmarked_wrap rfl (list_unmarked condition), ?_⟩
      exact List.forall_mem_singleton.mpr (unmarked_wrap rfl (list_unmarked body))
  | forLoop parameter words _ body =>
      refine unmarked_node rfl (unmarked_text _ (unmarked_row (List.forall_mem_cons.mpr ⟨?_, ?_⟩)))
      · exact unmarked_of_nodes rfl (words_unmarked words)
      · exact List.forall_mem_singleton.mpr (unmarked_wrap rfl (list_unmarked body))
  | caseChoice subject _ items =>
      refine unmarked_of_nodes rfl (List.forall_mem_cons.mpr ⟨?_, items⟩)
      exact words_unmarked [subject] _ (List.mem_singleton_self _)
  | noAlternative => exact List.forall_mem_nil _
  | otherwise _ body => exact List.forall_mem_singleton.mpr (unmarked_wrap rfl (list_unmarked body))
  | elseIf _ _ _ condition consequent alternative =>
      refine List.forall_mem_singleton.mpr (unmarked_wrap rfl ?_)
      exact choice_unmarked (list_unmarked condition) (list_unmarked consequent) alternative
  | lastItem => exact List.forall_mem_nil _
  | emptyItem first patterns _ others =>
      exact List.forall_mem_cons.mpr ⟨item_unmarked (first :: patterns) (List.forall_mem_nil _), others⟩
  | item first patterns _ _ body others =>
      refine List.forall_mem_cons.mpr ⟨item_unmarked (first :: patterns) ?_, others⟩
      exact List.forall_mem_singleton.mpr (list_unmarked body)

theorem no_here_document (script : Script) : script.tree.firstHereDocument? = none := by
  have unmarked : Unmarked script.tree := by
    cases script with
    | chain only => exact unmarked_wrap rfl (unmarked_wrap rfl (meaning_unmarked only))
    | list terms =>
        exact unmarked_wrap rfl (unmarked_wrap rfl (list_unmarked (meaning_unmarked terms)))
  exact no_here_document_iff.mpr unmarked

end ShellLine.Canonical
