import ShellLine.Proofs.Nesting.Stacks
import ShellLine.Proofs.Running.Runs
import ShellLine.Proofs.Tree.Descendants

set_option autoImplicit false

namespace ShellLine

open Text

-- The text goes on with the operator of a here-document at an offset, which is what the node is marked with.
def Node.OpenedAt (input : String) (node : Node) (offset : Nat) : Prop :=
  (∃ before after, input.toList = before ++ '<' :: '<' :: after ∧ byteLength before = offset) ∧
    node.mark = some (byteLength input.toList - offset)

def Node.hereDocuments (node : Node) : List Node :=
  node.descendants.filter fun inner => inner.kind.isHereDocument

section Judged

variable {config : Config} {input : String} {result : Option Node} {s : State}

theorem judged_ok {tree : Node} (judged : judge config input result s = .ok tree) :
    result = some tree ∧ tree.firstHereDocument? = none := by
  simp only [judge] at judged
  split at judged
  · cases judged
  · split at judged
    · split at judged
      · cases judged
      · cases judged
        exact ⟨rfl, ‹_›⟩
    · cases judged

theorem judged_here_document {line column : Nat}
    (judged : judge config input result s = .error (.hereDocument line column)) :
    ∃ tree mark, result = some tree ∧ s.cursor.rest = [] ∧ tree.firstHereDocument? = some mark ∧
      line = (locate input (byteLength input.toList - mark)).line ∧
      column = (locate input (byteLength input.toList - mark)).column := by
  simp only [judge] at judged
  split at judged
  · cases judged
  · split at judged
    · split at judged
      · cases judged
        exact ⟨_, _, rfl, ‹_›, ‹_›, rfl, rfl⟩
      · cases judged
    · cases judged

theorem parse_judges (config : Config) (input : String) :
    (∃ length, parse config input = .error (.inputTooLong length config.maxInputLength)) ∨
      parse config input = judge config input (readProgram ⟨true, config.maxDepth⟩ input.toList).1
        (readProgram ⟨true, config.maxDepth⟩ input.toList).2 := by
  rw [parse, parseWith]
  split
  · exact Or.inl ⟨_, rfl⟩
  · exact Or.inr rfl

end Judged

theorem run_tree_marked {mode : Mode} {text : List Char} {tree : Node}
    (given : (readProgram mode text).1 = some tree) :
    ∀ inner ∈ tree.descendants, inner.Marked (OpensHereDocument text) := by
  obtain ⟨trace, runs⟩ := program_runs mode text
  obtain ⟨-, -, may⟩ := runs_sound runs (start_sound text)
  exact stacked_marked (attained_program_stacks (may tree given))

theorem opened_at_of_marked {input : String} {node : Node} (opens : node.kind.isHereDocument = true)
    (marked : node.Marked (OpensHereDocument input.toList)) :
    ∃ offset, node.OpenedAt input offset ∧ byteLength input.toList - node.mark.getD 0 = offset := by
  rw [Node.Marked, if_pos opens] at marked
  obtain ⟨place, mark, c, ⟨before, whole⟩, rfl, after, operator⟩ := marked
  have lengths := congrArg byteLength whole
  rw [byte_length_append, ← c.left_eq] at lengths
  have behind : byteLength input.toList - c.left = byteLength before := by omega
  refine ⟨byteLength before, ⟨⟨before, after, ?_, rfl⟩, ?_⟩, ?_⟩
  · rw [← whole, ← operator]
    rfl
  · rw [mark, ← lengths, Nat.add_sub_cancel_left]
  · rw [mark, Option.getD_some, behind]

theorem opened_at_mark {input : String} {node : Node} {offset : Nat} (opened : node.OpenedAt input offset) :
    offset = byteLength input.toList - node.mark.getD 0 ∧ offset ≤ byteLength input.toList := by
  obtain ⟨⟨before, after, whole, rfl⟩, mark⟩ := opened
  have lengths := congrArg byteLength whole
  rw [byte_length_append] at lengths
  rw [mark, Option.getD_some]
  omega

/-- No tree is returned with a here-document in it, at any depth, or with a mark. If a here-document
is told instead, the text was read to its end, each here-document of the tree is opened at the offset
that it is marked with, and the place that is told is that of the smallest of them. -/
theorem here_documents_told_at_leftmost (config : Config) (input : String) :
    (∀ tree, parse config input = .ok tree →
      tree.hereDocuments = [] ∧ ∀ inner ∈ tree.descendants, inner.mark = none) ∧
    ∀ line column, parse config input = .error (.hereDocument line column) →
      ∃ tree s, readProgram ⟨true, config.maxDepth⟩ input.toList = (some tree, s) ∧ s.cursor.rest = [] ∧
        (∀ inner ∈ tree.hereDocuments, ∃ offset, inner.OpenedAt input offset) ∧
        ∃ least, (∃ inner ∈ tree.hereDocuments, inner.OpenedAt input least) ∧
          (∀ inner ∈ tree.hereDocuments, ∀ offset, inner.OpenedAt input offset → least ≤ offset) ∧
          line = (locate input least).line ∧ column = (locate input least).column := by
  have judges := parse_judges config input
  constructor
  · intro tree parsed
    rcases judges with ⟨length, long⟩ | judged
    · rw [long] at parsed
      cases parsed
    · rw [judged] at parsed
      obtain ⟨given, without⟩ := judged_ok parsed
      have plain := no_here_document_iff.mp without
      refine ⟨List.filter_eq_nil_iff.mpr fun inner member => by simp [plain inner member], ?_⟩
      intro inner member
      have marked := run_tree_marked given inner member
      rwa [Node.Marked, plain inner member] at marked
  · intro line column told
    rcases judges with ⟨length, long⟩ | judged
    · rw [long] at told
      cases told
    · rw [judged] at told
      obtain ⟨tree, mark, given, whole, first, rfl, rfl⟩ := judged_here_document told
      have opened : ∀ inner ∈ tree.hereDocuments, ∃ offset, inner.OpenedAt input offset ∧
          byteLength input.toList - inner.mark.getD 0 = offset := by
        intro inner member
        obtain ⟨below, opens⟩ := List.mem_filter.mp member
        exact opened_at_of_marked opens (run_tree_marked given inner below)
      obtain ⟨attained, highest⟩ := List.max?_eq_some_iff.mp first
      obtain ⟨leftmost, member, rfl⟩ := List.mem_map.mp attained
      obtain ⟨least, here, same⟩ := opened leftmost member
      have run : readProgram ⟨true, config.maxDepth⟩ input.toList =
          (some tree, (readProgram ⟨true, config.maxDepth⟩ input.toList).2) := by rw [← given]
      refine ⟨tree, _, run, whole, ?_, least, ⟨leftmost, member, here⟩, ?_, ?_⟩
      · exact fun inner below => (opened inner below).imp fun offset => And.left
      · intro inner below offset other
        have bound := highest _ (List.mem_map_of_mem below)
        have place := (opened_at_mark other).1
        omega
      · rw [same]
        exact ⟨rfl, rfl⟩

theorem here_document_told_in_expansion :
    (∃ tree, parse {} "é <a" = .ok tree ∧ tree.hereDocuments = [] ∧
      ∀ inner ∈ tree.descendants, inner.mark = none) ∧
    parse {} "é <a $((b) <<c) <<d" = .error (.hereDocument 1 12) ∧
    ∃ tree s, readProgram ⟨true, 64⟩ "é <a $((b) <<c) <<d".toList = (some tree, s) ∧
      s.cursor.rest = [] ∧
      ∃ least, (∃ inner ∈ tree.hereDocuments, inner.OpenedAt "é <a $((b) <<c) <<d" least) ∧
        12 = (locate "é <a $((b) <<c) <<d" least).column := by
  obtain ⟨tree, parsed, -⟩ := parse_ok_of_view {} "é <a" (fun _ => ()) () (by decide +kernel)
  have told : parse {} "é <a $((b) <<c) <<d" = .error (.hereDocument 1 12) := by decide +kernel
  obtain ⟨other, s, run, whole, -, least, opened, -, -, column⟩ :=
    (here_documents_told_at_leftmost {} "é <a $((b) <<c) <<d").2 1 12 told
  exact ⟨⟨tree, parsed, (here_documents_told_at_leftmost {} "é <a").1 tree parsed⟩, told,
    other, s, run, whole, least, opened, column⟩

end ShellLine
