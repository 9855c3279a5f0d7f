import ShellLine.Proofs.Analysis.LiteralArgv

set_option autoImplicit false

namespace ShellLine

namespace Grammar

open ShellLine.Parser

theorem aside_kind {node : Node} (aside : Aside node) :
    node.kind = .commandLead ∨ node.kind = .redirection := by
  cases aside with
  | lead kind _ => exact Or.inl kind
  | redirection kind _ => exact Or.inr kind

theorem mem_children_of_simple_command {c d : Cursor} {command : Node}
    (read : SimpleRead c command d) (node : Node) :
    node ∈ command.children ↔ Child.node node ∈ command.contents.toList := by
  obtain ⟨nodes, rfl⟩ : ∃ nodes, command = .ofNodes .simpleCommand nodes := by
    cases read <;> exact ⟨_, rfl⟩
  rw [Node.children_of_nodes, Node.mem_of_nodes]

theorem words_plain_iff_expansions_aside {c d : Cursor} {command : Node}
    (read : SimpleRead c command d) :
    (∀ word ∈ command.words, word.features = []) ↔
      ∀ child ∈ command.children, child.expandsWord = true →
        child.kind = .commandLead ∨ child.kind = .redirection := by
  constructor
  · intro plain child member expands
    have inside := (mem_children_of_simple_command read child).mp member
    obtain ⟨node, same, aside | ⟨e, f, given⟩⟩ := child_of_simple_command read _ inside
    · cases same
      exact aside_kind aside
    · cases same
      have isWord := (Node.mem_words command child).mpr ⟨inside, word_kind given⟩
      have none := not_expands_word (not_expands_of_plain (plain child isWord))
      exact absurd expands (Bool.eq_false_iff.mp none)
  · intro onlyAside word member
    obtain ⟨inside, kind⟩ := (Node.mem_words command word).mp member
    obtain ⟨e, f, given⟩ := word_of_simple_command read member
    refine unexpanded_word_plain given (Bool.eq_false_iff.mpr fun expands => ?_)
    have child := (mem_children_of_simple_command read word).mpr inside
    rcases onlyAside word child (expands_word_of_word kind expands) with other | other
    · cases kind.symm.trans other
    · cases kind.symm.trans other

end Grammar

/-- Assignments and redirections may expand words beside an argument vector, nothing else may. -/
theorem expansions_stand_aside (config : Config) (input : String) (tree : Node)
    (parsed : parse config input = .ok tree) :
    tree.literalArgv?.isSome ↔ ∃ command, tree = .programOf command ∧
      command.kind = .simpleCommand ∧ ∀ child ∈ command.children, child.expandsWord = true →
        child.kind = .commandLead ∨ child.kind = .redirection := by
  obtain ⟨d, read, -, -⟩ := parse_ok config input tree parsed
  rw [Grammar.literal_argv_is_some read]
  refine exists_congr fun command => and_congr_right fun same =>
    and_congr_right fun simple => ?_
  subst same
  obtain ⟨e, f, given, -⟩ := Grammar.reads_simple_program read simple
  exact Grammar.words_plain_iff_expansions_aside given

theorem expanded_target_beside_argv :
    ∃ command, parse {} "tee -a < \"$x\"" = .ok (.programOf command) ∧
      (Node.programOf command).expandsWord = true ∧ command.kind = .simpleCommand ∧
      ∀ child ∈ command.children, child.expandsWord = true →
        child.kind = .commandLead ∨ child.kind = .redirection := by
  obtain ⟨tree, parsed, seen⟩ := parse_ok_of_view {} "tee -a < \"$x\""
    (fun tree => (tree.literalArgv?.isSome, tree.expandsWord)) (true, true) (by decide +kernel)
  obtain ⟨literal, expands⟩ := Prod.mk.inj seen
  obtain ⟨command, rfl, simple, aside⟩ := (expansions_stand_aside {} _ tree parsed).mp literal
  exact ⟨command, parsed, expands, simple, aside⟩

theorem expanded_assignment_beside_argv :
    ∃ tree, parse {} "x=$y echo" = .ok tree ∧ tree.expandsWord = true ∧
      tree.literalArgv? = some ["echo"] := by
  obtain ⟨tree, parsed, seen⟩ := parse_ok_of_view {} "x=$y echo"
    (fun tree => (tree.expandsWord, tree.literalArgv?)) (true, some ["echo"]) (by decide +kernel)
  exact ⟨tree, parsed, Prod.mk.inj seen⟩

end ShellLine
