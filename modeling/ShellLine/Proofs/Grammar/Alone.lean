import ShellLine.Proofs.Analysis.LiteralArgv

set_option autoImplicit false

namespace ShellLine.Grammar

open ShellLine.Parser

variable {c d : Cursor}

theorem rejects_literal_among {operators : List (String × Kind)}
    (none : ∀ pair ∈ operators, ¬ pair.1.toList <+: c.rest) :
    (literalAmong operators).Rejects c := by
  induction operators with
  | nil => exact fails_fail c
  | cons first others ih =>
      obtain ⟨here, later⟩ := List.forall_mem_cons.mp none
      obtain ⟨text, kind⟩ := first
      simp only [literalAmong, Rejects, fails_or_else, fails_bind, fails_literal]
      exact ⟨Or.inl here, ih later⟩

theorem redirection_operator_starts (text : String) (kind : Kind)
    (member : (text, kind) ∈ redirectionOperators) :
    text.toList.head? = some '<' ∨ text.toList.head? = some '>' := by
  have every : ∀ pair ∈ redirectionOperators,
      pair.1.toList.head? = some '<' ∨ pair.1.toList.head? = some '>' := by decide +kernel
  exact every (text, kind) member

theorem rejects_redirection (noOperator : ∀ ch,
    (c.rest.dropWhile Char.isDigit).head? = some ch → ch ≠ '<' ∧ ch ≠ '>') :
    redirection.Rejects c := by
  have noDescriptor : redirectedDescriptor.Rejects c := by
    simp only [redirectedDescriptor, Rejects, fails_atomic, fails_bind, fails_take_while, false_or,
      gives_take_while]
    refine ⟨_, _, ⟨rfl, rfl⟩, ?_⟩
    split
    · exact fails_refuse _ _
    · rw [fails_look_bind, rest_advance_take_while]
      split
      · rename_i head
        exact absurd rfl (noOperator _ head).1
      · rename_i head
        exact absurd rfl (noOperator _ head).2
      · exact fails_fail _
  have noStart : ∀ ch, ch = '<' ∨ ch = '>' → c.rest.head? ≠ some ch := by
    intro ch operator head
    obtain ⟨rest, here⟩ := List.head?_eq_some_iff.mp head
    rw [here] at noOperator
    rcases operator with rfl | rfl <;> simp at noOperator
  have none : (literalAmong redirectionOperators).Rejects c := by
    apply rejects_literal_among
    rintro ⟨text, kind⟩ member ⟨behind, here⟩
    rcases redirection_operator_starts text kind member with starts | starts
    all_goals
      refine noStart _ ?_ (by rw [← here, List.head?_append, starts]; rfl)
      simp
  rw [redirection, Rejects, fails_attempt_bind]
  refine Or.inr ⟨noDescriptor, ?_⟩
  rw [fails_place_bind, fails_bind]
  exact Or.inl none

theorem rejects_word (noPart : (wordPart false).Rejects c) : word.Rejects c := by
  simp only [word, wordParts, Rejects, fails_bind, gives_many]
  exact Or.inr ⟨[], c, .stop noPart, fails_fail c⟩

theorem word_of_part {part : Node} (read : (wordPart false).Reads c part d) (ended : (wordPart false).Rejects d) :
    (call .word).Reads c (.ofNodes .word [part]) d.pastBlanks := by
  have items : Items (reading grammar) (wordPart false) c [part] d :=
    .more read (word_part_moves read) (.stop ended)
  rw [reads_call]
  exact reads_bind (reads_many items) (reads_bind ((gives_blanks _ _ ()).mpr rfl) (reads_pure _ _))

theorem rejects_function_definition (noName : c.rest.head?.any startsName = false) :
    functionDefinition.Rejects c := by
  rw [functionDefinition, Rejects, fails_look_bind]
  split
  · exact fails_fail c
  · simp [noName]

theorem reads_unredirected (compound : Node) (none : (call .redirection).Rejects c) :
    (withRedirections compound).Reads c compound c := by
  refine reads_bind (reads_many (.stop none)) ?_
  have kept : compound.contents.append (.ofNodes []) = compound.contents := Forest.append_nil _
  rw [kept]
  exact reads_pure compound c

theorem simple_command_of_parts {e f : Cursor} {items others : List Node} {first : Node}
    (leads : Items (reading grammar) leadItem c items e) (name : commandWord.Reads e first f)
    (arguments : Items (reading grammar) argumentItem f others d) :
    simpleCommand.Reads c (.ofNodes .simpleCommand (leadNodes items ++ first :: others)) d := by
  rw [simpleCommand, Reads, gives_bind]
  refine ⟨items, e, (gives_many leadItem c e items).mpr leads, ?_⟩
  rw [gives_attempt_bind]
  refine Or.inl ⟨first, f, name, ?_⟩
  simp only [gives_bind, gives_many, gives_pure]
  exact ⟨others, d, arguments, rfl, rfl⟩

theorem simple_command_is_command {node : Node} (noFunction : functionDefinition.Rejects c)
    (noCompound : compoundCommand.Rejects c) (read : simpleCommand.Reads c node d) :
    (call .command).Reads c node d := by
  rw [reads_call]
  simp only [grammar, command, Reads, gives_or_else, fails_bind]
  exact Or.inr ⟨noFunction, Or.inr ⟨Or.inl noCompound, read⟩⟩

section Levels

variable {node : Node}

-- What one level of the grammar has read is what the next one reads, where nothing goes on behind it.
theorem command_is_sequence (read : (call .command).Reads c node d) (noStage : nextStage.Rejects d) :
    pipeSequence.Reads c node d :=
  reads_bind read (reads_bind (reads_many (.stop noStage)) (reads_pure _ _))

theorem sequence_is_pipeline (noBang : startsReserved "!".toList c.rest = false)
    (read : pipeSequence.Reads c node d) : pipeline.Reads c node d :=
  reads_atomic (reads_bind (reads_missed ((fails_keyword _ _).mpr noBang)) (reads_bind read (reads_pure _ _)))

theorem pipeline_is_chain (read : pipeline.Reads c node d) (noLink : andOrLink.Rejects d) :
    (call .andOr).Reads c node d := by
  rw [reads_call]
  exact reads_bind read (reads_bind (reads_many (.stop noLink)) (reads_pure _ _))

theorem reads_last_term {lines : Bool} (chain : (call .andOr).Reads c node d) (none : (separator lines).Rejects d) :
    (term lines).Reads c (.last node) d :=
  reads_bind (reads_tried chain) (reads_bind (reads_missed none) (reads_pure _ _))

theorem chain_is_list (read : (call .andOr).Reads c node d) (none : (separator false).Rejects d) :
    (termList false).Reads c node d :=
  reads_bind (reads_rounds (.last (reads_last_term read none))) (reads_pure _ _)

theorem list_is_commands (read : (termList false).Reads c node d) (noCommand : nextCommand.Rejects d) :
    completeCommands.Reads c [.wrap .completeCommand node] d := by
  have complete : completeCommand.Reads c (.wrap .completeCommand node) d := reads_bind read (reads_pure _ _)
  exact reads_bind (reads_tried complete) (reads_bind (reads_many (.stop noCommand)) (reads_pure _ _))

end Levels

theorem command_is_chain {node : Node} (noBang : startsReserved "!".toList c.rest = false)
    (read : (call .command).Reads c node d) (whole : d.rest = []) :
    (call .andOr).Reads c node d := by
  have sequence := command_is_sequence read (by simp [standsAlone, whole])
  exact pipeline_is_chain (sequence_is_pipeline noBang sequence) (by simp [andOrLink, whole])

theorem list_is_program {node : Node} (idle : c.pastBlanks.pastBreak = c)
    (read : (termList false).Reads c node d) (whole : d.rest = []) :
    program.Reads c (.programOf node) d := by
  have commands := list_is_commands read (by simp [whole])
  have ended : d.pastBreak = d := by simp [Cursor.pastBreak, whole]
  simp only [program, Reads, gives_bind, gives_blanks, gives_line_break, gives_pure]
  exact ⟨(), _, rfl, (), _, rfl, _, d, by rwa [idle], (), d, ended, rfl, rfl⟩

theorem chain_is_program {node : Node} (idle : c.pastBlanks.pastBreak = c)
    (read : (call .andOr).Reads c node d)
    (whole : d.rest = []) : program.Reads c (.programOf node) d :=
  list_is_program idle (chain_is_list read (by simp [separator, standsAlone, whole])) whole

end ShellLine.Grammar
