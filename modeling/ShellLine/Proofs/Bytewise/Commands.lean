import ShellLine.Bytewise.Command
import ShellLine.Proofs.Bytewise.Words

set_option autoImplicit false

namespace ShellLine.Bytewise

open Text Program
open Grammar (reservedAhead redirectionOperators)

variable {input : String} {limit bound : Nat} {ends : Ending} {here : List Char → Prop} {α : Type}

section Redirections

theorem refines_redirected_descriptor :
    Refines input limit bound back here redirectedDescriptor Grammar.redirectedDescriptor := by
  refine refines_atomic (refines_scanned anywhere coarse_digit (fun _ _ => trivial) (fun _ _ _ _ _ => trivial)
    fun start chars within => ?_)
  refine refines_peek fun ahead whole => ?_
  have sliced : Refines input limit bound anywhere (· = ahead)
      (do return Node.leaf .redirectedDescriptor (← sliceFrom (offsetOf input start.left)))
      (do return Node.leaf .redirectedDescriptor chars) :=
    refines_mono (refines_sliced within) (fun _ _ _ => id) fun _ same => same ▸ whole
  split
  · obtain ⟨more, rfl⟩ := cons_of_lead ‹_› (by decide)
    exact sliced
  · obtain ⟨more, rfl⟩ := cons_of_lead ‹_› (by decide)
    exact sliced
  · rename_i noInput noOutput
    split
    · exact absurd ‹_› (head_apart noInput (by decide))
    · exact absurd ‹_› (head_apart noOutput (by decide))
    · exact refines_miss fun _ => trivial

theorem refines_placed {next : Nat → Program α} {following : Nat → Parser α}
    (each : ∀ left, left ≤ byteLength input.toList →
      Refines input limit bound ends here (next (offsetOf input left)) (following left)) :
    Refines input limit bound ends here (position >>= next) (Parser.place >>= following) := by
  intro level s c trace value e short sent stands runs
  have within := sent.sound.cursor
  rcases has_run_of_runs runs with ⟨left, m, before, after, ran, later, rfl⟩ | ⟨m, ran, -⟩
  · obtain ⟨-, same⟩ := has_run_of_runs ran
    cases same
    rw [List.length_append] at short
    exact comes_after _ reaches_position sent rfl within (fun t again => each _ (boundary_of_place within).1 level t c
      after value e (by omega) again stands later) fun _ => id
  · cases (has_run_of_runs ran).2

theorem refines_redirection (calls : CallsRefine input limit bound) :
    Refines input limit bound anywhere (fun _ => True) redirection Grammar.redirection := by
  refine refines_anyhow (refines_maybe refines_redirected_descriptor) fun descriptor => ?_
  refine refines_placed fun left within => ?_
  refine refines_anyhow (refines_literal_among _) fun kind => refines_anyhow refines_blanks fun _ => ?_
  refine refines_anyhow (calls .word _) fun target => refines_peeked (fun _ _ _ => reaches_length) ?_
  rw [bytes_length, offsetOf, Nat.sub_sub_self within]
  exact refines_give _

end Redirections

section Compounds

theorem refines_compound_list (calls : CallsRefine input limit bound) :
    Refines input limit bound back here compoundList Grammar.compoundList :=
  refines_nested (refines_atomic (refines_anyhow refines_line_break fun _ => refines_lax (refines_term_list calls true)))
    fun _ => rfl

theorem refines_brace_group (calls : CallsRefine input limit bound) :
    Refines input limit bound back here braceGroup Grammar.braceGroup :=
  refines_atomic <| refines_anyhow (refines_keyword _) fun _ => refines_anyhow (refines_compound_list calls) fun _ =>
    refines_anyhow (refines_keyword _) fun _ => refines_give _

theorem refines_subshell (calls : CallsRefine input limit bound) :
    Refines input limit bound back here subshell Grammar.subshell :=
  refines_atomic <| refines_anyhow (refines_operator _) fun _ => refines_anyhow (refines_compound_list calls) fun _ =>
    refines_anyhow (refines_operator _) fun _ => refines_give _

theorem refines_do_group (calls : CallsRefine input limit bound) :
    Refines input limit bound back here doGroup Grammar.doGroup :=
  refines_atomic <| refines_anyhow (refines_keyword _) fun _ => refines_anyhow (refines_compound_list calls) fun _ =>
    refines_anyhow (refines_keyword _) fun _ => refines_give _

theorem refines_sequential_separator :
    Refines input limit bound back here sequentialSeparator Grammar.sequentialSeparator :=
  refines_either (refines_then (refines_lone_operator (by decide)) fun _ => refines_line_break) refines_newlines

theorem refines_in_clause (calls : CallsRefine input limit bound) :
    Refines input limit bound anywhere here inClause Grammar.inClause :=
  refines_anyhow refines_line_break fun _ => refines_anyhow (refines_keyword _) fun _ =>
    refines_anyhow (refines_many (calls .word _)) fun _ => refines_anyhow refines_sequential_separator fun _ =>
      refines_give _

theorem refines_for_clause (calls : CallsRefine input limit bound) :
    Refines input limit bound back here forClause Grammar.forClause := by
  refine refines_atomic (refines_anyhow (refines_keyword _) fun _ => refines_anyhow refines_name fun parameter =>
    refines_anyhow refines_blanks fun _ => refines_anyhow (refines_attempt (refines_in_clause calls)) fun words => ?_)
  cases words with
  | some words => exact refines_anyhow (refines_do_group calls) fun _ => refines_give _
  | none =>
      exact refines_anyhow (refines_optional refines_sequential_separator) fun _ =>
        refines_anyhow (refines_do_group calls) fun _ => refines_give _

theorem refines_case_item (calls : CallsRefine input limit bound) :
    Refines input limit bound back here caseItem Grammar.caseItem := by
  have others : Refines input limit bound anywhere (fun _ => True) (do loneOperator '|'; .call .word)
      (do Grammar.loneOperator '|'; .call .word) :=
    refines_anyhow (refines_lone_operator (by decide)) fun _ => refines_lax (calls .word _)
  refine refines_atomic (refines_anyhow (refines_optional (refines_operator _)) fun _ =>
    refines_anyhow (calls .word _) fun first => refines_anyhow (refines_attempts others) fun others =>
      refines_anyhow (refines_operator _) fun _ => refines_anyhow (refines_maybe (refines_compound_list calls)) fun body => ?_)
  have last : ∀ item : Node, Refines input limit bound anywhere (fun _ => True)
      (do lineBreak; return Turn.more item) (do Grammar.lineBreak; return Turn.more item) :=
    fun item => refines_anyhow refines_line_break fun _ => refines_give _
  cases body with
  | some body => exact refines_maybe_then (refines_operator _) (fun _ => last _) (refines_give _)
  | none =>
      exact refines_anyhow refines_line_break fun _ =>
        refines_maybe_then (refines_operator _) (fun _ => last _) (refines_give _)

theorem refines_case_items (calls : CallsRefine input limit bound) :
    Refines input limit bound never (fun _ => True) caseItems Grammar.caseItems := by
  refine refines_rounds (refines_surely (refines_maybe (refines_case_item calls)) fun tried => ?_) fun _ _ _ _ => id
  cases tried <;> exact refines_give _

theorem refines_case_clause (calls : CallsRefine input limit bound) :
    Refines input limit bound back here caseClause Grammar.caseClause :=
  refines_atomic <| refines_anyhow (refines_keyword _) fun _ => refines_anyhow (calls .word _) fun _ =>
    refines_anyhow refines_line_break fun _ => refines_anyhow (refines_keyword _) fun _ =>
      refines_anyhow refines_line_break fun _ => refines_anyhow (refines_case_items calls) fun _ =>
        refines_anyhow (refines_keyword _) fun _ => refines_give _

theorem refines_else_part (calls : CallsRefine input limit bound) :
    Refines input limit bound back here elsePart Grammar.elsePart := by
  refine refines_atomic (refines_maybe_then (refines_keyword _) (fun _ => ?_) ?_)
  · exact refines_anyhow (calls .conditional _) fun _ => refines_give _
  · exact refines_anyhow (refines_keyword _) fun _ => refines_anyhow (refines_compound_list calls) fun _ =>
      refines_give _

theorem refines_conditional (calls : CallsRefine input limit bound) :
    Refines input limit bound anywhere here conditional Grammar.conditional :=
  refines_anyhow (refines_compound_list calls) fun _ => refines_anyhow (refines_keyword _) fun _ =>
    refines_anyhow (refines_compound_list calls) fun _ => refines_anyhow (refines_maybe (refines_else_part calls)) fun _ =>
      refines_give _

theorem refines_if_clause (calls : CallsRefine input limit bound) :
    Refines input limit bound back here ifClause Grammar.ifClause :=
  refines_atomic <| refines_anyhow (refines_keyword _) fun _ => refines_anyhow (calls .conditional _) fun _ =>
    refines_anyhow (refines_keyword _) fun _ => refines_give _

theorem refines_loop_clause (calls : CallsRefine input limit bound) (word : String) (kind : Kind) :
    Refines input limit bound back here (loopClause word kind) (Grammar.loopClause word kind) :=
  refines_atomic <| refines_anyhow (refines_keyword _) fun _ => refines_anyhow (refines_compound_list calls) fun _ =>
    refines_anyhow (refines_do_group calls) fun _ => refines_give _

theorem refines_compound_command (calls : CallsRefine input limit bound) :
    Refines input limit bound back here compoundCommand Grammar.compoundCommand := by
  refine refines_peek fun ahead _ => ?_
  split
  · obtain ⟨more, rfl⟩ := cons_of_lead ‹_› (by decide)
    exact refines_brace_group calls
  · obtain ⟨more, rfl⟩ := cons_of_lead ‹_› (by decide)
    exact refines_subshell calls
  · obtain ⟨more, rfl⟩ := cons_of_lead ‹_› (by decide)
    exact refines_for_clause calls
  · obtain ⟨more, rfl⟩ := cons_of_lead ‹_› (by decide)
    exact refines_case_clause calls
  · obtain ⟨more, rfl⟩ := cons_of_lead ‹_› (by decide)
    exact refines_if_clause calls
  · obtain ⟨more, rfl⟩ := cons_of_lead ‹_› (by decide)
    exact refines_loop_clause calls _ _
  · obtain ⟨more, rfl⟩ := cons_of_lead ‹_› (by decide)
    exact refines_loop_clause calls _ _
  · rename_i noBrace noParenthesis noFor noCase noIf noWhile noUntil
    split
    · exact absurd ‹_› (head_apart noBrace (by decide))
    · exact absurd ‹_› (head_apart noParenthesis (by decide))
    · exact absurd ‹_› (head_apart noFor (by decide))
    · exact absurd ‹_› (head_apart noCase (by decide))
    · exact absurd ‹_› (head_apart noIf (by decide))
    · exact absurd ‹_› (head_apart noWhile (by decide))
    · exact absurd ‹_› (head_apart noUntil (by decide))
    · exact refines_miss fun _ => rfl

theorem refines_with_redirections (calls : CallsRefine input limit bound) (compound : Node) :
    Refines input limit bound never (fun _ => True) (withRedirections compound) (Grammar.withRedirections compound) :=
  refines_surely (refines_many (calls .redirection _)) fun _ => refines_give _

end Compounds

section Commands

theorem refines_unless_reserved {b b' : Program α} {p p' : Parser α}
    (reserved : Refines input limit bound ends here b p) (other : Refines input limit bound ends here b' p') :
    Refines input limit bound ends here (do if ← reservedHere then b else b')
      (do if reservedAhead (← .look) then p else p') := by
  refine refines_look reservedAhead (fun _ within _ => reaches_reserved_here within) fun ahead stands => ?_
  cases reservedAhead ahead with
  | true => exact refines_mono reserved (fun _ _ _ => id) fun _ same => same ▸ stands
  | false => exact refines_mono other (fun _ _ _ => id) fun _ same => same ▸ stands

theorem refines_function_definition (calls : CallsRefine input limit bound) :
    Refines input limit bound back here functionDefinition Grammar.functionDefinition := by
  refine refines_unless_reserved (refines_miss fun _ => rfl) (refines_atomic ?_)
  exact refines_anyhow refines_name fun _ => refines_anyhow refines_blanks fun _ =>
    refines_anyhow (refines_operator _) fun _ => refines_anyhow (refines_operator _) fun _ =>
      refines_anyhow refines_line_break fun _ => refines_anyhow (refines_compound_command calls) fun _ =>
        refines_anyhow (refines_with_redirections calls _) fun _ => refines_give _

theorem refines_assignment (calls : CallsRefine input limit bound) :
    Refines input limit bound back here assignment Grammar.assignment :=
  refines_atomic <| refines_anyhow refines_name fun _ => refines_anyhow (refines_literal _) fun _ =>
    refines_anyhow (refines_word_parts calls false) fun _ => refines_anyhow refines_blanks fun _ => refines_give _

theorem refines_command_word (calls : CallsRefine input limit bound) :
    Refines input limit bound back here commandWord Grammar.commandWord :=
  refines_unless_reserved (refines_refuse _) (calls .word _)

theorem refines_simple_command (calls : CallsRefine input limit bound) :
    Refines input limit bound anywhere (fun _ => True) simpleCommand Grammar.simpleCommand := by
  refine refines_anyhow (refines_many (refines_either (calls .redirection _) (refines_assignment calls))) fun items => ?_
  refine refines_maybe_then (refines_command_word calls) (fun first => ?_) ?_
  · exact refines_anyhow (refines_many (refines_either (calls .redirection _) (calls .word _))) fun _ => refines_give _
  · by_cases empty : items = []
    · simp only [if_pos empty]
      exact refines_miss fun _ => trivial
    · simp only [if_neg empty]
      exact refines_give _

theorem refines_command (calls : CallsRefine input limit bound) :
    Refines input limit bound anywhere (fun _ => True) command Grammar.command := by
  refine refines_or_else (refines_function_definition calls) (refines_or_else ?_ (refines_simple_command calls)
    fun _ _ _ _ _ _ => trivial) fun _ _ _ _ _ _ => trivial
  exact refines_then (refines_compound_command calls) fun _ => refines_with_redirections calls _

theorem refines_pipe_sequence (calls : CallsRefine input limit bound) :
    Refines input limit bound anywhere (fun _ => True) pipeSequence Grammar.pipeSequence := by
  have stage : Refines input limit bound anywhere (fun _ => True) (do loneOperator '|'; lineBreak; .call .command)
      (do Grammar.loneOperator '|'; Grammar.lineBreak; .call .command) :=
    refines_anyhow (refines_lone_operator (by decide)) fun _ => refines_anyhow refines_line_break fun _ =>
      refines_lax (calls .command _)
  refine refines_anyhow (calls .command _) fun first => refines_anyhow (refines_attempts stage) fun others => ?_
  cases others <;> exact refines_give _

theorem refines_pipeline (calls : CallsRefine input limit bound) :
    Refines input limit bound back here pipeline Grammar.pipeline :=
  refines_atomic <| refines_anyhow (refines_maybe (refines_keyword _)) fun _ =>
    refines_anyhow (refines_pipe_sequence calls) fun _ => refines_give _

theorem refines_and_or_link (calls : CallsRefine input limit bound) :
    Refines input limit bound anywhere (fun _ => True) andOrLink Grammar.andOrLink :=
  refines_anyhow (refines_either (refines_then (refines_operator _) fun _ => refines_give _)
    (refines_then (refines_operator _) fun _ => refines_give _)) fun _ => refines_anyhow refines_line_break fun _ =>
      refines_anyhow (refines_pipeline calls) fun _ => refines_give _

theorem refines_and_or (calls : CallsRefine input limit bound) :
    Refines input limit bound anywhere (fun _ => True) andOr Grammar.andOr :=
  refines_anyhow (refines_pipeline calls) fun _ => refines_anyhow (refines_attempts (refines_and_or_link calls)) fun _ =>
    refines_give _

end Commands

section Rules

theorem refines_rule (calls : CallsRefine input limit bound) (rule : Rule) :
    Refines input limit bound anywhere (fun _ => True) (rules rule) (grammar rule) := by
  cases rule with
  | word => exact refines_word calls
  | redirection => exact refines_redirection calls
  | operand => exact refines_operand calls
  | command => exact refines_command calls
  | andOr => exact refines_and_or calls
  | conditional => exact refines_conditional calls

end Rules

end ShellLine.Bytewise
