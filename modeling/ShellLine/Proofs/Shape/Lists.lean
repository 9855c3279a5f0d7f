import ShellLine.Proofs.Reading.Induction
import ShellLine.Proofs.Shape.Formed
import ShellLine.Proofs.Shape.Stuck

set_option autoImplicit false

namespace ShellLine.Grammar

open ShellLine.Parser

-- What the rules read, as far as the shape of trees goes.
def Good : Rule → Cursor → Node → Cursor → Prop
  | .word, _, node, _ => node.isFullWord = true ∧ node.IsWhole
  | .operand, _, node, _ => node.kind = .word ∧ node.IsWhole
  | .redirection, _, node, _ => node.kind = .redirection ∧ node.IsWhole
  | .command, _, node, d => node.kind.isCommand = true ∧ (node.IsWhole ∨ Stuck d)
  | .andOr, _, node, d => node.kind.isChain = true ∧ (node.IsWhole ∨ Stuck d)
  | .conditional, _, node, d => node.kind = .ifChoice ∧ (node.Grows ∨ Stuck d)

section Repetition

variable {calls : Rule → Cursor → Reading Node} {α : Type} {Q : α → Prop} {c d : Cursor}

theorem items_end_stuck {item : Parser α} {values : List α}
    (starts : ∀ c value d, item.Gives calls c value d → ¬ Stuck c) (stuck : Stuck c)
    (items : Items calls item c values d) : values = [] ∧ c = d := by
  cases items with
  | stop _ => exact ⟨rfl, rfl⟩
  | halt given _ => exact absurd stuck (starts _ _ _ given)
  | more given _ _ => exact absurd stuck (starts _ _ _ given)

theorem items_good {item : Parser α} {values : List α}
    (starts : ∀ c value d, item.Gives calls c value d → ¬ Stuck c)
    (each : ∀ c value d, item.Gives calls c value d → Q value ∨ Stuck d)
    (items : Items calls item c values d) : (∀ value ∈ values, Q value) ∨ Stuck d := by
  induction items with
  | stop _ => exact Or.inl (by simp)
  | halt given _ => exact (each _ _ _ given).imp_left List.forall_mem_singleton.mpr
  | more given _ others ih =>
      rcases each _ _ _ given with good | stuck
      · exact ih.imp_left fun later => List.forall_mem_cons.mpr ⟨good, later⟩
      · obtain ⟨-, rfl⟩ := items_end_stuck starts stuck others
        exact Or.inr stuck

end Repetition

section Lists

variable {calls : Rule → Cursor → Reading Node} (knows : Knows Good calls) {c d : Cursor}

include knows

-- Only the last term of a list can be cut short: a separator stands behind the others.
theorem good_term {lines : Bool} {turn : Turn Node} {node : Node}
    (form : TermForm calls lines c turn d) (turned : turn = .more node ∨ turn = .last node) :
    (node.kind = .background ∨ node.kind.isChain = true) ∧
      (node.IsWhole ∨ turn = .last node ∧ Stuck d) := by
  rcases term_node_form form turned with
    ⟨given, last⟩ | ⟨inner, e, rfl, given, ended⟩ | ⟨e, given, ended⟩
  · obtain ⟨chain, whole⟩ := knows.holds given
    exact ⟨Or.inr chain, whole.imp_right fun stuck => ⟨last, stuck⟩⟩
  · obtain ⟨chain, whole⟩ := knows.holds given
    exact ⟨Or.inl rfl,
      Or.inl (whole_of_wrap rfl chain (whole.resolve_right (not_stuck_of_separator ended)))⟩
  · obtain ⟨chain, whole⟩ := knows.holds given
    exact ⟨Or.inr chain, Or.inl (whole.resolve_right (not_stuck_of_separator ended))⟩

theorem good_terms {lines : Bool} {terms : List Node} (turns : Turns calls (term lines) c terms d) :
    (∀ node ∈ terms, node.kind = .background ∨ node.kind.isChain = true) ∧
      ((∀ node ∈ terms, node.IsWhole) ∨ Stuck d) := by
  induction turns with
  | stop _ => exact ⟨by simp, Or.inl (by simp)⟩
  | last given =>
      obtain ⟨kind, whole⟩ := good_term knows (term_form given) (Or.inr rfl)
      exact ⟨List.forall_mem_singleton.mpr kind, whole.imp List.forall_mem_singleton.mpr And.right⟩
  | halt given _ =>
      obtain ⟨kind, whole⟩ := good_term knows (term_form given) (Or.inl rfl)
      have whole := whole.resolve_right fun both => by cases both.1
      exact ⟨List.forall_mem_singleton.mpr kind, Or.inl (List.forall_mem_singleton.mpr whole)⟩
  | more given _ _ ih =>
      obtain ⟨kind, whole⟩ := good_term knows (term_form given) (Or.inl rfl)
      have whole := whole.resolve_right fun both => by cases both.1
      exact ⟨List.forall_mem_cons.mpr ⟨kind, ih.1⟩,
        ih.2.imp_left fun later => List.forall_mem_cons.mpr ⟨whole, later⟩⟩

theorem good_term_list {lines : Bool} {node : Node} (given : (termList lines).Gives calls c node d) :
    node.kind.isTerm = true ∧ (node.IsWhole ∨ Stuck d) := by
  cases term_list_form given with
  | only turns =>
      obtain ⟨kinds, whole⟩ := good_terms knows turns
      refine ⟨?_, whole.imp_left fun each => each node (List.mem_singleton_self _)⟩
      rcases kinds node (List.mem_singleton_self _) with kind | chain
      · rw [kind]
        rfl
      · simp [Kind.isTerm, chain]
  | several turns two =>
      obtain ⟨kinds, whole⟩ := good_terms knows turns
      refine ⟨rfl, whole.imp_left fun each => whole_of_nodes rfl ?_ each⟩
      simpa [Node.isRow, Kind.areSeveral, two] using kinds

theorem good_compound_list {node : Node} (given : compoundList.Gives calls c node d) :
    node.kind.isTerm = true ∧ (node.IsWhole ∨ Stuck d) :=
  good_term_list knows (compound_list_form given)

theorem good_complete_command {node : Node} (given : completeCommand.Gives calls c node d) :
    node.kind = .completeCommand ∧ (node.IsWhole ∨ Stuck d) := by
  obtain ⟨inner, list, rfl⟩ := complete_command_form given
  obtain ⟨term, whole⟩ := good_term_list knows list
  exact ⟨rfl, whole.imp_left (whole_of_wrap rfl term)⟩

theorem good_commands {commands : List Node} (form : CommandsForm calls c commands d) :
    (∀ command ∈ commands, command.kind = .completeCommand) ∧
      ((∀ command ∈ commands, command.IsWhole) ∨ Stuck d) := by
  cases form with
  | none => exact ⟨by simp, Or.inl (by simp)⟩
  | some given items =>
      have starts : ∀ e command f, nextCommand.Gives calls e command f → ¬ Stuck e :=
        fun e command f given => not_stuck_of_head (next_command_form given).1 (by decide)
      obtain ⟨kind, whole⟩ := good_complete_command knows given
      refine ⟨List.forall_mem_cons.mpr ⟨kind, fun command member => ?_⟩, ?_⟩
      · obtain ⟨e, f, given⟩ := items_given items command member
        exact (good_complete_command knows (next_command_form given).2).1
      · rcases whole with whole | stuck
        · refine (items_good starts (fun e command f given => ?_) items).imp_left fun later =>
            List.forall_mem_cons.mpr ⟨whole, later⟩
          exact (good_complete_command knows (next_command_form given).2).2
        · obtain ⟨-, rfl⟩ := items_end_stuck starts stuck items
          exact Or.inr stuck

end Lists

end ShellLine.Grammar
