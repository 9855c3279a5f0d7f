import ShellLine.Proofs.Grammar.Command

set_option autoImplicit false

namespace ShellLine.Grammar

open ShellLine.Parser

theorem term_form_plain {lines : Bool} {c d : Cursor} {turn : Turn Node} {node : Node}
    (form : TermForm (reading grammar) lines c turn d) (turned : turn = .more node ∨ turn = .last node)
    (plain : node.kind.feature? = none) :
    ∃ e, SimpleRead c node e ∧ (e = d ∨ SeparatorForm lines e .sequential d) := by
  rcases term_node_form form turned with ⟨given, -⟩ | ⟨inner, _, rfl, -, -⟩ | ⟨e, given, ended⟩
  · exact ⟨d, reads_plain_and_or ((reads_call .andOr _ _ _).mp given) plain, Or.inl rfl⟩
  · cases plain
  · exact ⟨e, reads_plain_and_or ((reads_call .andOr _ _ _).mp given) plain, Or.inr ended⟩

theorem reads_plain_term_list {lines : Bool} {c d : Cursor} {node : Node}
    (read : (termList lines).Reads c node d) (plain : node.kind.feature? = none) :
    ∃ e, SimpleRead c node e ∧ (e = d ∨ SeparatorForm lines e .sequential d) := by
  cases term_list_form read with
  | several => cases plain
  | only turns =>
      cases turns with
      | last given => exact term_form_plain (term_form given) (Or.inr rfl) plain
      | halt given _ => exact term_form_plain (term_form given) (Or.inl rfl) plain
      | more given _ rest =>
          cases rest with
          | stop stopped =>
              cases term_form stopped with
              | stop => exact term_form_plain (term_form given) (Or.inl rfl) plain

theorem complete_command_of_form {c d : Cursor} {commands : List Node}
    (form : CommandsForm (reading grammar) c commands d) :
    ∀ command ∈ commands, ∃ inner e f, (termList false).Reads e inner f ∧
      command = .wrap .completeCommand inner := by
  cases form with
  | none => simp
  | @some e _ first others given items =>
      refine List.forall_mem_cons.mpr ⟨?_, fun command member => ?_⟩
      · obtain ⟨inner, list, equal⟩ := complete_command_form given
        exact ⟨inner, c, e, list, equal⟩
      · obtain ⟨f, g, read⟩ := items_given items command member
        obtain ⟨inner, list, equal⟩ := complete_command_form (next_command_form read).2
        exact ⟨inner, f.pastLines, g, list, equal⟩

end ShellLine.Grammar
