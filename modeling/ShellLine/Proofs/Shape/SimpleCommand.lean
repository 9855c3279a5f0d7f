import ShellLine.Proofs.Shape.Words

set_option autoImplicit false

namespace ShellLine.Grammar

open ShellLine.Parser

variable {calls : Rule → Cursor → Reading Node} (knows : Knows Good calls) {c d : Cursor}

include knows

theorem good_redirection {node : Node} (given : redirection.Gives calls c node d) :
    node.kind = .redirection ∧ node.IsWhole := by
  cases redirection_form given with
  | @operation e _ descriptor text kind mark target described operator _ _ targetGiven =>
      obtain ⟨full, whole⟩ := knows.holds targetGiven
      have every : ∀ entry ∈ redirectionOperators, entry.2.isRedirectionOperator = true := by decide
      have isOperator := every (text, kind) operator
      have row : kind.layout = .row := by
        cases kind <;> first | rfl | cases isOperator
      have operationWhole : (⟨kind, .ofNodes [target], mark⟩ : Node).IsWhole := by
        refine whole_of_nodes row ?_ (List.forall_mem_singleton.mpr whole)
        rw [row_of_redirection_operator isOperator]
        simp [kind_of_full_word full, full]
      refine ⟨rfl, ?_⟩
      rcases described with ⟨rfl, -⟩ | ⟨digits, rfl, -⟩
      · exact whole_of_nodes rfl isOperator (List.forall_mem_singleton.mpr operationWhole)
      · refine whole_of_nodes rfl isOperator (List.forall_mem_cons.mpr ⟨whole_leaf rfl, ?_⟩)
        exact List.forall_mem_singleton.mpr operationWhole

theorem good_assignment {node : Node} (given : assignment.Gives calls c node d) :
    node.kind = .assignment ∧ node.IsWhole := by
  cases assignment_form given with
  | @value e f parameter parts _ _ items =>
      exact ⟨rfl, whole_named rfl rfl (List.forall_mem_singleton.mpr (whole_parts knows items))⟩

theorem good_lead_item {node : Node} (given : leadItem.Gives calls c node d) :
    (node.kind = .assignment ∨ node.kind = .redirection) ∧ node.IsWhole := by
  rcases (gives_or_else _ _ _ _ _).mp given with given | ⟨-, given⟩
  · obtain ⟨kind, whole⟩ := knows.holds given
    exact ⟨Or.inr kind, whole⟩
  · obtain ⟨kind, whole⟩ := good_assignment knows given
    exact ⟨Or.inl kind, whole⟩

theorem good_argument_item {node : Node} (given : argumentItem.Gives calls c node d) :
    node.isArgument = true ∧ node.IsWhole ∧ ¬ Stuck c := by
  rcases (gives_or_else _ _ _ _ _).mp given with given | ⟨-, given⟩
  · obtain ⟨kind, whole⟩ := knows.holds given
    exact ⟨by simp [Node.isArgument, kind], whole, not_stuck_of_redirection (knows.reads given)⟩
  · obtain ⟨full, whole⟩ := knows.holds given
    exact ⟨by simp [Node.isArgument, full], whole, not_stuck_of_word (knows.reads given)⟩

theorem whole_leads {items : List Node} (leads : Items calls leadItem c items d) :
    ∀ lead ∈ leadNodes items, lead.kind = .commandLead ∧ lead.IsWhole := by
  have each : ∀ item ∈ items, (item.kind = .assignment ∨ item.kind = .redirection) ∧ item.IsWhole := by
    intro item member
    obtain ⟨e, f, given⟩ := items_given leads item member
    exact good_lead_item knows given
  rw [leadNodes]
  split
  · simp
  · rename_i nonempty
    refine List.forall_mem_singleton.mpr ⟨rfl, whole_of_nodes rfl ?_ fun item member => (each item member).2⟩
    simpa [Node.isRow, nonempty] using fun item member => (each item member).1

omit knows in
theorem reserved_literal {node : Node} (read : word.Reads c node d) (reserved : node.isReserved = true) :
    ∃ chars, node = .ofNodes .word [.leaf .unquotedLiteral chars] ∧
      String.ofList chars ∈ reservedWords := by
  obtain ⟨parts, e, items, -, -, rfl⟩ := word_form read
  rw [Node.isReserved, Node.children_of_nodes] at reserved
  split at reserved
  · rename_i part
    simp only [Bool.and_eq_true, decide_eq_true_eq] at reserved
    obtain ⟨literal, isReserved⟩ := reserved
    obtain ⟨f, g, given⟩ := items_given items part (List.mem_singleton_self _)
    cases word_part_form given with
    | @unquoted _ chars _ _ _ _ =>
        refine ⟨chars, rfl, ?_⟩
        simpa [Node.text, Node.leaf, Forest.ownText] using isReserved
    | singleQuote | bareEscape | doubleQuote => cases literal
    | dollar _ given => cases (literal ▸ dollar_expansion_kind given : Kind.isExpansion _ = true)
    | tick _ given => cases (literal ▸ backquote_kind given : Kind.isExpansion _ = true)
  · cases reserved

theorem good_simple_command {node : Node} (form : SimpleForm calls c node d) :
    node.kind = .simpleCommand ∧ (node.IsWhole ∨ Stuck d) := by
  refine ⟨by cases form <;> rfl, ?_⟩
  cases form with
  | @named e f _ items others first leads unreserved nameGiven arguments =>
      obtain ⟨full, nameWhole⟩ := knows.holds nameGiven
      have leadsWhole := whole_leads knows leads
      have each : ∀ argument ∈ others, argument.isArgument = true ∧ argument.IsWhole := by
        intro argument member
        obtain ⟨g, h, given⟩ := items_given arguments argument member
        exact ⟨(good_argument_item knows given).1, (good_argument_item knows given).2.1⟩
      cases reserved : first.isReserved with
      | true =>
          obtain ⟨chars, literal, isReserved⟩ := reserved_literal (knows.reads nameGiven) reserved
          have stuck := stuck_behind_reserved (knows.reads nameGiven) unreserved literal isReserved
          obtain ⟨-, rfl⟩ := items_end_stuck (fun g argument h given =>
            (good_argument_item knows given).2.2) stuck arguments
          exact Or.inr stuck
      | false =>
          have commandLine : Node.isCommandLine (first :: others) = true := by
            simpa [Node.isCommandLine, full, reserved] using fun node member => (each node member).1
          refine Or.inl (whole_of_nodes rfl ?_ ?_)
          · change Node.isSimpleCommand (leadNodes items ++ first :: others) = true
            rw [leadNodes]
            split
            · have noLead : first.kind ≠ .commandLead := by
                rw [kind_of_full_word full]
                decide
              rwa [List.nil_append, Node.isSimpleCommand, if_neg noLead]
            · change (decide (first :: others = []) || Node.isCommandLine (first :: others)) = true
              rw [commandLine, Bool.or_true]
          · refine List.forall_mem_append.mpr ⟨fun lead member => (leadsWhole lead member).2, ?_⟩
            exact List.forall_mem_cons.mpr ⟨nameWhole, fun argument member => (each argument member).2⟩
  | @bare _ items leads nonempty =>
      have leadsWhole := whole_leads knows leads
      refine Or.inl (whole_of_nodes rfl ?_ fun lead member => (leadsWhole lead member).2)
      simp [leadNodes, nonempty]
      rfl

end ShellLine.Grammar
