import ShellLine.Proofs.Forms.Command
import ShellLine.Proofs.Grammar.Literal
import ShellLine.Proofs.Reading.Program
import ShellLine.Proofs.Reading.Within
import ShellLine.Proofs.Tree.Levels

set_option autoImplicit false

namespace ShellLine

open ShellLine.Parser

-- A node that still opens the same levels when redirections are put behind its contents.
def Node.Settled (node : Node) : Prop :=
  node.kind.deepening = .none ∨ node.kind.deepening = .first ∧
    ∃ kind mark contents others, node.contents = .node kind mark contents others

structure Counted (n : Nat) (node : Node) : Prop where
  levels : node.levels ≤ n
  settled : node.Settled

theorem counted_flat {n : Nat} {kind : Kind} {nodes : List Node} (flat : kind.deepening = .none)
    (each : ∀ node ∈ nodes, node.levels ≤ n) : Counted n (.ofNodes kind nodes) :=
  ⟨levels_flat_le flat each, Or.inl flat⟩

theorem counted_wrap {n : Nat} {kind : Kind} {inner : Node} (opens : kind.deepening = .first)
    (deeper : inner.levels < n) : Counted n (.wrap kind inner) :=
  ⟨levels_wrap_le kind deeper, Or.inr ⟨opens, inner.kind, inner.mark, inner.contents, .nil, rfl⟩⟩

namespace Grammar

variable {calls : Rule → Cursor → Reading Node} {n : Nat}

theorem within_refuse {α : Type} (e : Expected) (R : α → Prop) :
    (refuse e : Parser α).Within calls n R :=
  within_after fun _ => within_fail R

section Leaves

theorem single_quote_within : singleQuote.Within calls n fun node => node.levels ≤ n := by
  refine within_atomic (within_after fun _ => within_after fun _ => within_after fun text => ?_)
  cases text with
  | nil => exact within_after fun _ => within_refuse _ _
  | cons ch others => exact within_after fun _ => within_pure (Nat.zero_le n)

theorem bare_escape_within : bareEscape.Within calls n fun node => node.levels ≤ n := by
  refine within_atomic (within_after fun _ => within_after fun text => ?_)
  cases text with
  | nil => exact within_refuse _ _
  | cons ch others => exact within_after fun _ => within_pure (Nat.zero_le n)

theorem unquoted_within (braced : Bool) :
    (unquotedLiteral braced).Within calls n fun node => node.levels ≤ n := by
  refine within_after fun chars => ?_
  by_cases empty : chars = []
  · rw [if_pos empty]
    exact within_refuse _ _
  · rw [if_neg empty]
    exact within_pure (Nat.zero_le n)

theorem plain_parameter_within : plainParameter.Within calls n fun node => node.levels ≤ n := by
  have named : namedParameter.Within calls n fun node => node.levels ≤ n := by
    refine within_after fun tried => ?_
    cases tried with
    | some chars => exact within_pure (Nat.zero_le n)
    | none => exact within_after fun _ => within_after fun _ => within_refuse _ _
  refine within_atomic (within_after fun _ => within_after fun text => ?_)
  cases text with
  | nil => exact named
  | cons ch others =>
      by_cases special : isSpecialParameter ch = true
      · simp only [if_pos special]
        exact within_after fun _ => within_pure (Nat.zero_le n)
      · simp only [if_neg special]
        by_cases digit : ch.isDigit = true
        · simp only [if_pos digit]
          exact within_after fun _ => within_pure (Nat.zero_le n)
        · simp only [if_neg digit]
          exact named

theorem quoted_levels_le {kind : Kind} {parts : List Child} (flat : kind.deepening = .none)
    (each : ∀ part ∈ parts, part.levels ≤ n) : (quotedNode kind parts).levels ≤ n := by
  change (joinTexts parts).levels kind.deepening ≤ n
  rw [flat]
  exact levels_row_le (forall_mem_join_texts (fun _ => Nat.zero_le n) each)

theorem backquote_within (inDoubleQuote : Bool) :
    (backquote inDoubleQuote).Within calls n fun node => node.levels ≤ n := by
  have each : (backquotedPart inDoubleQuote).Within calls n (TurnHolds fun part => part.levels ≤ n) := by
    intro c turn d given _
    rcases backquoted_part_form given with rfl | ⟨chars, rfl⟩ | ⟨chars, rfl⟩
    · exact trivial
    · exact Nat.zero_le n
    · exact Nat.zero_le n
  refine within_atomic (within_after fun _ => within_bind (within_rounds each) fun parts known => ?_)
  apply within_pure
  cases inDoubleQuote <;> exact quoted_levels_le rfl known

end Leaves

section Parts

variable (counts : ∀ rule n, (call rule).Within calls n (Counted n))

include counts

theorem rule_within (rule : Rule) (n : Nat) : (call rule).Within calls n fun node => node.levels ≤ n :=
  fun c node d given shallow => (counts rule n c node d given shallow).levels

theorem term_within (lines : Bool) :
    (term lines).Within calls n (TurnHolds fun node => node.levels ≤ n) := by
  refine within_bind (within_attempt (rule_within counts .andOr n)) fun tried known => ?_
  cases tried with
  | none => exact within_pure trivial
  | some node =>
      have counted : node.levels ≤ n := known node rfl
      refine within_after fun ended => ?_
      rcases ended with - | - | -
      · exact within_pure counted
      · exact within_pure (levels_flat_le rfl (List.forall_mem_singleton.mpr counted))
      · exact within_pure counted

theorem term_list_within (lines : Bool) :
    (termList lines).Within calls n fun node => node.levels ≤ n := by
  refine within_bind (within_rounds (term_within counts lines)) fun terms known => ?_
  rcases terms with - | ⟨only, - | ⟨second, others⟩⟩
  · exact within_fail _
  · exact within_pure (known only (List.mem_singleton_self only))
  · exact within_pure (levels_flat_le rfl known)

theorem complete_command_within : completeCommand.Within calls n fun node => node.levels ≤ n :=
  within_bind (term_list_within counts false) fun _ known =>
    within_pure (levels_flat_le rfl (List.forall_mem_singleton.mpr known))

-- An expansion opens a level for all that is in it, so that lies within one level less.
theorem arithmetic_within : arithmeticExpansion.Within calls n fun node => node.levels ≤ n := by
  refine within_nested fun m deeper => within_atomic ?_
  refine within_after fun _ => within_after fun _ => ?_
  refine within_bind (within_many (rule_within counts .word m)) fun words known => ?_
  refine within_after fun _ => within_pure ?_
  exact levels_of_nodes_lt _ fun node member => deeper ▸ Nat.lt_succ_of_le (known node member)

theorem complete_commands_within :
    completeCommands.Within calls n fun commands => ∀ node ∈ commands, node.levels ≤ n := by
  refine within_bind (within_attempt (complete_command_within counts)) fun tried known => ?_
  cases tried with
  | none => exact within_pure (by simp)
  | some first =>
      refine within_bind (within_many (within_after fun _ => complete_command_within counts)) ?_
      intro others behind
      exact within_pure (List.forall_mem_cons.mpr ⟨known first rfl, behind⟩)

theorem command_expansion_within : commandExpansion.Within calls n fun node => node.levels ≤ n := by
  refine within_nested fun m deeper => within_atomic ?_
  refine within_after fun _ => within_after fun _ => within_after fun _ => ?_
  refine within_bind (complete_commands_within counts) fun commands known => ?_
  refine within_after fun _ => within_after fun _ => within_pure ?_
  exact levels_of_nodes_lt _ fun node member => deeper ▸ Nat.lt_succ_of_le (known node member)

theorem braced_expansion_within : bracedExpansion.Within calls n fun node => node.levels ≤ n := by
  refine within_or_else ?length (within_or_else ?operation ?bare)
  case length =>
    refine within_atomic (within_after fun _ => within_after fun _ => within_after fun _ => ?_)
    exact within_after fun _ => within_pure (Nat.zero_le n)
  case bare =>
    refine within_atomic (within_after fun _ => within_after fun _ => ?_)
    exact within_after fun _ => within_pure (Nat.zero_le n)
  case operation =>
    refine within_atomic (within_after fun _ => within_after fun _ => within_after fun kind => ?_)
    refine within_bind (Q := fun operand => operand.levels < n) ?_ fun operand known => ?_
    · refine within_nested fun m deeper => ?_
      exact fun c node d given shallow =>
        deeper ▸ Nat.lt_succ_of_le (rule_within counts .operand m c node d given shallow)
    · refine within_after fun _ => within_pure ?_
      exact levels_of_nodes_lt kind.deepening (List.forall_mem_singleton.mpr known)

theorem dollar_within : dollarExpansion.Within calls n fun node => node.levels ≤ n := by
  refine within_after fun text => ?_
  split
  · exact within_or_else (arithmetic_within counts) (command_expansion_within counts)
  · exact command_expansion_within counts
  · exact braced_expansion_within counts
  · exact plain_parameter_within

theorem double_quoted_part_within :
    doubleQuotedPart.Within calls n (TurnHolds fun part => part.levels ≤ n) := by
  refine within_after fun text => ?_
  split
  · exact within_after fun _ => within_after fun _ => within_after fun _ => within_after fun _ =>
      within_refuse _ _
  · exact within_after fun _ => within_pure trivial
  · exact within_bind (dollar_within counts) fun node known => within_pure known
  · split
    · split
      · exact within_after fun _ => within_pure (Nat.zero_le n)
      · split
        · exact within_after fun _ => within_pure (Nat.zero_le n)
        · exact within_after fun _ => within_pure (Nat.zero_le n)
    · exact within_after fun _ => within_pure (Nat.zero_le n)
  · split
    · exact within_bind (backquote_within true) fun node known => within_pure known
    · exact within_after fun _ => within_pure (Nat.zero_le n)

theorem word_part_within (braced : Bool) :
    (wordPart braced).Within calls n fun node => node.levels ≤ n := by
  refine within_after fun text => ?_
  split
  · exact single_quote_within
  · refine within_atomic (within_after fun _ => ?_)
    refine within_bind (within_rounds (double_quoted_part_within counts)) fun parts known => ?_
    exact within_pure (quoted_levels_le rfl known)
  · exact backquote_within false
  · exact dollar_within counts
  · exact bare_escape_within
  · exact unquoted_within braced

theorem word_within : word.Within calls n (Counted n) := by
  refine within_bind (within_many (word_part_within counts false)) fun parts known => ?_
  cases parts with
  | nil => exact within_fail _
  | cons first others => exact within_after fun _ => within_pure (counted_flat rfl known)

theorem operand_within : operand.Within calls n (Counted n) :=
  within_bind (within_many (word_part_within counts true)) fun _ known =>
    within_pure (counted_flat rfl known)

theorem redirection_within : redirection.Within calls n (Counted n) := by
  have described : redirectedDescriptor.Within calls n fun node => node.levels ≤ n := by
    intro c node d given _
    obtain ⟨digits, rfl, -⟩ := redirected_descriptor_form given
    exact Nat.zero_le n
  refine within_bind (within_attempt described) fun descriptor known => ?_
  refine within_after fun mark => ?_
  refine within_bind (Q := fun kind => kind.deepening = .none) ?_ fun kind flat => ?_
  · intro c kind d given _
    obtain ⟨before, text, after, operators, -⟩ := gives_literal_among given
    have flat : ∀ pair ∈ redirectionOperators, pair.2.deepening = .none := by decide
    exact flat (text, kind) (by simp [operators])
  · refine within_after fun _ => within_bind (rule_within counts .word n) fun target counted => ?_
    apply within_pure
    have operation : (Forest.ofNodes [target]).levels kind.deepening ≤ n := by
      rw [flat]
      exact levels_of_nodes_le (List.forall_mem_singleton.mpr counted)
    apply counted_flat rfl
    intro node member
    rcases List.mem_append.mp member with inFront | here
    · exact known node (Option.mem_toList.mp inFront)
    · obtain rfl := List.mem_singleton.mp here
      exact operation

theorem compound_list_within : compoundList.Within calls n fun node => node.levels < n := by
  refine within_nested fun m deeper => within_atomic (within_after fun _ => ?_)
  exact fun c node d given shallow =>
    deeper ▸ Nat.lt_succ_of_le (term_list_within counts true c node d given shallow)

theorem group_within {α β : Type} {opening : Parser α} {closing : Parser β} {kind : Kind}
    (opens : kind.deepening = .first) :
    (atomic do
      let _ ← opening
      let body ← compoundList
      let _ ← closing
      return Node.wrap kind body).Within calls n (Counted n) := by
  refine within_atomic (within_after fun _ => ?_)
  refine within_bind (compound_list_within counts) fun body deeper => ?_
  exact within_after fun _ => within_pure (counted_wrap opens deeper)

theorem do_group_within : doGroup.Within calls n (Counted n) := group_within counts rfl

theorem for_clause_within : forClause.Within calls n (Counted n) := by
  have inside : inClause.Within calls n fun node => node.levels ≤ n := by
    refine within_after fun _ => within_after fun _ => ?_
    refine within_bind (within_many (rule_within counts .word n)) fun words known => ?_
    exact within_after fun _ => within_pure (levels_flat_le rfl known)
  refine within_atomic (within_after fun _ => within_after fun parameter => within_after fun _ => ?_)
  refine within_bind (within_attempt inside) fun words known => ?_
  have body_within : (do
      let body ← doGroup
      return (⟨.forLoop, .text parameter (.ofNodes (words.toList ++ [body])), none⟩ : Node) :
        Parser Node).Within calls n (Counted n) := by
    refine within_bind (do_group_within counts) fun body counted => within_pure ⟨?_, Or.inl rfl⟩
    apply levels_of_nodes_le
    intro node member
    rcases List.mem_append.mp member with inFront | last
    · exact known node (Option.mem_toList.mp inFront)
    · obtain rfl := List.mem_singleton.mp last
      exact counted.levels
  cases words with
  | none => exact within_after fun _ => body_within
  | some inClause => exact body_within

omit counts in
theorem item_end_within {item : Node} (counted : item.levels ≤ n) : (do
    match ← attempt (operator ";;") with
    | some () =>
        lineBreak
        return .more item
    | none => return .last item : Parser (Turn Node)).Within calls n (TurnHolds fun node => node.levels ≤ n) := by
  refine within_after fun ended => ?_
  cases ended with
  | some _ => exact within_after fun _ => within_pure counted
  | none => exact within_pure counted

theorem case_item_within : caseItem.Within calls n (TurnHolds fun node => node.levels ≤ n) := by
  refine within_atomic (within_after fun _ => ?_)
  refine within_bind (rule_within counts .word n) fun first counted => ?_
  refine within_bind (within_many (within_after fun _ => rule_within counts .word n)) ?_
  refine fun others known => within_after fun _ => ?_
  refine within_bind (within_attempt (compound_list_within counts)) fun body deeper => ?_
  have counted : (Forest.list (.ofNodes (first :: others)) (.ofNodes body.toList)).levels .each ≤ n := by
    apply Nat.max_le.mpr
    refine ⟨levels_of_nodes_le (List.forall_mem_cons.mpr ⟨counted, known⟩), ?_⟩
    exact levels_of_nodes_lt _ fun node member => deeper node (Option.mem_toList.mp member)
  cases body with
  | none => exact within_after fun _ => item_end_within counted
  | some inner => exact item_end_within counted

theorem case_clause_within : caseClause.Within calls n (Counted n) := by
  refine within_atomic (within_after fun _ => ?_)
  refine within_bind (rule_within counts .word n) fun subject counted => ?_
  refine within_after fun _ => within_after fun _ => within_after fun _ => ?_
  have items : caseItems.Within calls n fun items => ∀ item ∈ items, item.levels ≤ n := by
    refine within_rounds (within_bind (within_attempt (case_item_within counts)) ?_)
    intro tried known
    cases tried with
    | none => exact within_pure trivial
    | some item => exact within_pure (known item rfl)
  refine within_bind items fun items known => within_after fun _ => within_pure ?_
  exact counted_flat rfl (List.forall_mem_cons.mpr ⟨counted, known⟩)

theorem else_part_within : elsePart.Within calls n fun node => node.levels ≤ n := by
  refine within_atomic (within_after fun elif => ?_)
  cases elif with
  | some _ =>
      exact within_bind (rule_within counts .conditional n) fun inner counted =>
        within_pure (levels_flat_le rfl (List.forall_mem_singleton.mpr counted))
  | none =>
      refine within_after fun _ => within_bind (compound_list_within counts) fun inner deeper => ?_
      exact within_pure (levels_wrap_le .otherwise deeper)

theorem conditional_within : conditional.Within calls n (Counted n) := by
  refine within_bind (compound_list_within counts) fun condition tested => within_after fun _ => ?_
  refine within_bind (compound_list_within counts) fun consequent listed => ?_
  refine within_bind (within_attempt (else_part_within counts)) fun alternative known => ?_
  apply within_pure
  apply counted_flat rfl
  intro node member
  rcases List.mem_append.mp member with inFront | last
  · rcases List.mem_pair.mp inFront with rfl | rfl
    · exact levels_wrap_le .condition tested
    · exact levels_wrap_le .consequent listed
  · exact known node (Option.mem_toList.mp last)

theorem loop_clause_within (word : String) {kind : Kind} (flat : kind.deepening = .none) :
    (loopClause word kind).Within calls n (Counted n) := by
  refine within_atomic (within_after fun _ => ?_)
  refine within_bind (compound_list_within counts) fun condition tested => ?_
  refine within_bind (do_group_within counts) fun body counted => within_pure (counted_flat flat ?_)
  exact List.forall_mem_cons.mpr ⟨levels_wrap_le .condition tested,
    List.forall_mem_singleton.mpr counted.levels⟩

theorem compound_command_within : compoundCommand.Within calls n (Counted n) := by
  refine within_after fun text => ?_
  split
  · exact group_within counts rfl
  · exact group_within counts rfl
  · exact for_clause_within counts
  · exact case_clause_within counts
  · refine within_atomic (within_after fun _ => within_bind (counts .conditional n) fun choice counted => ?_)
    exact within_after fun _ => within_pure counted
  · exact loop_clause_within counts "while" rfl
  · exact loop_clause_within counts "until" rfl
  · exact within_fail _

theorem with_redirections_within {compound : Node} (counted : Counted n compound) :
    (withRedirections compound).Within calls n (Counted n) := by
  refine within_bind (within_many (rule_within counts .redirection n)) fun redirections known => ?_
  apply within_pure
  refine ⟨levels_append_le counted.levels (levels_of_nodes_le known) counted.settled, ?_⟩
  rcases counted.settled with flat | ⟨opens, kind, mark, contents, others, row⟩
  · exact Or.inl flat
  · refine Or.inr ⟨opens, kind, mark, contents, others.append (.ofNodes redirections), ?_⟩
    dsimp only
    rw [row]
    rfl

theorem function_definition_within : functionDefinition.Within calls n (Counted n) := by
  refine within_after fun text => ?_
  split
  · exact within_fail _
  · refine within_atomic (within_after fun chars => within_after fun _ => within_after fun _ => ?_)
    refine within_after fun _ => within_after fun _ => ?_
    refine within_bind (compound_command_within counts) fun compound counted => ?_
    refine within_bind (with_redirections_within counts counted) fun body counted => ?_
    apply within_pure
    exact counted_flat rfl (List.forall_mem_cons.mpr ⟨Nat.zero_le n,
      List.forall_mem_singleton.mpr counted.levels⟩)

theorem simple_command_within : simpleCommand.Within calls n (Counted n) := by
  have assigned : assignment.Within calls n fun node => node.levels ≤ n := by
    refine within_atomic (within_after fun parameter => within_after fun _ => ?_)
    refine within_bind (within_many (word_part_within counts false)) fun value known => ?_
    refine within_after fun _ => within_pure ?_
    exact levels_of_nodes_le (List.forall_mem_singleton.mpr (levels_flat_le rfl known))
  have named : commandWord.Within calls n fun node => node.levels ≤ n := by
    refine within_after fun text => ?_
    split
    · exact within_refuse _ _
    · exact rule_within counts .word n
  refine within_bind (within_many (within_or_else (rule_within counts .redirection n) assigned)) ?_
  intro items leads
  have lead : ∀ node ∈ leadNodes items, node.levels ≤ n := by
    intro node member
    by_cases empty : items = []
    · simp [leadNodes, empty] at member
    · rw [leadNodes, if_neg empty, List.mem_singleton] at member
      exact member ▸ levels_flat_le rfl leads
  refine within_bind (within_attempt named) fun tried known => ?_
  cases tried with
  | some first =>
      refine within_bind (within_many (within_or_else (rule_within counts .redirection n)
        (rule_within counts .word n))) fun others behind => within_pure (counted_flat rfl ?_)
      exact List.forall_mem_append.mpr ⟨lead, List.forall_mem_cons.mpr ⟨known first rfl, behind⟩⟩
  | none =>
      by_cases empty : items = []
      · simp only [if_pos empty]
        exact within_fail _
      · simp only [if_neg empty]
        have counted : ∀ node ∈ [Node.ofNodes .commandLead items], node.levels ≤ n :=
          List.forall_mem_singleton.mpr (levels_flat_le rfl leads)
        exact within_pure (counted_flat rfl counted)

theorem command_within : command.Within calls n (Counted n) := by
  refine within_or_else (function_definition_within counts) (within_or_else ?_ ?_)
  · exact within_bind (compound_command_within counts) fun compound counted =>
      with_redirections_within counts counted
  · exact simple_command_within counts

theorem pipeline_within : pipeline.Within calls n (Counted n) := by
  have stages : pipeSequence.Within calls n (Counted n) := by
    refine within_bind (counts .command n) fun first counted => ?_
    refine within_bind (within_many (within_after fun _ => within_after fun _ =>
      rule_within counts .command n)) fun others known => ?_
    cases others with
    | nil => exact within_pure counted
    | cons second more =>
        exact within_pure (counted_flat rfl (List.forall_mem_cons.mpr ⟨counted.levels, known⟩))
  refine within_atomic (within_after fun bang => within_bind stages fun stages counted => ?_)
  apply within_pure
  cases bang with
  | none => exact counted
  | some _ => exact counted_flat rfl (List.forall_mem_singleton.mpr counted.levels)

theorem and_or_within : andOr.Within calls n (Counted n) := by
  have link : andOrLink.Within calls n fun link => link.1.deepening = .none ∧ link.2.levels ≤ n := by
    refine within_bind (Q := fun kind => kind.deepening = .none) ?_ fun kind flat => ?_
    · refine within_or_else (within_after fun _ => within_pure rfl) ?_
      exact within_after fun _ => within_pure rfl
    · refine within_after fun _ => within_bind (pipeline_within counts) fun right counted => ?_
      exact within_pure ⟨flat, counted.levels⟩
  refine within_bind (pipeline_within counts) fun first counted => ?_
  refine within_bind (within_many link) fun links known => within_pure ?_
  induction links generalizing first with
  | nil => exact counted
  | cons link others ih =>
      obtain ⟨⟨flat, right⟩, behind⟩ := List.forall_mem_cons.mp known
      apply ih _ _ behind
      exact counted_flat flat (List.forall_mem_cons.mpr ⟨counted.levels,
        List.forall_mem_singleton.mpr right⟩)

theorem grammar_within (rule : Rule) (n : Nat) : (grammar rule).Within calls n (Counted n) := by
  cases rule with
  | word => exact word_within counts
  | redirection => exact redirection_within counts
  | operand => exact operand_within counts
  | command => exact command_within counts
  | andOr => exact and_or_within counts
  | conditional => exact conditional_within counts

theorem program_within : program.Within calls n fun tree => tree.levels ≤ n := by
  refine within_after fun _ => within_after fun _ => ?_
  refine within_bind (complete_commands_within counts) fun commands known => ?_
  exact within_after fun _ => within_pure (levels_flat_le rfl known)

end Parts

end Grammar

theorem reading_within (rule : Rule) (n : Nat) (c : Cursor) (node : Node) (d : Cursor)
    (given : (call rule).Gives (reading grammar) c node d)
    (shallow : ((call rule).read (reading grammar) c).depth ≤ n) : Counted n node := by
  change (reading grammar rule c).outcome = some (node, d) at given
  change (reading grammar rule c).depth ≤ n at shallow
  rw [reading_below] at given shallow
  refine Grammar.grammar_within ?_ rule n c node d given shallow
  intro inner m e found f answered deeper
  change (callsBelow (rule.height c) (reading grammar) inner e).outcome = some (found, f) at answered
  change (callsBelow (rule.height c) (reading grammar) inner e).depth ≤ m at deeper
  rw [callsBelow] at answered deeper
  by_cases lower : inner.height e < rule.height c
  · rw [if_pos lower] at answered deeper
    exact reading_within inner m e found f answered deeper
  · rw [if_neg lower] at answered
    cases answered
termination_by rule.height c

/-- A tree is nested no deeper than the limit it was parsed under, unless the limit is exceeded when
no results are kept. -/
theorem parsed_tree_within_limit (config : Config) (input : String) (tree : Node)
    (limited : 0 < config.maxDepth) (parsed : parse config input = .ok tree) :
    tree.levels ≤ config.maxDepth ∨
      parseWith false config input = .error (.nestingTooDeep config.maxDepth) := by
  obtain ⟨d, read, -⟩ := parse_ok config input tree parsed
  refine (parse_ok_shallow config input tree limited parsed).imp_left fun shallow => ?_
  exact Grammar.program_within (fun rule n c => reading_within rule n c) _ tree d read shallow

theorem grouped_tree_within_limit :
    0 < 3 ∧ ∃ tree, parse { maxDepth := 3 } "\x7b while (a); do b; done; \x7d >c" = .ok tree ∧
      (tree.levels ≤ 3 ∨ parseWith false { maxDepth := 3 } "\x7b while (a); do b; done; \x7d >c" =
        .error (.nestingTooDeep 3)) := by
  obtain ⟨tree, parsed, -⟩ := parse_ok_of_view { maxDepth := 3 }
    "\x7b while (a); do b; done; \x7d >c" (fun _ => ()) () (by decide +kernel)
  exact ⟨by decide, tree, parsed, parsed_tree_within_limit { maxDepth := 3 } _ tree (by decide) parsed⟩

theorem kept_word_exceeds_limit :
    ∃ tree, parse { maxDepth := 2 } "$((a$(b)) )" = .ok tree ∧ tree.levels = 3 :=
  parse_ok_of_view { maxDepth := 2 } "$((a$(b)) )" Node.levels 3 (by decide +kernel)

end ShellLine
