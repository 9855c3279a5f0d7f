import ShellLine.Proofs.Grammar.Advance
import ShellLine.Proofs.Grammar.Literal
import ShellLine.Proofs.Nesting.Stacked
import ShellLine.Proofs.Reading.Ensures

set_option autoImplicit false

namespace ShellLine

-- A place of a text, as the number of bytes from there to its end, at which a here-document is opened.
def OpensHereDocument (text : List Char) (place : Nat) : Prop :=
  ∃ c : Cursor, c.rest <:+ text ∧ c.left = place ∧ ['<', '<'] <+: c.rest

def Stacks (text : List Char) (room : Room) (rule : Rule) (node : Node) : Prop :=
  match rule with
  | .word | .operand => Stacked (OpensHereDocument text) room 4 node
  | .redirection => Stacked (OpensHereDocument text) room 6 node
  | .command => Stacked (OpensHereDocument text) room 8 node
  | .andOr => Stacked (OpensHereDocument text) room 10 node
  | .conditional => ∃ parts, node = .ofNodes .ifChoice parts ∧
      ∀ part ∈ parts, Stacked (OpensHereDocument text) room 1 part

def Child.IsStacked (places : Nat → Prop) (room : Room) (count : Nat) : Child → Prop
  | .node inner => Stacked places room count inner
  | .text _ => True
  | .list _ => False

namespace Grammar

open ShellLine.Parser

section Quotes

variable {places : Nat → Prop} {room : Room} {count : Nat}

theorem stacked_of_contents {forest : Forest}
    (each : ∀ child ∈ forest.toList, child.IsStacked places room count) :
    ∀ node ∈ forest.nodes, Stacked places room count node := by
  induction forest with
  | nil => simp [Forest.nodes]
  | node kind mark contents others _ ih =>
      obtain ⟨here, later⟩ := List.forall_mem_cons.mp each
      exact List.forall_mem_cons.mpr ⟨here, ih later⟩
  | text chars others ih => exact ih (List.forall_mem_cons.mp each).2
  | list items others => exact ((List.forall_mem_cons.mp each).1).elim

theorem stacked_quoted {kind : Kind} {parts : List Child} (plain : kind.isHereDocument = false)
    (each : ∀ part ∈ parts, part.IsStacked places room count) :
    Stacked places room (count + 1) (quotedNode kind parts) :=
  .node (marked_of_plain plain rfl)
    (stacked_of_contents (forall_mem_join_texts (fun _ => trivial) each))

end Quotes

section Walk

variable {answers : Answers} {text : List Char} {room : Room} (forward : answers.Forward)

section Leaves

include forward

theorem single_quote_stacks {count : Nat} : singleQuote.Ensures answers text room
    (Stacked (OpensHereDocument text) room (count + 1)) := by
  refine ensures_atomic (ensures_after forward fun _ => ensures_after forward fun _ =>
    ensures_after forward fun rest => ?_)
  cases rest with
  | nil => exact ensures_after forward fun _ => ensures_refuse _ _
  | cons ch others => exact ensures_after forward fun _ => ensures_pure (stacked_leaf rfl)

theorem bare_escape_stacks {count : Nat} : bareEscape.Ensures answers text room
    (Stacked (OpensHereDocument text) room (count + 1)) := by
  refine ensures_atomic (ensures_after forward fun _ => ensures_after forward fun rest => ?_)
  cases rest with
  | nil => exact ensures_refuse _ _
  | cons ch others => exact ensures_after forward fun _ => ensures_pure (stacked_leaf rfl)

theorem unquoted_literal_stacks {count : Nat} (braced : Bool) :
    (unquotedLiteral braced).Ensures answers text room
      (Stacked (OpensHereDocument text) room (count + 1)) := by
  refine ensures_after forward fun chars => ?_
  split
  · exact ensures_refuse _ _
  · exact ensures_pure (stacked_leaf rfl)

theorem plain_parameter_stacks : plainParameter.Ensures answers text room
    (Stacked (OpensHereDocument text) room 1) := by
  have named : namedParameter.Ensures answers text room (Stacked (OpensHereDocument text) room 1) := by
    refine ensures_after forward fun tried => ?_
    cases tried with
    | some chars => exact ensures_pure (stacked_leaf rfl)
    | none => exact ensures_after forward fun _ => ensures_after forward fun _ => ensures_refuse _ _
  refine ensures_atomic (ensures_after forward fun _ => ensures_after forward fun rest => ?_)
  cases rest with
  | nil => exact named
  | cons ch others =>
      dsimp only
      split
      · exact ensures_after forward fun _ => ensures_pure (stacked_leaf rfl)
      · split
        · exact ensures_after forward fun _ => ensures_pure (stacked_leaf rfl)
        · exact named

theorem backquote_stacks (inDoubleQuote : Bool) : (backquote inDoubleQuote).Ensures answers text room
    (Stacked (OpensHereDocument text) room 2) := by
  have each : (backquotedPart inDoubleQuote).Ensures answers text room
      (TurnHolds (Child.IsStacked (OpensHereDocument text) room 1)) := by
    refine ensures_after forward fun rest => ?_
    split
    · exact ensures_after forward fun _ => ensures_after forward fun _ => ensures_refuse _ _
    · split
      · split
        · exact ensures_after forward fun _ => ensures_pure (stacked_leaf rfl)
        · exact ensures_after forward fun _ => ensures_pure trivial
      · exact ensures_after forward fun _ => ensures_pure trivial
    · split
      · exact ensures_after forward fun _ => ensures_pure trivial
      · exact ensures_after forward fun _ => ensures_pure trivial
  refine ensures_atomic (ensures_after forward fun _ =>
    ensures_bind forward (ensures_rounds forward each) fun parts known => ensures_pure ?_)
  cases inDoubleQuote <;> exact stacked_quoted rfl known

end Leaves

variable (answered : ∀ (room : Room) (rule : Rule),
  (call rule).Ensures answers text room (Stacks text room rule))

include forward answered

section Words

theorem arithmetic_expansion_stacks : arithmeticExpansion.Ensures answers text room
    (Stacked (OpensHereDocument text) room 1) := by
  refine ensures_nested fun less opens => ensures_atomic ?_
  refine ensures_after forward fun _ => ensures_after forward fun _ => ?_
  refine ensures_bind forward (ensures_many forward (answered less .word)) fun words known => ?_
  exact ensures_after forward fun _ => ensures_pure (stacked_of_nodes rfl fun word member =>
    .deeper opens (.higher (by decide) (known word member)))

theorem term_stacks (lines : Bool) : (term lines).Ensures answers text room
    (TurnHolds (Stacked (OpensHereDocument text) room 11)) := by
  refine ensures_bind forward (ensures_attempt (answered room .andOr)) fun tried known => ?_
  cases tried with
  | none => exact ensures_pure trivial
  | some node =>
      have chain : Stacked (OpensHereDocument text) room 10 node := known node rfl
      refine ensures_after forward fun ended => ?_
      rcases ended with - | - | -
      · exact ensures_pure (.higher (by decide) chain)
      · exact ensures_pure (stacked_of_nodes rfl (List.forall_mem_singleton.mpr chain))
      · exact ensures_pure (.higher (by decide) chain)

theorem term_list_stacks (lines : Bool) : (termList lines).Ensures answers text room
    (Stacked (OpensHereDocument text) room 12) := by
  refine ensures_bind forward (ensures_rounds forward (term_stacks forward answered lines)) ?_
  intro terms known
  rcases terms with - | ⟨only, - | ⟨second, others⟩⟩
  · exact ensures_fail _
  · exact ensures_pure (.higher (by decide) (known only (List.mem_singleton_self only)))
  · exact ensures_pure (stacked_of_nodes rfl known)

theorem complete_command_stacks : completeCommand.Ensures answers text room
    (Stacked (OpensHereDocument text) room 13) :=
  ensures_bind forward (term_list_stacks forward answered false) fun _ known =>
    ensures_pure (stacked_of_nodes rfl (List.forall_mem_singleton.mpr known))

theorem complete_commands_stacks : completeCommands.Ensures answers text room
    fun commands => ∀ node ∈ commands, Stacked (OpensHereDocument text) room 13 node := by
  have commands : completeCommand.Ensures answers text room _ := complete_command_stacks forward answered
  refine ensures_bind forward (ensures_attempt commands) fun tried known => ?_
  cases tried with
  | none => exact ensures_pure (by simp)
  | some first =>
      refine ensures_bind forward (ensures_many forward (ensures_after forward fun _ => commands)) ?_
      exact fun others behind => ensures_pure (List.forall_mem_cons.mpr ⟨known first rfl, behind⟩)

theorem command_expansion_stacks : commandExpansion.Ensures answers text room
    (Stacked (OpensHereDocument text) room 1) := by
  refine ensures_nested fun less opens => ensures_atomic ?_
  refine ensures_after forward fun _ => ensures_after forward fun _ => ensures_after forward fun _ => ?_
  refine ensures_bind forward (complete_commands_stacks forward answered) fun commands known => ?_
  exact ensures_after forward fun _ => ensures_after forward fun _ =>
    ensures_pure (stacked_of_nodes rfl fun command member => .deeper opens (known command member))

theorem braced_expansion_stacks : bracedExpansion.Ensures answers text room
    (Stacked (OpensHereDocument text) room 1) := by
  refine ensures_or_else ?length (ensures_or_else ?operation ?bare)
  case length =>
    exact ensures_atomic (ensures_after forward fun _ => ensures_after forward fun _ =>
      ensures_after forward fun _ => ensures_after forward fun _ => ensures_pure (stacked_leaf rfl))
  case bare =>
    exact ensures_atomic (ensures_after forward fun _ => ensures_after forward fun _ =>
      ensures_after forward fun _ => ensures_pure (stacked_leaf rfl))
  case operation =>
    refine ensures_atomic (ensures_after forward fun _ => ensures_after forward fun parameter => ?_)
    refine ensures_bind forward (Q := fun kind => kind.isHereDocument = false) ?_ fun kind plain => ?_
    · intro c kind d _ given
      obtain ⟨operator, member, -⟩ := may_give_literal_among given
      have plain : ∀ pair ∈ parameterOperators, pair.2.isHereDocument = false := by decide
      exact plain _ member
    · refine ensures_bind forward (Q := Stacked (OpensHereDocument text) room 0) ?_ fun operand known => ?_
      · exact ensures_nested fun less opens c node d within given =>
          .deeper opens (.higher (by decide) (answered less .operand c node d within given))
      · exact ensures_after forward fun _ => ensures_pure
          (.node (marked_of_plain plain rfl) (List.forall_mem_singleton.mpr known))

theorem dollar_expansion_stacks : dollarExpansion.Ensures answers text room
    (Stacked (OpensHereDocument text) room 1) := by
  refine ensures_after forward fun rest => ?_
  split
  · exact ensures_or_else (arithmetic_expansion_stacks forward answered)
      (command_expansion_stacks forward answered)
  · exact command_expansion_stacks forward answered
  · exact braced_expansion_stacks forward answered
  · exact plain_parameter_stacks forward

theorem double_quote_stacks : doubleQuote.Ensures answers text room
    (Stacked (OpensHereDocument text) room 3) := by
  have each : doubleQuotedPart.Ensures answers text room
      (TurnHolds (Child.IsStacked (OpensHereDocument text) room 2)) := by
    refine ensures_after forward fun rest => ?_
    split
    · exact ensures_after forward fun _ => ensures_after forward fun _ => ensures_after forward fun _ =>
        ensures_after forward fun _ => ensures_refuse _ _
    · exact ensures_after forward fun _ => ensures_pure trivial
    · exact ensures_bind forward (dollar_expansion_stacks forward answered) fun node known =>
        ensures_pure (.higher (by decide) known)
    · split
      · split
        · exact ensures_after forward fun _ => ensures_pure (stacked_leaf rfl)
        · split
          · exact ensures_after forward fun _ => ensures_pure (stacked_leaf rfl)
          · exact ensures_after forward fun _ => ensures_pure trivial
      · exact ensures_after forward fun _ => ensures_pure trivial
    · split
      · exact ensures_bind forward (backquote_stacks forward true) fun node known => ensures_pure known
      · exact ensures_after forward fun _ => ensures_pure trivial
  exact ensures_atomic (ensures_after forward fun _ => ensures_bind forward (ensures_rounds forward each)
    fun parts known => ensures_pure (stacked_quoted rfl known))

theorem word_part_stacks (braced : Bool) : (wordPart braced).Ensures answers text room
    (Stacked (OpensHereDocument text) room 3) := by
  refine ensures_after forward fun rest => ?_
  split
  · exact single_quote_stacks forward
  · exact double_quote_stacks forward answered
  · exact fun c node d within given => .higher (by decide) (backquote_stacks forward false c node d within given)
  · exact fun c node d within given =>
      .higher (by decide) (dollar_expansion_stacks forward answered c node d within given)
  · exact bare_escape_stacks forward
  · exact unquoted_literal_stacks forward braced

theorem word_stacks : word.Ensures answers text room (Stacked (OpensHereDocument text) room 4) := by
  refine ensures_bind forward (ensures_many forward (word_part_stacks forward answered false)) ?_
  intro parts known
  cases parts with
  | nil => exact ensures_fail _
  | cons first others => exact ensures_after forward fun _ => ensures_pure (stacked_of_nodes rfl known)

theorem operand_stacks : operand.Ensures answers text room (Stacked (OpensHereDocument text) room 4) :=
  ensures_bind forward (ensures_many forward (word_part_stacks forward answered true)) fun _ known =>
    ensures_pure (stacked_of_nodes rfl known)

theorem redirection_stacks : redirection.Ensures answers text room
    (Stacked (OpensHereDocument text) room 6) := by
  have described : redirectedDescriptor.Ensures answers text room
      (Stacked (OpensHereDocument text) room 5) := by
    refine ensures_atomic (ensures_after forward fun digits => ?_)
    split
    · exact ensures_refuse _ _
    · refine ensures_after forward fun rest => ?_
      split
      · exact ensures_pure (stacked_leaf rfl)
      · exact ensures_pure (stacked_leaf rfl)
      · exact ensures_fail _
  refine ensures_bind forward (ensures_attempt described) fun descriptor known => ?_
  rintro c node f within ⟨mark, e, ⟨rfl, rfl⟩, kind, g, operator, later⟩
  obtain ⟨chars, listed, found, -⟩ := may_give_literal_among operator
  have passed := (may_give_forward forward _ operator).trans within
  have marked : ∀ target : Node, (⟨kind, .ofNodes [target],
      if kind.isHereDocument then some c.left else none⟩ : Node).Marked (OpensHereDocument text) := by
    intro target
    have opening : ∀ pair ∈ redirectionOperators, pair.2.isHereDocument = true →
        ['<', '<'] <+: pair.1.toList := by decide
    cases opens : kind.isHereDocument with
    | false => exact marked_of_plain opens rfl
    | true =>
        simp only [Node.Marked, opens, if_true]
        exact ⟨c.left, rfl, c, within, rfl, (opening _ listed opens).trans found⟩
  refine ensures_after forward (R := Stacked (OpensHereDocument text) room 6) (fun _ => ?_) g node f passed later
  refine ensures_bind forward (answered room .word) fun target word => ensures_pure ?_
  refine stacked_of_nodes rfl (List.forall_mem_append.mpr ⟨fun node member => ?_, ?_⟩)
  · exact known node (Option.mem_toList.mp member)
  · exact List.forall_mem_singleton.mpr
      (.node (marked target) (List.forall_mem_singleton.mpr word))

end Words

section Compound

theorem compound_list_stacks : compoundList.Ensures answers text room
    (Stacked (OpensHereDocument text) room 0) :=
  ensures_nested fun less opens => ensures_atomic (ensures_after forward fun _ c node d within given =>
    .deeper opens (.higher (by decide) (term_list_stacks forward answered true c node d within given)))

theorem group_stacks {α β : Type} {opening : Parser α} {closing : Parser β} {kind : Kind}
    (plain : kind.isHereDocument = false) :
    (atomic do
      let _ ← opening
      let body ← compoundList
      let _ ← closing
      return Node.wrap kind body).Ensures answers text room
        (StackedCompound (OpensHereDocument text) room) :=
  ensures_atomic (ensures_after forward fun _ =>
    ensures_bind forward (compound_list_stacks forward answered) fun _ inside =>
      ensures_after forward fun _ => ensures_pure (stacked_compound plain rfl
        (List.forall_mem_singleton.mpr (.higher (Nat.zero_le 6) inside))))

theorem do_group_stacks : doGroup.Ensures answers text room (Stacked (OpensHereDocument text) room 1) :=
  ensures_atomic (ensures_after forward fun _ =>
    ensures_bind forward (compound_list_stacks forward answered) fun _ inside =>
      ensures_after forward fun _ => ensures_pure (stacked_wrap rfl inside))

theorem for_clause_stacks : forClause.Ensures answers text room
    (StackedCompound (OpensHereDocument text) room) := by
  have inside : inClause.Ensures answers text room (Stacked (OpensHereDocument text) room 6) := by
    refine ensures_after forward fun _ => ensures_after forward fun _ => ?_
    refine ensures_bind forward (ensures_many forward (answered room .word)) fun words known => ?_
    exact ensures_after forward fun _ =>
      ensures_pure (.higher (by decide) (stacked_of_nodes rfl known))
  refine ensures_atomic (ensures_after forward fun _ => ensures_after forward fun parameter =>
    ensures_after forward fun _ => ?_)
  refine ensures_bind forward (ensures_attempt inside) fun words known => ?_
  have loop : (do
      let body ← doGroup
      return (⟨.forLoop, .text parameter (.ofNodes (words.toList ++ [body])), none⟩ : Node) :
        Parser Node).Ensures answers text room (StackedCompound (OpensHereDocument text) room) := by
    refine ensures_bind forward (do_group_stacks forward answered) fun body done => ensures_pure ?_
    refine stacked_compound rfl rfl ?_
    rw [Node.children, Forest.nodes, Forest.nodes_of_nodes]
    refine List.forall_mem_append.mpr ⟨fun node member => known node (Option.mem_toList.mp member), ?_⟩
    exact List.forall_mem_singleton.mpr (.higher (by decide) done)
  cases words with
  | none => exact ensures_after forward fun _ => loop
  | some words => exact loop

omit answered in
theorem item_end_stacks {item : Node} (stacked : Stacked (OpensHereDocument text) room 5 item) : (do
    match ← attempt (operator ";;") with
    | some () =>
        lineBreak
        return .more item
    | none => return .last item : Parser (Turn Node)).Ensures answers text room
      (TurnHolds (Stacked (OpensHereDocument text) room 5)) := by
  refine ensures_after forward fun ended => ?_
  cases ended with
  | some _ => exact ensures_after forward fun _ => ensures_pure stacked
  | none => exact ensures_pure stacked

theorem case_item_stacks : caseItem.Ensures answers text room
    (TurnHolds (Stacked (OpensHereDocument text) room 5)) := by
  refine ensures_atomic (ensures_after forward fun _ => ?_)
  refine ensures_bind forward (answered room .word) fun first word => ?_
  refine ensures_bind forward (ensures_many forward (ensures_after forward fun _ => answered room .word)) ?_
  refine fun others known => ensures_after forward fun _ => ?_
  refine ensures_bind forward (ensures_attempt (compound_list_stacks forward answered)) fun body inside => ?_
  have stacked : Stacked (OpensHereDocument text) room 5
      ⟨.caseItem, .list (.ofNodes (first :: others)) (.ofNodes body.toList), none⟩ := by
    refine .node (marked_of_plain rfl rfl) ?_
    rw [Node.children, Forest.nodes, Forest.nodes_of_nodes, Forest.nodes_of_nodes]
    exact List.forall_mem_append.mpr ⟨List.forall_mem_cons.mpr ⟨word, known⟩,
      fun node member => .higher (Nat.zero_le 4) (inside node (Option.mem_toList.mp member))⟩
  cases body with
  | none => exact ensures_after forward fun _ => item_end_stacks forward stacked
  | some inner => exact item_end_stacks forward stacked

theorem case_clause_stacks : caseClause.Ensures answers text room
    (StackedCompound (OpensHereDocument text) room) := by
  refine ensures_atomic (ensures_after forward fun _ => ?_)
  refine ensures_bind forward (answered room .word) fun subject word => ?_
  refine ensures_after forward fun _ => ensures_after forward fun _ => ensures_after forward fun _ => ?_
  have items : caseItems.Ensures answers text room
      fun items => ∀ item ∈ items, Stacked (OpensHereDocument text) room 5 item := by
    refine ensures_rounds forward (ensures_bind forward
      (ensures_attempt (case_item_stacks forward answered)) fun tried known => ?_)
    cases tried with
    | none => exact ensures_pure trivial
    | some item => exact ensures_pure (known item rfl)
  refine ensures_bind forward items fun items known => ensures_after forward fun _ => ensures_pure ?_
  refine stacked_compound rfl rfl ?_
  rw [Node.children_of_nodes]
  exact List.forall_mem_cons.mpr ⟨.higher (by decide) word,
    fun item member => .higher (by decide) (known item member)⟩

theorem else_part_stacks : elsePart.Ensures answers text room
    (Stacked (OpensHereDocument text) room 1) := by
  refine ensures_atomic (ensures_after forward fun elif => ?_)
  cases elif with
  | some _ =>
      refine ensures_bind forward (answered room .conditional) fun inner known => ?_
      obtain ⟨parts, rfl, each⟩ := known
      exact ensures_pure (.choice each)
  | none =>
      refine ensures_after forward fun _ =>
        ensures_bind forward (compound_list_stacks forward answered) fun inner inside => ?_
      exact ensures_pure (stacked_of_nodes rfl (List.forall_mem_singleton.mpr inside))

theorem conditional_stacks : conditional.Ensures answers text room (Stacks text room .conditional) := by
  refine ensures_bind forward (compound_list_stacks forward answered) fun condition tested =>
    ensures_after forward fun _ => ?_
  refine ensures_bind forward (compound_list_stacks forward answered) fun consequent listed => ?_
  refine ensures_bind forward (ensures_attempt (else_part_stacks forward answered)) fun alternative known => ?_
  refine ensures_pure ⟨_, rfl, ?_⟩
  refine List.forall_mem_append.mpr ⟨List.forall_mem_cons.mpr ⟨stacked_wrap rfl tested,
    List.forall_mem_singleton.mpr (stacked_wrap rfl listed)⟩, fun node member => ?_⟩
  exact known node (Option.mem_toList.mp member)

theorem loop_clause_stacks (word : String) {kind : Kind} (plain : kind.isHereDocument = false) :
    (loopClause word kind).Ensures answers text room
      (StackedCompound (OpensHereDocument text) room) := by
  refine ensures_atomic (ensures_after forward fun _ => ?_)
  refine ensures_bind forward (compound_list_stacks forward answered) fun condition tested => ?_
  refine ensures_bind forward (do_group_stacks forward answered) fun body done => ensures_pure ?_
  refine stacked_compound plain rfl ?_
  rw [Node.children_of_nodes]
  exact List.forall_mem_cons.mpr ⟨.higher (by decide) (stacked_wrap rfl tested),
    List.forall_mem_singleton.mpr (.higher (by decide) done)⟩

theorem compound_command_stacks : compoundCommand.Ensures answers text room
    (StackedCompound (OpensHereDocument text) room) := by
  refine ensures_after forward fun rest => ?_
  split
  · exact group_stacks forward answered rfl
  · exact group_stacks forward answered rfl
  · exact for_clause_stacks forward answered
  · exact case_clause_stacks forward answered
  · refine ensures_atomic (ensures_after forward fun _ =>
      ensures_bind forward (answered room .conditional) fun choice known => ensures_after forward fun _ => ?_)
    obtain ⟨parts, rfl, each⟩ := known
    refine ensures_pure (stacked_compound rfl rfl ?_)
    rw [Node.children_of_nodes]
    exact fun part member => .higher (by decide) (each part member)
  · exact loop_clause_stacks forward answered "while" rfl
  · exact loop_clause_stacks forward answered "until" rfl
  · exact ensures_fail _

end Compound

section Commands

theorem with_redirections_stacks {compound : Node}
    (stacked : StackedCompound (OpensHereDocument text) room compound) :
    (withRedirections compound).Ensures answers text room (Stacked (OpensHereDocument text) room 7) :=
  ensures_bind forward (ensures_many forward (answered room .redirection)) fun redirections known =>
    ensures_pure (stacked redirections known)

theorem function_definition_stacks : functionDefinition.Ensures answers text room
    (Stacked (OpensHereDocument text) room 8) := by
  refine ensures_after forward fun rest => ?_
  split
  · exact ensures_fail _
  · refine ensures_atomic (ensures_after forward fun chars => ensures_after forward fun _ =>
      ensures_after forward fun _ => ensures_after forward fun _ => ensures_after forward fun _ => ?_)
    refine ensures_bind forward (compound_command_stacks forward answered) fun compound stacked => ?_
    refine ensures_bind forward (with_redirections_stacks forward answered stacked) fun body known => ?_
    exact ensures_pure (stacked_of_nodes rfl (List.forall_mem_cons.mpr ⟨stacked_leaf rfl,
      List.forall_mem_singleton.mpr known⟩))

theorem simple_command_stacks : simpleCommand.Ensures answers text room
    (Stacked (OpensHereDocument text) room 8) := by
  have words : (call .word).Ensures answers text room (Stacked (OpensHereDocument text) room 7) :=
    fun c node d within given => .higher (by decide) (answered room .word c node d within given)
  have redirections : (call .redirection).Ensures answers text room
      (Stacked (OpensHereDocument text) room 6) := answered room .redirection
  have behind : (call .redirection).Ensures answers text room
      (Stacked (OpensHereDocument text) room 7) :=
    fun c node d within given => .higher (by decide) (redirections c node d within given)
  have assigned : assignment.Ensures answers text room (Stacked (OpensHereDocument text) room 6) := by
    refine ensures_atomic (ensures_after forward fun parameter => ensures_after forward fun _ => ?_)
    refine ensures_bind forward (ensures_many forward (word_part_stacks forward answered false)) ?_
    refine fun value known => ensures_after forward fun _ => ensures_pure ?_
    have valued : Stacked (OpensHereDocument text) room 4 (.ofNodes .word value) :=
      stacked_of_nodes rfl known
    exact .higher (Nat.le_succ 5)
      (.node (marked_of_plain rfl rfl) (List.forall_mem_singleton.mpr valued))
  have named : commandWord.Ensures answers text room (Stacked (OpensHereDocument text) room 7) := by
    refine ensures_after forward fun rest => ?_
    split
    · exact ensures_refuse _ _
    · exact words
  refine ensures_bind forward (ensures_many forward (ensures_or_else redirections assigned)) ?_
  intro items leads
  have lead : Stacked (OpensHereDocument text) room 7 (.ofNodes .commandLead items) :=
    stacked_of_nodes rfl leads
  refine ensures_bind forward (ensures_attempt named) fun tried known => ?_
  cases tried with
  | some first =>
      refine ensures_bind forward (ensures_many forward (ensures_or_else behind words)) ?_
      refine fun others known' => ensures_pure (stacked_of_nodes rfl (List.forall_mem_append.mpr
        ⟨?_, List.forall_mem_cons.mpr ⟨known first rfl, known'⟩⟩))
      split
      · simp
      · exact List.forall_mem_singleton.mpr lead
  | none =>
      dsimp only
      split
      · exact ensures_fail _
      · exact ensures_pure (stacked_of_nodes rfl (List.forall_mem_singleton.mpr lead))

theorem command_stacks : command.Ensures answers text room
    (Stacked (OpensHereDocument text) room 8) := by
  refine ensures_or_else (function_definition_stacks forward answered) (ensures_or_else ?_ ?_)
  · refine ensures_bind forward (compound_command_stacks forward answered) fun compound stacked => ?_
    exact fun c node d within given =>
      .higher (by decide) (with_redirections_stacks forward answered stacked c node d within given)
  · exact simple_command_stacks forward answered

theorem pipeline_stacks : pipeline.Ensures answers text room
    (Stacked (OpensHereDocument text) room 10) := by
  have commands := answered room .command
  have stages : pipeSequence.Ensures answers text room (Stacked (OpensHereDocument text) room 9) := by
    refine ensures_bind forward commands fun first known => ?_
    refine ensures_bind forward (ensures_many forward (ensures_after forward fun _ =>
      ensures_after forward fun _ => commands)) fun others behind => ?_
    cases others with
    | nil => exact ensures_pure (.higher (by decide) known)
    | cons second more =>
        exact ensures_pure (stacked_of_nodes rfl (List.forall_mem_cons.mpr ⟨known, behind⟩))
  refine ensures_atomic (ensures_after forward fun bang => ensures_bind forward stages fun stages known => ?_)
  apply ensures_pure
  cases bang with
  | none => exact .higher (by decide) known
  | some _ => exact stacked_of_nodes rfl (List.forall_mem_singleton.mpr known)

theorem and_or_stacks : andOr.Ensures answers text room
    (Stacked (OpensHereDocument text) room 10) := by
  have sides : pipeline.Ensures answers text room _ := pipeline_stacks forward answered
  have links : andOrLink.Ensures answers text room fun link =>
      (link.1 = .andIf ∨ link.1 = .orIf) ∧ Stacked (OpensHereDocument text) room 10 link.2 := by
    refine ensures_bind forward (Q := fun kind => kind = .andIf ∨ kind = .orIf) ?_ fun kind operator => ?_
    · exact ensures_or_else (ensures_after forward fun _ => ensures_pure (Or.inl rfl))
        (ensures_after forward fun _ => ensures_pure (Or.inr rfl))
    · exact ensures_after forward fun _ => ensures_bind forward sides fun right known =>
        ensures_pure ⟨operator, known⟩
  refine ensures_bind forward sides fun first known => ?_
  refine ensures_bind forward (ensures_many forward links) fun links behind => ensures_pure ?_
  induction links generalizing first with
  | nil => exact known
  | cons link others ih =>
      obtain ⟨⟨operator, right⟩, later⟩ := List.forall_mem_cons.mp behind
      have plain : link.1.isHereDocument = false := by
        rcases operator with same | same <;> rw [same] <;> rfl
      refine ih _ (.link operator (marked_of_plain plain rfl) ?_) later
      rw [Node.children_of_nodes]
      exact List.forall_mem_cons.mpr ⟨known, List.forall_mem_singleton.mpr right⟩

theorem grammar_stacks (rule : Rule) :
    (grammar rule).Ensures answers text room (Stacks text room rule) := by
  cases rule with
  | word => exact word_stacks forward answered
  | redirection => exact redirection_stacks forward answered
  | operand => exact operand_stacks forward answered
  | command => exact command_stacks forward answered
  | andOr => exact and_or_stacks forward answered
  | conditional => exact conditional_stacks forward answered

theorem program_stacks : program.Ensures answers text room
    (Stacked (OpensHereDocument text) room 14) := by
  refine ensures_after forward fun _ => ensures_after forward fun _ => ?_
  refine ensures_bind forward (complete_commands_stacks forward answered) fun commands known => ?_
  exact ensures_after forward fun _ => ensures_pure (stacked_of_nodes rfl known)

end Commands

end Walk

end Grammar

theorem attained_stacks (text : List Char) (room : Room) (rule : Rule) :
    (Parser.call rule).Ensures attained text room (Stacks text room rule) := by
  intro c node d within known
  refine attained_induction (P := fun room rule c node _ => c.rest <:+ text → Stacks text room rule node)
    ?_ known within
  clear known within
  intro room rule c d node given within
  refine Grammar.grammar_stacks ?_ ?_ rule c node d within given
  · exact fun _ _ _ _ _ both => attained_forward _ _ _ _ _ both.1
  · exact fun _ _ _ _ _ within both => both.2 within

theorem stacks_marked {text : List Char} {room : Room} {rule : Rule} {node : Node}
    (answered : Stacks text room rule node) :
    ∀ inner ∈ node.descendants, inner.Marked (OpensHereDocument text) := by
  cases rule with
  | word | redirection | operand | command | andOr => exact stacked_marked answered
  | conditional =>
      obtain ⟨parts, rfl, each⟩ := answered
      refine marked_descendants (marked_of_plain rfl rfl) ?_
      rw [Node.children_of_nodes]
      exact fun part member => stacked_marked (each part member)

theorem attained_program_stacks {text : List Char} {room : Room} {tree : Node} {d : Cursor}
    (given : Grammar.program.MayGive attained room (.start text) tree d) :
    Stacked (OpensHereDocument text) room 14 tree :=
  Grammar.program_stacks attained_forward (attained_stacks text) _ tree d (List.suffix_refl text) given

end ShellLine
