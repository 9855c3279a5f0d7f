import ShellLine.Proofs.Grammar.Token
import ShellLine.Proofs.Reading.MayGive

set_option autoImplicit false

namespace ShellLine

def Answers.Advance (answers : Answers) : Prop :=
  ∀ room rule c node d, rule ≠ .operand → answers room rule c node d → d.left < c.left

namespace Parser

def Advances (answers : Answers) {α : Type} (p : Parser α) : Prop :=
  ∀ room c a d, p.MayGive answers room c a d → d.left < c.left

section Combinators

variable {answers : Answers} {α β : Type} {p q : Parser α} {next : α → Parser β}

theorem advances_fail : (fail : Parser α).Advances answers := fun _ _ _ _ given => given.elim

theorem advances_refuse (e : Expected) : (refuse e : Parser α).Advances answers :=
  fun _ _ _ _ given => (may_give_refuse e _ _ _ given).elim

theorem advances_atomic (advances : p.Advances answers) : (atomic p).Advances answers :=
  fun _ _ _ _ given => advances _ _ _ _ ((may_give_atomic _ _ _ _).mp given)

theorem advances_or_else (advances : p.Advances answers) (other : q.Advances answers) :
    (p <|> q).Advances answers :=
  fun _ _ _ _ given => ((may_give_or_else _ _ _ _ _).mp given).elim (advances _ _ _ _) (other _ _ _ _)

theorem advances_nested (advances : p.Advances answers) : (nested p).Advances answers :=
  fun _ _ _ _ ⟨_, _, given⟩ => advances _ _ _ _ given

theorem advances_rounds {turn : Parser (Turn α)} (advances : turn.Advances answers) :
    (rounds turn).Advances answers := by
  intro room c values d turns
  change Rounds (turn.MayGive answers room) c values d at turns
  induction turns with
  | stop given | last given | halt given => exact advances _ _ _ _ given
  | more given _ ih => exact Nat.lt_trans ih (advances _ _ _ _ given)

variable (forward : answers.Forward)

include forward

theorem advances_first (advances : p.Advances answers) : (p >>= next).Advances answers :=
  fun _ _ _ _ ⟨_, _, given, later⟩ =>
    Nat.lt_of_le_of_lt (may_give_left_le forward later) (advances _ _ _ _ given)

theorem advances_second (advances : ∀ a, (next a).Advances answers) : (p >>= next).Advances answers :=
  fun _ _ _ _ ⟨a, _, given, later⟩ =>
    Nat.lt_of_lt_of_le (advances a _ _ _ _ later) (may_give_left_le forward given)

theorem advances_past {room : Room} {c d : Cursor} {b : β} {count : Nat} {next : Unit → Parser β}
    (remains : c.rest ≠ []) (given : (skip (count + 1) >>= next).MayGive answers room c b d) :
    d.left < c.left := by
  obtain ⟨_, e, rfl, later⟩ := given
  exact Nat.lt_of_le_of_lt (may_give_left_le forward later)
    (c.advance_left_lt _ remains (Nat.succ_pos count))

theorem may_give_many_left_lt {room : Room} {c d : Cursor} {values : List α}
    (advances : p.Advances answers) (given : (many p).MayGive answers room c values d)
    (nonempty : values ≠ []) : d.left < c.left := by
  refine rounds_move (may_give_forward forward _) ?_ given nonempty
  rintro e next f ⟨tried, g, attempted, later⟩ goesOn
  cases tried with
  | none =>
      obtain ⟨rfl, rfl⟩ := later
      exact absurd rfl goesOn
  | some value =>
      obtain ⟨rfl, rfl⟩ := later
      rcases attempted with ⟨a, -, itemGiven⟩ | ⟨impossible, -⟩
      · exact advances _ _ _ _ itemGiven
      · cases impossible

end Combinators

end Parser

namespace Grammar

open ShellLine.Parser

variable {answers : Answers} {room : Room}

section Tokens

@[simp] theorem may_give_blanks (c d : Cursor) (u : Unit) :
    blanks.MayGive answers room c u d ↔ c.pastBlanks = d := by
  simp [blanks, Cursor.pastBlanks]

@[simp] theorem may_give_newlines (c d : Cursor) (u : Unit) :
    newlines.MayGive answers room c u d ↔ c.rest.head? = some '\n' ∧ c.pastLines = d := by
  by_cases newline : c.rest.head? = some '\n' <;> simp [newlines, Cursor.pastLines, newline]

@[simp] theorem may_give_literal (text : String) (c d : Cursor) (u : Unit) :
    (literal text).MayGive answers room c u d ↔
      text.toList <+: c.rest ∧ c.advance text.length = d := by
  by_cases here : text.toList <+: c.rest <;> simp [literal, here]

@[simp] theorem may_give_keyword (word : String) (c d : Cursor) (u : Unit) :
    (keyword word).MayGive answers room c u d ↔
      startsReserved word.toList c.rest = true ∧ (c.advance word.length).pastBlanks = d := by
  by_cases here : startsReserved word.toList c.rest = true <;> simp [keyword, here]

@[simp] theorem may_give_line_break (c d : Cursor) (u : Unit) :
    lineBreak.MayGive answers room c u d ↔ c.rest.head? = some '\n' ∧ c.pastLines = d ∨ c = d := by
  simp [lineBreak]

@[simp] theorem may_give_operator (text : String) (c d : Cursor) (u : Unit) :
    (operator text).MayGive answers room c u d ↔
      text.toList <+: c.rest ∧ (c.advance text.length).pastBlanks = d := by
  simp [operator, and_assoc]

@[simp] theorem may_give_lone_operator (ch : Char) (c d : Cursor) (u : Unit) :
    (loneOperator ch).MayGive answers room c u d ↔
      standsAlone ch c.rest ∧ (c.advance 1).pastBlanks = d := by
  rw [loneOperator, may_give_look_bind, standsAlone]
  cases c.rest with
  | nil => simp
  | cons first others =>
      change (if first = ch ∧ others.head? ≠ some ch then _ else _ : Parser Unit).MayGive answers room c u d ↔ _
      by_cases alone : first = ch ∧ others.head? ≠ some ch
      · simp [alone]
      · rw [if_neg alone]
        simp only [may_give_refuse, false_iff, List.head?_cons, List.tail_cons, Option.some.injEq]
        exact fun both => alone both.1

@[simp] theorem may_give_name (c d : Cursor) (chars : List Char) :
    name.MayGive answers room c chars d ↔
      c.rest.head?.any startsName = true ∧ c.rest.takeWhile continuesName = chars ∧
        c.advance (c.rest.takeWhile continuesName).length = d := by
  by_cases starts : c.rest.head?.any startsName = true <;> simp [name, starts]

theorem may_give_literal_among {operators : List (String × Kind)} {c d : Cursor} {kind : Kind}
    (given : (literalAmong operators).MayGive answers room c kind d) :
    ∃ text, (text, kind) ∈ operators ∧ text.toList <+: c.rest ∧ c.advance text.length = d := by
  induction operators with
  | nil => exact given.elim
  | cons first others ih =>
      rcases (may_give_or_else _ _ _ _ _).mp given with ⟨_, e, found, rfl, rfl⟩ | later
      · obtain ⟨here, passed⟩ := (may_give_literal _ _ _ _).mp found
        exact ⟨first.1, List.mem_cons_self .., here, passed⟩
      · obtain ⟨text, member, found⟩ := ih later
        exact ⟨text, List.mem_cons_of_mem _ member, found⟩

theorem literal_advances {text : String} (nonempty : text.toList ≠ []) :
    (literal text).Advances answers := by
  intro room c u d given
  obtain ⟨here, rfl⟩ := (may_give_literal _ _ _ _).mp given
  rw [← String.length_toList]
  exact advance_text_left_lt text.toList c nonempty here

theorem keyword_advances {word : String} (nonempty : word.toList ≠ []) :
    (keyword word).Advances answers := by
  intro room c u d given
  obtain ⟨here, rfl⟩ := (may_give_keyword _ _ _ _).mp given
  have moved := advance_text_left_lt word.toList c nonempty (starts_of_starts_reserved _ _ here)
  rw [String.length_toList] at moved
  exact Nat.lt_of_le_of_lt (past_blanks_left_le _) moved

theorem newlines_advance : newlines.Advances answers := by
  intro room c u d given
  obtain ⟨head, rfl⟩ := (may_give_newlines _ _ _).mp given
  obtain ⟨rest, here⟩ := List.head?_eq_some_iff.mp head
  refine c.advance_left_lt _ (by simp [here]) ?_
  rw [here, layoutLength]
  exact Nat.lt_of_lt_of_le Nat.one_pos (Nat.le_add_right 1 _)

theorem take_while_advances {accepts : Char → Bool} {c d : Cursor} {chars : List Char}
    (given : (takeWhile accepts).MayGive answers room c chars d) (nonempty : chars ≠ []) :
    d.left < c.left := by
  obtain ⟨rfl, rfl⟩ := (may_give_take_while _ _ _ _).mp given
  refine c.advance_left_lt _ (fun empty => nonempty ?_) (List.length_pos_iff.mpr nonempty)
  rw [empty, List.takeWhile_nil]

theorem name_advances : name.Advances answers := by
  intro room c chars d given
  obtain ⟨starts, rfl, rfl⟩ := (may_give_name _ _ _).mp given
  cases rest : c.rest with
  | nil => simp [rest] at starts
  | cons ch others =>
      have continues := continues_of_starts ch (by simpa [rest] using starts)
      exact c.advance_left_lt _ (by simp [rest]) (by simp [continues])

end Tokens

section Words

variable (forward : answers.Forward)

include forward

theorem operator_advances {text : String} (nonempty : text.toList ≠ []) :
    (operator text).Advances answers := advances_first forward (literal_advances nonempty)

theorem lone_operator_advances (ch : Char) : (loneOperator ch).Advances answers := by
  intro room c u d given
  rw [loneOperator, may_give_look_bind] at given
  split at given
  · rename_i first others here
    split at given
    · exact advances_past forward (by simp [here]) given
    · exact (may_give_refuse _ _ _ _ given).elim
  · exact (may_give_refuse _ _ _ _ given).elim

omit forward in
theorem unquoted_literal_advances (braced : Bool) : (unquotedLiteral braced).Advances answers := by
  rintro room c node d ⟨chars, e, taken, later⟩
  dsimp only at later
  split at later
  · exact (may_give_refuse _ _ _ _ later).elim
  · rename_i nonempty
    obtain ⟨-, rfl⟩ := later
    exact take_while_advances taken nonempty

omit forward in
theorem look_past_advances {α : Type} {next : List Char → Parser α}
    (empty : (next []).Advances answers)
    (nonempty : ∀ {room : Room} {c d : Cursor} {a : α} {first : Char} {others : List Char},
      c.rest = first :: others → (next (first :: others)).MayGive answers room c a d → d.left < c.left) :
    (look >>= next).Advances answers := by
  intro room c a d given
  rw [may_give_look_bind] at given
  cases here : c.rest with
  | nil =>
      rw [here] at given
      exact empty _ _ _ _ given
  | cons first others =>
      rw [here] at given
      exact nonempty here given

theorem single_quote_advances : singleQuote.Advances answers := by
  refine advances_atomic (advances_second forward fun _ => advances_second forward fun _ => ?_)
  refine look_past_advances (advances_second forward fun _ => advances_refuse _) ?_
  exact fun here given => advances_past forward (by simp [here]) given

theorem bare_escape_advances : bareEscape.Advances answers := by
  refine advances_atomic (advances_second forward fun _ => ?_)
  refine look_past_advances (advances_refuse _) ?_
  exact fun here given => advances_past forward (by simp [here]) given

theorem backquoted_part_advances (inDoubleQuote : Bool) :
    (backquotedPart inDoubleQuote).Advances answers := by
  intro room c turn d given
  rw [backquotedPart, may_give_look_bind] at given
  split at given
  · exact advances_second forward (fun _ => advances_second forward fun _ => advances_refuse _) _ _ _ _ given
  · rename_i rest here
    split at given
    · split at given
      · exact advances_past forward (by simp [here]) given
      · exact advances_past forward (by simp [here]) given
    · exact advances_past forward (by simp [here]) given
  · rename_i ch rest notEscape here
    split at given
    · exact advances_past forward (by simp [here]) given
    · rename_i notTick
      obtain ⟨chars, e, taken, -, rfl⟩ := given
      refine take_while_advances taken fun none => ?_
      obtain ⟨rfl, -⟩ := (may_give_take_while _ _ _ _).mp taken
      exact notEscape (by simpa [here, List.takeWhile_cons, notTick] using none)

theorem backquote_advances (inDoubleQuote : Bool) : (backquote inDoubleQuote).Advances answers :=
  advances_atomic (advances_second forward fun _ =>
    advances_first forward (advances_rounds (backquoted_part_advances forward inDoubleQuote)))

theorem arithmetic_expansion_advances : arithmeticExpansion.Advances answers :=
  advances_nested (advances_atomic (advances_second forward fun _ => advances_second forward fun _ =>
    advances_second forward fun _ => advances_first forward (literal_advances (by decide))))

theorem command_expansion_advances : commandExpansion.Advances answers :=
  advances_nested (advances_atomic (advances_second forward fun _ => advances_second forward fun _ =>
    advances_second forward fun _ => advances_second forward fun _ => advances_second forward fun _ =>
      advances_first forward (literal_advances (by decide))))

theorem braced_expansion_advances : bracedExpansion.Advances answers := by
  have closes : ("\x7d" : String).toList ≠ [] := by decide
  refine advances_or_else ?length (advances_or_else ?operation ?bare)
  case length =>
    exact advances_atomic (advances_second forward fun _ =>
      advances_first forward (literal_advances (by decide)))
  case operation =>
    exact advances_atomic (advances_second forward fun _ => advances_second forward fun _ =>
      advances_second forward fun _ => advances_second forward fun _ =>
        advances_first forward (literal_advances closes))
  case bare =>
    exact advances_atomic (advances_second forward fun _ => advances_second forward fun _ =>
      advances_first forward (literal_advances closes))

theorem plain_parameter_advances : plainParameter.Advances answers := by
  have named : namedParameter.Advances answers := by
    rintro room c node d ⟨tried, e, attempted, later⟩
    cases tried with
    | none =>
        obtain ⟨_, f, -, _, g, -, refused⟩ := later
        exact (may_give_refuse _ _ _ _ refused).elim
    | some chars =>
        obtain ⟨-, rfl⟩ := later
        rcases attempted with ⟨a, -, given⟩ | ⟨impossible, -⟩
        · exact name_advances _ _ _ _ given
        · cases impossible
  refine advances_atomic (advances_second forward fun _ => ?_)
  refine look_past_advances named fun here given => ?_
  dsimp only at given
  split at given
  · exact advances_past forward (by simp [here]) given
  · split at given
    · exact advances_past forward (by simp [here]) given
    · exact named _ _ _ _ given

theorem dollar_expansion_advances : dollarExpansion.Advances answers := by
  refine advances_second forward fun text => ?_
  split
  · exact advances_or_else (arithmetic_expansion_advances forward) (command_expansion_advances forward)
  · exact command_expansion_advances forward
  · exact braced_expansion_advances forward
  · exact plain_parameter_advances forward

theorem double_quoted_part_advances : doubleQuotedPart.Advances answers := by
  intro room c turn d given
  rw [doubleQuotedPart, may_give_look_bind] at given
  split at given
  · exact advances_second forward (fun _ => advances_second forward fun _ =>
      advances_second forward fun _ => advances_second forward fun _ => advances_refuse _) _ _ _ _ given
  · rename_i rest here
    exact advances_past forward (by simp [here]) given
  · exact advances_first forward (dollar_expansion_advances forward) _ _ _ _ given
  · rename_i rest here
    split at given
    · split at given
      · exact advances_past forward (by simp [here]) given
      · split at given
        · exact advances_past forward (by simp [here]) given
        · exact advances_past forward (by simp [here]) given
    · exact advances_past forward (by simp [here]) given
  · rename_i ch rest notQuote notDollar notEscape here
    split at given
    · exact advances_first forward (backquote_advances forward true) _ _ _ _ given
    · rename_i notTick
      obtain ⟨chars, e, taken, -, rfl⟩ := given
      refine take_while_advances taken fun none => ?_
      obtain ⟨rfl, -⟩ := (may_give_take_while _ _ _ _).mp taken
      have text : isDoubleQuotedText ch = true := by
        simp only [isDoubleQuotedText, List.mem_cons, List.not_mem_nil, or_false, decide_eq_true_eq,
          not_or]
        exact ⟨notQuote, notEscape, notTick, notDollar⟩
      simp [here, text] at none

theorem double_quote_advances : doubleQuote.Advances answers :=
  advances_atomic (advances_second forward fun _ =>
    advances_first forward (advances_rounds (double_quoted_part_advances forward)))

theorem word_part_advances (braced : Bool) : (wordPart braced).Advances answers := by
  refine advances_second forward fun text => ?_
  split
  · exact single_quote_advances forward
  · exact double_quote_advances forward
  · exact backquote_advances forward false
  · exact dollar_expansion_advances forward
  · exact bare_escape_advances forward
  · exact unquoted_literal_advances braced

theorem word_advances : word.Advances answers := by
  rintro room c node d ⟨parts, e, given, later⟩
  cases parts with
  | nil => exact later.elim
  | cons first others =>
      have moved := may_give_many_left_lt forward (word_part_advances forward false) given nofun
      exact Nat.lt_of_le_of_lt (may_give_left_le forward later) moved

end Words

section Commands

variable (forward : answers.Forward) (advance : answers.Advance)

include advance in
theorem call_advances {rule : Rule} (nonempty : rule ≠ .operand) : (call rule).Advances answers :=
  fun _ _ _ _ given => advance _ _ _ _ _ nonempty given

include forward

theorem assignment_advances : assignment.Advances answers :=
  advances_atomic (advances_first forward name_advances)

theorem compound_command_advances : compoundCommand.Advances answers := by
  refine advances_second forward fun text => ?_
  split
  · exact advances_atomic (advances_first forward (keyword_advances (by decide)))
  · exact advances_atomic (advances_first forward (operator_advances forward (by decide)))
  · exact advances_atomic (advances_first forward (keyword_advances (by decide)))
  · exact advances_atomic (advances_first forward (keyword_advances (by decide)))
  · exact advances_atomic (advances_first forward (keyword_advances (by decide)))
  · exact advances_atomic (advances_first forward (keyword_advances (by decide)))
  · exact advances_atomic (advances_first forward (keyword_advances (by decide)))
  · exact advances_fail

theorem function_definition_advances : functionDefinition.Advances answers := by
  refine advances_second forward fun text => ?_
  split
  · exact advances_fail
  · exact advances_atomic (advances_first forward name_advances)

include advance

theorem redirection_advances : redirection.Advances answers :=
  advances_second forward fun _ => advances_second forward fun _ => advances_second forward fun _ =>
    advances_second forward fun _ => advances_first forward (call_advances advance (by decide))

theorem simple_command_advances : simpleCommand.Advances answers := by
  rintro room c node d ⟨items, e, given, later⟩
  have passed := may_give_left_le forward given
  obtain ⟨tried, f, attempted, rest⟩ := later
  cases tried with
  | some first =>
      rcases attempted with ⟨word, -, wordGiven⟩ | ⟨impossible, -⟩
      · have moved : f.left < e.left := by
          rw [commandWord, may_give_look_bind] at wordGiven
          split at wordGiven
          · exact (may_give_refuse _ _ _ _ wordGiven).elim
          · exact advance _ _ _ _ _ (by decide) wordGiven
        have passedRest := may_give_left_le forward rest
        omega
      · cases impossible
  | none =>
      rcases attempted with ⟨_, impossible, -⟩ | ⟨-, rfl⟩
      · cases impossible
      · by_cases empty : items = []
        · simp only [if_pos empty] at rest
          exact (may_give_fail _ _ _ rest).elim
        · have moved := may_give_many_left_lt forward (advances_or_else
            (call_advances advance (by decide)) (assignment_advances forward)) given empty
          exact Nat.lt_of_le_of_lt (may_give_left_le forward rest) moved

theorem command_advances : command.Advances answers :=
  advances_or_else (function_definition_advances forward) (advances_or_else
    (advances_first forward (compound_command_advances forward)) (simple_command_advances forward advance))

theorem pipe_sequence_advances : pipeSequence.Advances answers :=
  advances_first forward (call_advances advance (by decide))

theorem pipeline_advances : pipeline.Advances answers :=
  advances_atomic (advances_second forward fun _ =>
    advances_first forward (pipe_sequence_advances forward advance))

theorem and_or_link_advances : andOrLink.Advances answers :=
  advances_second forward fun _ => advances_second forward fun _ =>
    advances_first forward (pipeline_advances forward advance)

theorem and_or_advances : andOr.Advances answers := advances_first forward (pipeline_advances forward advance)

-- Only a turn without a term stays where it is.
theorem term_left_lt {lines : Bool} {c d : Cursor} {turn : Turn Node}
    (given : (term lines).MayGive answers room c turn d) (goesOn : turn ≠ .stop) : d.left < c.left := by
  obtain ⟨tried, e, attempted, later⟩ := given
  cases tried with
  | none =>
      obtain ⟨rfl, -⟩ := later
      exact absurd rfl goesOn
  | some node =>
      rcases attempted with ⟨a, -, chain⟩ | ⟨impossible, -⟩
      · exact Nat.lt_of_le_of_lt (may_give_left_le forward later) (advance _ _ _ _ _ (by decide) chain)
      · cases impossible

theorem term_list_advances (lines : Bool) : (termList lines).Advances answers := by
  rintro room c node d ⟨terms, e, given, later⟩
  cases terms with
  | nil => exact later.elim
  | cons first others =>
      have moved := rounds_move (may_give_forward forward _) (term_left_lt forward advance) given nofun
      exact Nat.lt_of_le_of_lt (may_give_left_le forward later) moved

theorem complete_command_advances : completeCommand.Advances answers :=
  advances_first forward (term_list_advances forward advance false)

theorem compound_list_advances : compoundList.Advances answers :=
  advances_nested (advances_atomic (advances_second forward fun _ =>
    term_list_advances forward advance true))

theorem conditional_advances : conditional.Advances answers :=
  advances_first forward (compound_list_advances forward advance)

theorem case_item_advances : caseItem.Advances answers :=
  advances_atomic (advances_second forward fun _ =>
    advances_first forward (call_advances advance (by decide)))

end Commands

end Grammar

theorem attained_advance : attained.Advance := by
  intro room rule c node d nonempty known
  refine attained_induction (P := fun _ rule c _ d => rule ≠ .operand → d.left < c.left)
    ?_ known nonempty
  clear known nonempty
  intro room rule c node d given nonempty
  have forward : Answers.Forward fun room rule c node d =>
      attained room rule c node d ∧ (rule ≠ .operand → d.left < c.left) :=
    fun _ _ _ _ _ both => attained_forward _ _ _ _ _ both.1
  have advance : Answers.Advance fun room rule c node d =>
      attained room rule c node d ∧ (rule ≠ .operand → d.left < c.left) :=
    fun _ _ _ _ _ nonempty both => both.2 nonempty
  cases rule with
  | word => exact Grammar.word_advances forward _ _ _ _ given
  | redirection => exact Grammar.redirection_advances forward advance _ _ _ _ given
  | operand => exact absurd rfl nonempty
  | command => exact Grammar.command_advances forward advance _ _ _ _ given
  | andOr => exact Grammar.and_or_advances forward advance _ _ _ _ given
  | conditional => exact Grammar.conditional_advances forward advance _ _ _ _ given

end ShellLine
