import ShellLine.Proofs.Reading.Ranked

set_option autoImplicit false

namespace ShellLine.Grammar

open ShellLine.Parser

section Plain

@[simp] theorem plain_blanks : blanks.IsPlain := by simp [blanks]

@[simp] theorem plain_newlines : newlines.IsPlain := by
  refine ⟨trivial, fun text => ?_⟩
  dsimp only
  split <;> simp

@[simp] theorem plain_line_break : lineBreak.IsPlain := by simp [lineBreak]

@[simp] theorem plain_literal (text : String) : (literal text).IsPlain := by
  refine ⟨trivial, fun rest => ?_⟩
  dsimp only
  split <;> simp

@[simp] theorem plain_operator (text : String) : (operator text).IsPlain := by simp [operator]

@[simp] theorem plain_lone_operator (ch : Char) : (loneOperator ch).IsPlain := by
  refine ⟨trivial, fun text => ?_⟩
  dsimp only
  split
  · split <;> simp
  · simp

@[simp] theorem plain_keyword (word : String) : (keyword word).IsPlain := by
  refine ⟨trivial, fun text => ?_⟩
  dsimp only
  split <;> simp

@[simp] theorem plain_name : name.IsPlain := by
  refine ⟨trivial, fun text => ?_⟩
  dsimp only
  split <;> simp

@[simp] theorem plain_literal_among (operators : List (String × Kind)) :
    (literalAmong operators).IsPlain := by
  induction operators with
  | nil => trivial
  | cons first others ih => simp [literalAmong, ih]

@[simp] theorem plain_separator (lines : Bool) : (separator lines).IsPlain := by
  cases lines <;> simp [separator]

@[simp] theorem plain_sequential_separator : sequentialSeparator.IsPlain := by
  simp [sequentialSeparator]

@[simp] theorem plain_unquoted_literal (braced : Bool) : (unquotedLiteral braced).IsPlain := by
  refine ⟨plain_take_while _, fun chars => ?_⟩
  dsimp only
  split <;> simp

@[simp] theorem plain_single_quote : singleQuote.IsPlain := by
  simp only [singleQuote, plain_atomic, plain_bind]
  refine ⟨trivial, fun _ => ⟨plain_take_while _, fun chars => ⟨trivial, fun text => ?_⟩⟩⟩
  split <;> simp

@[simp] theorem plain_bare_escape : bareEscape.IsPlain := by
  simp only [bareEscape, plain_atomic, plain_bind]
  refine ⟨trivial, fun _ => ⟨trivial, fun text => ?_⟩⟩
  split <;> simp

@[simp] theorem plain_backquoted_part (inDoubleQuote : Bool) : (backquotedPart inDoubleQuote).IsPlain := by
  refine ⟨trivial, fun text => ?_⟩
  dsimp only
  split
  · simp
  · split
    · split <;> simp
    · simp
  · split <;> simp

@[simp] theorem plain_braced_parameter : bracedParameter.IsPlain := by
  refine ⟨trivial, fun text => ?_⟩
  dsimp only
  split
  · split
    · simp
    · split <;> simp
  · simp

@[simp] theorem plain_parameter : plainParameter.IsPlain := by
  have named : namedParameter.IsPlain := by
    refine ⟨plain_name, fun tried => ?_⟩
    cases tried <;> simp
  simp only [plainParameter, plain_atomic, plain_bind]
  refine ⟨trivial, fun _ => ⟨trivial, fun text => ?_⟩⟩
  split
  · split
    · simp
    · split <;> simp [named]
  · exact named

@[simp] theorem plain_redirected_descriptor : redirectedDescriptor.IsPlain := by
  simp only [redirectedDescriptor, plain_atomic, plain_bind]
  refine ⟨plain_take_while _, fun digits => ?_⟩
  split
  · simp
  · refine ⟨trivial, fun text => ?_⟩
    dsimp only
    split <;> simp

end Plain

section Ranks

variable {answers : Answers} (forward : answers.Forward) {rank : Nat}

include forward

theorem ranked_dollar_expansion : dollarExpansion.Ranked answers rank := by
  intro c bound here
  refine ⟨trivial, fun room text d looked => ?_⟩
  obtain ⟨seen, rfl⟩ := looked
  have past : ∀ {α : Type} (count : Nat) (next : Unit → Parser α), c.rest ≠ [] →
      (skip (count + 1) >>= next).CallsLower answers bound c := by
    intro α count next remains
    refine calls_lower_after forward (by omega) trivial ?_
    rintro _ _ e rfl
    exact c.advance_left_lt _ remains (Nat.succ_pos count)
  have atomically : ∀ {α : Type} (p : Parser α), p.CallsLower answers bound c →
      (atomic p).CallsLower answers bound c := by
    refine fun p lower => ⟨lower, fun room tried d _ => ?_⟩
    cases tried <;> exact trivial
  have command : c.rest ≠ [] → commandExpansion.CallsLower answers bound c :=
    fun remains => atomically _ (past 1 _ remains)
  dsimp only
  split
  · have remains : c.rest ≠ [] := by simp [seen]
    refine ⟨atomically _ (past 2 _ remains), fun room tried d attempted => ?_⟩
    cases tried with
    | some a => exact trivial
    | none =>
        rcases attempted with ⟨_, impossible, -⟩ | ⟨-, rfl⟩
        · cases impossible
        · exact command remains
  · exact command (by simp [seen])
  · have remains : c.rest ≠ [] := by simp [seen]
    have bare : bareBracedParameter.CallsLower answers bound c := atomically _ (past 1 _ remains)
    have operation : parameterOperation.CallsLower answers bound c := atomically _ (past 1 _ remains)
    have length : stringLength.CallsLower answers bound c := atomically _ (past 1 _ remains)
    refine ⟨length, fun room tried d attempted => ?_⟩
    rcases attempted with ⟨_, rfl, -⟩ | ⟨rfl, rfl⟩
    · exact trivial
    · refine ⟨operation, fun room tried d attempted => ?_⟩
      rcases attempted with ⟨_, rfl, -⟩ | ⟨rfl, rfl⟩
      · exact trivial
      · exact bare
  · exact calls_lower_of_plain plain_parameter c

theorem ranked_backquote (inDoubleQuote : Bool) : (backquote inDoubleQuote).Ranked answers rank :=
  ranked_atomic (ranked_bind forward (ranked_of_plain trivial) fun _ => ranked_bind forward
    (ranked_rounds (ranked_of_plain (plain_backquoted_part _))) fun _ => ranked_of_plain trivial)

theorem ranked_double_quoted_part : doubleQuotedPart.Ranked answers rank := by
  refine ranked_bind forward (ranked_of_plain trivial) fun text => ?_
  split
  · exact ranked_of_plain (by simp)
  · exact ranked_of_plain (by simp)
  · exact ranked_bind forward (ranked_dollar_expansion forward) fun _ => ranked_of_plain trivial
  · split
    · split
      · exact ranked_of_plain (by simp)
      · split <;> exact ranked_of_plain (by simp)
    · exact ranked_of_plain (by simp)
  · split
    · exact ranked_bind forward (ranked_backquote forward true) fun _ => ranked_of_plain trivial
    · exact ranked_of_plain (by simp)

theorem ranked_word_parts (braced : Bool) : (wordParts braced).Ranked answers rank := by
  refine ranked_many (ranked_bind forward (ranked_of_plain trivial) fun text => ?_)
  split
  · exact ranked_of_plain plain_single_quote
  · exact ranked_atomic (ranked_bind forward (ranked_of_plain trivial) fun _ => ranked_bind forward
      (ranked_rounds (ranked_double_quoted_part forward)) fun _ => ranked_of_plain trivial)
  · exact ranked_backquote forward false
  · exact ranked_dollar_expansion forward
  · exact ranked_of_plain plain_bare_escape
  · exact ranked_of_plain (plain_unquoted_literal braced)

theorem ranked_word : word.Ranked answers rank := by
  refine ranked_bind forward (ranked_word_parts forward false) fun parts => ranked_of_plain ?_
  split <;> simp

theorem ranked_redirection (lower : 0 < rank) : redirection.Ranked answers rank :=
  ranked_bind forward (ranked_of_plain plain_redirected_descriptor) fun _ =>
    ranked_bind forward (ranked_of_plain plain_place) fun _ =>
      ranked_bind forward (ranked_of_plain (plain_literal_among _)) fun _ =>
        ranked_bind forward (ranked_of_plain plain_blanks) fun _ =>
          ranked_bind forward (ranked_call lower) fun _ => ranked_of_plain trivial

theorem ranked_with_redirections (lower : 1 < rank) (compound : Node) :
    (withRedirections compound).Ranked answers rank :=
  ranked_bind forward (ranked_many (ranked_call lower)) fun _ => ranked_of_plain trivial

theorem ranked_simple_command (lower : 1 < rank) : simpleCommand.Ranked answers rank := by
  have redirections : (call .redirection).Ranked answers rank := ranked_call lower
  have words : (call .word).Ranked answers rank := ranked_call (Nat.lt_of_succ_lt lower)
  have assignments : assignment.Ranked answers rank :=
    ranked_atomic (ranked_after forward (ranked_of_plain plain_name) name_advances)
  refine ranked_bind forward (ranked_many (ranked_or_else redirections assignments)) fun items => ?_
  refine ranked_bind forward (ranked_attempt ?_) fun tried => ?_
  · refine ranked_bind forward (ranked_of_plain trivial) fun text => ?_
    split
    · exact ranked_of_plain (plain_refuse _)
    · exact words
  · cases tried with
    | some first =>
        exact ranked_bind forward (ranked_many (ranked_or_else redirections words)) fun _ =>
          ranked_of_plain trivial
    | none =>
        refine ranked_of_plain ?_
        dsimp only
        split <;> simp

theorem ranked_compound_command : compoundCommand.Ranked answers rank := by
  have opened : ∀ {α : Type} {word : String} {next : Unit → Parser α}, word.toList ≠ [] →
      (atomic (keyword word >>= next)).Ranked answers rank := fun nonempty =>
    ranked_atomic (ranked_after forward (ranked_of_plain (plain_keyword _)) (keyword_advances nonempty))
  refine ranked_bind forward (ranked_of_plain trivial) fun text => ?_
  split
  · exact opened (by decide)
  · exact ranked_atomic (ranked_after forward (ranked_of_plain (plain_operator _))
      (operator_advances forward (by decide)))
  · exact opened (by decide)
  · exact opened (by decide)
  · exact opened (by decide)
  · exact opened (by decide)
  · exact opened (by decide)
  · exact ranked_of_plain trivial

theorem ranked_command (lower : 1 < rank) : command.Ranked answers rank := by
  refine ranked_or_else ?_ (ranked_or_else ?_ (ranked_simple_command forward lower))
  · refine ranked_bind forward (ranked_of_plain trivial) fun text => ?_
    split
    · exact ranked_of_plain trivial
    · exact ranked_atomic (ranked_after forward (ranked_of_plain plain_name) name_advances)
  · exact ranked_bind forward (ranked_compound_command forward) fun compound =>
      ranked_with_redirections forward lower compound

theorem ranked_pipeline (lower : 3 < rank) : pipeline.Ranked answers rank := by
  have commands : (call .command).Ranked answers rank := ranked_call lower
  refine ranked_atomic (ranked_bind forward (ranked_of_plain (plain_keyword _)) fun _ => ?_)
  refine ranked_bind forward (ranked_bind forward commands fun first => ?_) fun _ => ranked_of_plain trivial
  refine ranked_bind forward (ranked_many ?_) fun others => ranked_of_plain ?_
  · exact ranked_bind forward (ranked_of_plain (plain_lone_operator _)) fun _ =>
      ranked_bind forward (ranked_of_plain plain_line_break) fun _ => commands
  · split <;> simp

theorem ranked_and_or (lower : 3 < rank) : andOr.Ranked answers rank := by
  have links : andOrLink.Ranked answers rank :=
    ranked_bind forward (ranked_of_plain (by simp)) fun _ =>
      ranked_bind forward (ranked_of_plain plain_line_break) fun _ =>
        ranked_bind forward (ranked_pipeline forward lower) fun _ => ranked_of_plain trivial
  exact ranked_bind forward (ranked_pipeline forward lower) fun _ =>
    ranked_bind forward (ranked_many links) fun _ => ranked_of_plain trivial

theorem ranked_term_list (lower : 4 < rank) (lines : Bool) : (termList lines).Ranked answers rank := by
  refine ranked_bind forward (ranked_rounds ?_) fun terms => ranked_of_plain ?_
  · refine ranked_bind forward (ranked_attempt (ranked_call lower)) fun tried => ranked_of_plain ?_
    cases tried with
    | none => exact trivial
    | some node =>
        refine ⟨plain_separator lines, fun ended => ?_⟩
        rcases ended with - | - | - <;> exact trivial
  · split <;> simp

theorem ranked_compound_list (lower : 4 < rank) : compoundList.Ranked answers rank :=
  ranked_nested (ranked_atomic (ranked_bind forward (ranked_of_plain plain_line_break) fun _ =>
    ranked_term_list forward lower true))

theorem ranked_conditional (lower : 4 < rank) : conditional.Ranked answers rank := by
  have lists := ranked_compound_list forward lower
  have alternatives : elsePart.Ranked answers rank := by
    refine ranked_atomic (ranked_attempt_bind forward (ranked_of_plain (plain_keyword _))
      (keyword_advances (by decide)) ?_)
    exact ranked_bind forward (ranked_of_plain (plain_keyword _)) fun _ =>
      ranked_bind forward lists fun _ => ranked_of_plain trivial
  exact ranked_bind forward lists fun _ => ranked_bind forward (ranked_of_plain (plain_keyword _)) fun _ =>
    ranked_bind forward lists fun _ => ranked_bind forward (ranked_attempt alternatives) fun _ =>
      ranked_of_plain trivial

theorem grammar_ranked (rule : Rule) : (grammar rule).Ranked answers rule.rank := by
  cases rule with
  | word => exact ranked_word forward
  | redirection => exact ranked_redirection forward (by decide)
  | operand => exact ranked_bind forward (ranked_word_parts forward true) fun _ => ranked_of_plain trivial
  | command => exact ranked_command forward (by decide)
  | andOr => exact ranked_and_or forward (by decide)
  | conditional => exact ranked_conditional forward (by decide)

end Ranks

section Progress

variable {answers : Answers} (forward : answers.Forward) (advance : answers.Advance)

include forward in
theorem progresses_backquote (inDoubleQuote : Bool) : (backquote inDoubleQuote).Progresses answers :=
  progresses_atomic (progresses_after trivial fun _ => progresses_bind
    (progresses_rounds (progresses_of_plain (plain_backquoted_part _))
      fun _ _ _ _ given => backquoted_part_advances forward inDoubleQuote _ _ _ _ given)
    fun _ => trivial)

include advance in
theorem progresses_words : (many (call .word)).Progresses answers :=
  progresses_many trivial (call_advances advance (by decide))

include forward advance

theorem progresses_term_list (lines : Bool) : (termList lines).Progresses answers := by
  refine progresses_bind (progresses_rounds ?_ fun _ _ _ _ given => term_left_lt forward advance given nofun)
    fun terms => progresses_of_plain ?_
  · refine progresses_bind trivial fun tried => progresses_of_plain ?_
    cases tried with
    | none => exact trivial
    | some node =>
        refine ⟨plain_separator lines, fun ended => ?_⟩
        rcases ended with - | - | - <;> exact trivial
  · split <;> simp

theorem progresses_complete_commands : completeCommands.Progresses answers := by
  have commands : completeCommand.Progresses answers :=
    progresses_bind (progresses_term_list forward advance false) fun _ => trivial
  refine progresses_bind commands fun tried => ?_
  cases tried with
  | none => exact trivial
  | some first =>
      exact progresses_bind (progresses_many (progresses_after plain_newlines fun _ => commands)
        (advances_first forward newlines_advance)) fun _ => trivial

theorem progresses_dollar_expansion : dollarExpansion.Progresses answers := by
  have arithmetic : arithmeticExpansion.Progresses answers :=
    progresses_atomic (progresses_after trivial fun _ => progresses_after plain_blanks fun _ =>
      progresses_bind (progresses_words advance) fun _ => progresses_of_plain (by simp))
  have command : commandExpansion.Progresses answers :=
    progresses_atomic (progresses_after trivial fun _ => progresses_after plain_blanks fun _ =>
      progresses_after plain_line_break fun _ =>
        progresses_bind (progresses_complete_commands forward advance) fun _ =>
          progresses_of_plain (by simp))
  have braced : bracedExpansion.Progresses answers := by
    refine progresses_or_else ?_ (progresses_or_else ?_ ?_)
    · exact progresses_of_plain (by simp [stringLength])
    · exact progresses_atomic (progresses_after trivial fun _ =>
        progresses_after plain_braced_parameter fun _ => progresses_after (plain_literal_among _) fun _ =>
          progresses_bind trivial fun _ => progresses_of_plain (by simp))
    · exact progresses_of_plain (by simp [bareBracedParameter])
  refine progresses_after trivial fun text => ?_
  split
  · exact progresses_or_else arithmetic command
  · exact command
  · exact braced
  · exact progresses_of_plain plain_parameter

theorem progresses_double_quote : doubleQuote.Progresses answers := by
  refine progresses_atomic (progresses_after trivial fun _ => progresses_bind (progresses_rounds ?_
    fun _ _ _ _ given => double_quoted_part_advances forward _ _ _ _ given) fun _ => trivial)
  refine progresses_after trivial fun text => ?_
  split
  · exact progresses_of_plain (by simp)
  · exact progresses_of_plain (by simp)
  · exact progresses_bind (progresses_dollar_expansion forward advance) fun _ => trivial
  · split
    · split
      · exact progresses_of_plain (by simp)
      · split <;> exact progresses_of_plain (by simp)
    · exact progresses_of_plain (by simp)
  · split
    · exact progresses_bind (progresses_backquote forward true) fun _ => trivial
    · exact progresses_of_plain (by simp)

theorem progresses_word_parts (braced : Bool) : (wordParts braced).Progresses answers := by
  refine progresses_many (progresses_after trivial fun text => ?_) (word_part_advances forward braced)
  split
  · exact progresses_of_plain plain_single_quote
  · exact progresses_double_quote forward advance
  · exact progresses_backquote forward false
  · exact progresses_dollar_expansion forward advance
  · exact progresses_of_plain plain_bare_escape
  · exact progresses_of_plain (plain_unquoted_literal braced)

theorem progresses_simple_command : simpleCommand.Progresses answers := by
  have redirections : (call .redirection).Advances answers := call_advances advance (by decide)
  have assignments : assignment.Progresses answers :=
    progresses_atomic (progresses_after plain_name fun _ => progresses_after (plain_literal _) fun _ =>
      progresses_bind (progresses_word_parts forward advance false) fun _ => progresses_of_plain (by simp))
  refine progresses_bind (progresses_many (progresses_or_else trivial assignments)
    (advances_or_else redirections (assignment_advances forward))) fun items => ?_
  refine progresses_bind (progresses_after trivial fun text => ?_) fun tried => ?_
  · split
    · exact progresses_of_plain (plain_refuse _)
    · exact trivial
  · cases tried with
    | some first =>
        exact progresses_bind (progresses_many (progresses_or_else trivial trivial)
          (advances_or_else redirections (call_advances advance (by decide)))) fun _ => trivial
    | none =>
        refine progresses_of_plain ?_
        dsimp only
        split <;> simp

theorem progresses_compound_list : compoundList.Progresses answers :=
  progresses_atomic (progresses_after plain_line_break fun _ => progresses_term_list forward advance true)

theorem progresses_do_group : doGroup.Progresses answers :=
  progresses_atomic (progresses_after (plain_keyword _) fun _ =>
    progresses_bind (progresses_compound_list forward advance) fun _ => progresses_of_plain (by simp))

theorem progresses_for_clause : forClause.Progresses answers := by
  have inside : inClause.Progresses answers :=
    progresses_after plain_line_break fun _ => progresses_after (plain_keyword _) fun _ =>
      progresses_bind (progresses_words advance) fun _ => progresses_of_plain (by simp)
  have body : ∀ next : Node → Node, (do return next (← doGroup) : Parser Node).Progresses answers :=
    fun next => progresses_bind (progresses_do_group forward advance) fun _ => trivial
  refine progresses_atomic (progresses_after (plain_keyword _) fun _ => progresses_after plain_name fun _ =>
    progresses_after plain_blanks fun _ => progresses_bind inside fun words => ?_)
  cases words with
  | none => exact progresses_after (by simp) fun _ => body _
  | some words => exact body _

theorem progresses_case_item : caseItem.Progresses answers := by
  have word : (call .word).Progresses answers := trivial
  refine progresses_atomic (progresses_after (by simp) fun _ => progresses_bind word fun _ =>
    progresses_bind (progresses_many (progresses_after (plain_lone_operator _) fun _ => word)
      (advances_first forward (lone_operator_advances forward _))) fun _ =>
    progresses_after (plain_operator _) fun _ =>
    progresses_bind (progresses_compound_list forward advance) fun body => progresses_of_plain ?_)
  cases body with
  | none =>
      refine ⟨plain_line_break, fun _ => ⟨plain_operator _, fun ended => ?_⟩⟩
      cases ended <;> simp
  | some list =>
      refine ⟨plain_operator _, fun ended => ?_⟩
      cases ended <;> simp

theorem progresses_case_clause : caseClause.Progresses answers := by
  have items : caseItems.Progresses answers := by
    refine progresses_rounds (progresses_bind (progresses_case_item forward advance) fun tried => ?_) ?_
    · cases tried <;> exact trivial
    · rintro room c value d ⟨tried, e, ⟨a, rfl, given⟩ | ⟨rfl, rfl⟩, later⟩
      · obtain ⟨-, rfl⟩ := later
        exact case_item_advances forward advance room c a e given
      · cases later.1
  exact progresses_atomic (progresses_after (plain_keyword _) fun _ => progresses_bind trivial fun _ =>
    progresses_after plain_line_break fun _ => progresses_after (plain_keyword _) fun _ =>
    progresses_after plain_line_break fun _ => progresses_bind items fun _ => progresses_of_plain (by simp))

theorem progresses_conditional : conditional.Progresses answers := by
  have lists := progresses_compound_list forward advance
  have alternatives : elsePart.Progresses answers := by
    refine progresses_atomic (progresses_after (plain_keyword _) fun tried => ?_)
    cases tried with
    | some _ => exact progresses_bind trivial fun _ => trivial
    | none =>
        exact progresses_after (plain_keyword _) fun _ => progresses_bind lists fun _ => trivial
  exact progresses_bind lists fun _ => progresses_after (plain_keyword _) fun _ =>
    progresses_bind lists fun _ => progresses_bind alternatives fun _ => trivial

theorem progresses_compound_command : compoundCommand.Progresses answers := by
  have lists := progresses_compound_list forward advance
  have loops : ∀ (word : String) (kind : Kind), (loopClause word kind).Progresses answers :=
    fun word kind => progresses_atomic (progresses_after (plain_keyword _) fun _ =>
      progresses_bind lists fun _ => progresses_bind (progresses_do_group forward advance) fun _ => trivial)
  refine progresses_after trivial fun text => ?_
  split
  · exact progresses_atomic (progresses_after (plain_keyword _) fun _ => progresses_bind lists fun _ =>
      progresses_of_plain (by simp))
  · exact progresses_atomic (progresses_after (plain_operator _) fun _ => progresses_bind lists fun _ =>
      progresses_of_plain (by simp))
  · exact progresses_for_clause forward advance
  · exact progresses_case_clause forward advance
  · exact progresses_atomic (progresses_after (plain_keyword _) fun _ => progresses_bind trivial fun _ =>
      progresses_of_plain (by simp))
  · exact loops _ _
  · exact loops _ _
  · exact trivial

theorem progresses_command : command.Progresses answers := by
  have redirected : ∀ compound, (withRedirections compound).Progresses answers := fun compound =>
    progresses_bind (progresses_many trivial (call_advances advance (by decide))) fun _ => trivial
  have compound := progresses_compound_command forward advance
  refine progresses_or_else ?_ (progresses_or_else (progresses_bind compound redirected)
    (progresses_simple_command forward advance))
  refine progresses_after trivial fun text => ?_
  split
  · exact trivial
  · exact progresses_atomic (progresses_after plain_name fun _ => progresses_after plain_blanks fun _ =>
      progresses_after (plain_operator _) fun _ => progresses_after (plain_operator _) fun _ =>
      progresses_after plain_line_break fun _ => progresses_bind compound fun _ =>
      progresses_bind (redirected _) fun _ => trivial)

theorem progresses_and_or : andOr.Progresses answers := by
  have stages : pipeSequence.Progresses answers := by
    refine progresses_bind trivial fun first => progresses_bind (progresses_many
      (progresses_after (plain_lone_operator _) fun _ => progresses_after plain_line_break fun _ => trivial)
      (advances_first forward (lone_operator_advances forward _))) fun others => progresses_of_plain ?_
    split <;> simp
  have sides : pipeline.Progresses answers :=
    progresses_atomic (progresses_after (plain_keyword _) fun _ => progresses_bind stages fun _ => trivial)
  exact progresses_bind sides fun _ => progresses_bind (progresses_many (progresses_after (by simp) fun _ =>
    progresses_after plain_line_break fun _ => progresses_bind sides fun _ => trivial)
    (and_or_link_advances forward advance)) fun _ => trivial

theorem grammar_progresses (rule : Rule) : (grammar rule).Progresses answers := by
  cases rule with
  | word =>
      refine progresses_bind (progresses_word_parts forward advance false) fun parts =>
        progresses_of_plain ?_
      split <;> simp
  | redirection =>
      exact progresses_after plain_redirected_descriptor fun _ => progresses_after plain_place fun _ =>
        progresses_after (plain_literal_among _) fun _ => progresses_after plain_blanks fun _ =>
        progresses_bind trivial fun _ => trivial
  | operand => exact progresses_bind (progresses_word_parts forward advance true) fun _ => trivial
  | command => exact progresses_command forward advance
  | andOr => exact progresses_and_or forward advance
  | conditional => exact progresses_conditional forward advance

theorem program_progresses : program.Progresses answers :=
  progresses_after plain_blanks fun _ => progresses_after plain_line_break fun _ =>
    progresses_bind (progresses_complete_commands forward advance) fun _ => progresses_of_plain (by simp)

end Progress

end ShellLine.Grammar
