import ShellLine.Grammar.Rules
import ShellLine.Proofs.Running.Runs
import ShellLine.Proofs.SyntaxErrors.Recorded

set_option autoImplicit false

namespace ShellLine

namespace Parser

-- All that a parser notes by itself is allowed; what it calls is not asked for.
def Notes (allowed : Expected → Prop) {α : Type} : Parser α → Prop
  | andThen first next => first.Notes allowed ∧ ∀ a, (next a).Notes allowed
  | attempt inner => inner.Notes allowed
  | nested inner => inner.Notes allowed
  | rounds turn => turn.Notes allowed
  | expected e => allowed e
  | succeed _ | fail | look | place | skip _ | call _ => True

variable {allowed : Expected → Prop} {α β : Type}

@[simp] theorem notes_pure (a : α) : (pure a : Parser α).Notes allowed := trivial

@[simp] theorem notes_bind (p : Parser α) (next : α → Parser β) :
    (p >>= next).Notes allowed ↔ p.Notes allowed ∧ ∀ a, (next a).Notes allowed := Iff.rfl

@[simp] theorem notes_fail : (fail : Parser α).Notes allowed := trivial

@[simp] theorem notes_expected (e : Expected) : (expected e).Notes allowed ↔ allowed e := Iff.rfl

@[simp] theorem notes_refuse (e : Expected) : (refuse e : Parser α).Notes allowed ↔ allowed e :=
  and_iff_left fun _ => trivial

@[simp] theorem notes_look : look.Notes allowed := trivial

@[simp] theorem notes_place : place.Notes allowed := trivial

@[simp] theorem notes_skip (count : Nat) : (skip count).Notes allowed := trivial

@[simp] theorem notes_call (rule : Rule) : (call rule).Notes allowed := trivial

@[simp] theorem notes_attempt (p : Parser α) : (attempt p).Notes allowed ↔ p.Notes allowed := Iff.rfl

@[simp] theorem notes_nested (p : Parser α) : (nested p).Notes allowed ↔ p.Notes allowed := Iff.rfl

@[simp] theorem notes_rounds (turn : Parser (Turn α)) : (rounds turn).Notes allowed ↔ turn.Notes allowed :=
  Iff.rfl

@[simp] theorem notes_atomic (p : Parser α) : (atomic p).Notes allowed ↔ p.Notes allowed :=
  and_iff_left fun tried => by cases tried <;> exact trivial

@[simp] theorem notes_optional (p : Parser α) : (optional p).Notes allowed ↔ p.Notes allowed :=
  and_iff_left fun _ => trivial

@[simp] theorem notes_many (p : Parser α) : (many p).Notes allowed ↔ p.Notes allowed :=
  and_iff_left fun tried => by cases tried <;> exact trivial

@[simp] theorem notes_or_else (p q : Parser α) :
    (p <|> q).Notes allowed ↔ p.Notes allowed ∧ q.Notes allowed := by
  refine ⟨fun notes => ⟨notes.1, notes.2 none⟩, fun notes => ⟨notes.1, fun tried => ?_⟩⟩
  cases tried with
  | some a => exact trivial
  | none => exact notes.2

@[simp] theorem notes_take (count : Nat) : (take count).Notes allowed := by simp [take]

@[simp] theorem notes_take_while (accepts : Char → Bool) : (takeWhile accepts).Notes allowed := by
  simp [takeWhile]

end Parser

theorem records_allowed {mode : Mode} {allowed : Expected → Prop}
    (rules : ∀ rule, (grammar rule).Notes allowed) {α : Type} {p : Parser α} {level : Nat} {s : State}
    {trace : Trace} {result : Option α × State} (runs : Runs mode p level s trace result)
    (notes : p.Notes allowed) {left : Nat} {e : Expected} (recorded : trace.Records left e) : allowed e := by
  induction runs with
  | succeed | fail | look | place | skip | refused =>
      refine absurd recorded (Trace.not_records_unnoted ?_ left e)
      rfl
  | expected f =>
      obtain ⟨-, -, rfl⟩ := (Trace.records_note left f e).mp recorded
      exact notes
  | andThen _ _ first later =>
      rcases (Trace.records_append left e).mp recorded with early | late
      · exact first notes.1 early
      · exact later (notes.2 _) late
  | more _ _ first later =>
      rcases (Trace.records_append left e).mp recorded with early | late
      · exact first notes early
      · exact later notes late
  | cut _ ih => exact ih notes.1 recorded
  | attempt _ ih | missed _ ih | nested _ _ ih | broken _ ih | stop _ ih | last _ ih => exact ih notes recorded
  | @replayed _ _ _ entry _ =>
      exact absurd recorded (Trace.not_records_unnoted (by cases entry <;> rfl) left e)
  | @called rule _ _ _ _ _ _ _ ih => exact ih (rules rule) ((Trace.records_called ..).mp recorded)

namespace Grammar

open ShellLine.Parser

def Missing (e : Expected) : Prop := e ≠ .endOfInput

@[simp] theorem missing_literal (text : String) : Missing (.literal text) := by simp [Missing]

@[simp] theorem missing_token (shape : Token) : Missing (.token shape) := by simp [Missing]

section Tokens

@[simp] theorem notes_blanks : blanks.Notes Missing := by simp [blanks]

@[simp] theorem notes_newlines : newlines.Notes Missing := by
  refine ⟨trivial, fun text => ?_⟩
  dsimp only
  split <;> simp

@[simp] theorem notes_line_break : lineBreak.Notes Missing := by simp [lineBreak]

@[simp] theorem notes_literal (text : String) : (literal text).Notes Missing := by
  refine ⟨trivial, fun rest => ?_⟩
  dsimp only
  split <;> simp

@[simp] theorem notes_operator (text : String) : (operator text).Notes Missing := by simp [operator]

@[simp] theorem notes_lone_operator (c : Char) : (loneOperator c).Notes Missing := by
  refine ⟨trivial, fun text => ?_⟩
  dsimp only
  split
  · split <;> simp
  · simp

@[simp] theorem notes_keyword (word : String) : (keyword word).Notes Missing := by
  refine ⟨trivial, fun text => ?_⟩
  dsimp only
  split <;> simp

@[simp] theorem notes_name : name.Notes Missing := by
  refine ⟨trivial, fun text => ?_⟩
  dsimp only
  split <;> simp

@[simp] theorem notes_literal_among (operators : List (String × Kind)) :
    (literalAmong operators).Notes Missing := by
  induction operators with
  | nil => trivial
  | cons first others ih => simp [literalAmong, ih]

end Tokens

section Lists

@[simp] theorem notes_separator (lines : Bool) : (separator lines).Notes Missing := by
  cases lines <;> simp [separator]

@[simp] theorem notes_term_list (lines : Bool) : (termList lines).Notes Missing := by
  refine ⟨⟨trivial, fun tried => ?_⟩, fun terms => ?_⟩
  · cases tried with
    | none => trivial
    | some node =>
        refine ⟨notes_separator lines, fun ended => ?_⟩
        rcases ended with - | - | - <;> trivial
  · dsimp only
    split <;> trivial

@[simp] theorem notes_complete_commands : completeCommands.Notes Missing := by
  refine ⟨by simp [completeCommand], fun tried => ?_⟩
  cases tried <;> simp [completeCommand]

@[simp] theorem notes_compound_list : compoundList.Notes Missing := by simp [compoundList]

end Lists

section Words

@[simp] theorem notes_braced_parameter : bracedParameter.Notes Missing := by
  refine ⟨trivial, fun text => ?_⟩
  dsimp only
  split
  · split
    · simp
    · split <;> simp
  · simp

theorem notes_plain_parameter : plainParameter.Notes Missing := by
  have named : namedParameter.Notes Missing := by
    refine ⟨notes_name, fun tried => ?_⟩
    cases tried <;> simp
  simp only [plainParameter, notes_atomic, notes_bind]
  refine ⟨trivial, fun _ => ⟨trivial, fun text => ?_⟩⟩
  split
  · split
    · simp
    · split <;> simp [named]
  · exact named

theorem notes_dollar_expansion : dollarExpansion.Notes Missing := by
  refine ⟨trivial, fun text => ?_⟩
  dsimp only
  split
  · simp [arithmeticExpansion, commandExpansion]
  · simp [commandExpansion]
  · simp [bracedExpansion, stringLength, parameterOperation, bareBracedParameter]
  · exact notes_plain_parameter

theorem notes_backquote (inDoubleQuote : Bool) : (backquote inDoubleQuote).Notes Missing := by
  have parts : (backquotedPart inDoubleQuote).Notes Missing := by
    refine ⟨trivial, fun text => ?_⟩
    dsimp only
    split
    · simp
    · split
      · split <;> simp
      · simp
    · split <;> simp
  simp [backquote, parts]

theorem notes_double_quote : doubleQuote.Notes Missing := by
  have parts : doubleQuotedPart.Notes Missing := by
    refine ⟨trivial, fun text => ?_⟩
    dsimp only
    split
    · simp
    · simp
    · simp [notes_dollar_expansion]
    · split
      · split
        · simp
        · split <;> simp
      · simp
    · split <;> simp [notes_backquote]
  simp [doubleQuote, parts]

@[simp] theorem notes_word_parts (braced : Bool) : (wordParts braced).Notes Missing := by
  rw [wordParts, notes_many]
  refine ⟨trivial, fun text => ?_⟩
  dsimp only
  split
  · simp only [singleQuote, notes_atomic, notes_bind]
    refine ⟨trivial, fun _ => ⟨notes_take_while _, fun _ => ⟨trivial, fun rest => ?_⟩⟩⟩
    split <;> simp
  · exact notes_double_quote
  · exact notes_backquote false
  · exact notes_dollar_expansion
  · simp only [bareEscape, notes_atomic, notes_bind]
    refine ⟨trivial, fun _ => ⟨trivial, fun rest => ?_⟩⟩
    split <;> simp
  · refine ⟨notes_take_while _, fun chars => ?_⟩
    dsimp only
    split <;> simp

end Words

section Commands

@[simp] theorem notes_do_group : doGroup.Notes Missing := by simp [doGroup]

theorem notes_for_clause : forClause.Notes Missing := by
  have separators : sequentialSeparator.Notes Missing := by simp [sequentialSeparator]
  have inside : inClause.Notes Missing := by simp [inClause, separators]
  simp only [forClause, notes_atomic, notes_bind]
  refine ⟨notes_keyword _, fun _ => ⟨notes_name, fun _ => ⟨notes_blanks, fun _ => ⟨inside, fun words => ?_⟩⟩⟩⟩
  cases words <;> simp [separators]

theorem notes_case_clause : caseClause.Notes Missing := by
  have items : caseItem.Notes Missing := by
    simp only [caseItem, notes_atomic, notes_bind]
    refine ⟨by simp, fun _ => ⟨trivial, fun _ => ⟨by simp, fun _ => ⟨notes_operator _, fun _ =>
      ⟨notes_compound_list, fun body => ?_⟩⟩⟩⟩⟩
    cases body with
    | none =>
        refine ⟨notes_line_break, fun _ => ⟨notes_operator _, fun ended => ?_⟩⟩
        cases ended <;> simp
    | some list =>
        refine ⟨notes_operator _, fun ended => ?_⟩
        cases ended <;> simp
  have rows : caseItems.Notes Missing := by
    refine ⟨items, fun tried => ?_⟩
    cases tried <;> trivial
  simp [caseClause, rows]

theorem notes_compound_command : compoundCommand.Notes Missing := by
  refine ⟨trivial, fun text => ?_⟩
  dsimp only
  split
  · simp [braceGroup]
  · simp [subshell]
  · exact notes_for_clause
  · exact notes_case_clause
  · simp [ifClause]
  · simp [loopClause]
  · simp [loopClause]
  · trivial

@[simp] theorem notes_with_redirections (compound : Node) : (withRedirections compound).Notes Missing := by
  simp [withRedirections]

theorem notes_simple_command : simpleCommand.Notes Missing := by
  refine ⟨by simp [assignment], fun items => ⟨⟨trivial, fun text => ?_⟩, fun tried => ?_⟩⟩
  · dsimp only
    split <;> simp
  · cases tried with
    | some first => simp
    | none =>
        dsimp only
        split <;> simp

theorem notes_command : command.Notes Missing := by
  have functions : functionDefinition.Notes Missing := by
    refine ⟨trivial, fun text => ?_⟩
    dsimp only
    split <;> simp [notes_compound_command]
  simp [command, functions, notes_compound_command, notes_simple_command]

@[simp] theorem notes_pipeline : pipeline.Notes Missing := by
  have stages : pipeSequence.Notes Missing := by
    refine ⟨trivial, fun _ => ⟨by simp, fun others => ?_⟩⟩
    dsimp only
    split <;> simp
  simp [pipeline, stages]

theorem notes_conditional : conditional.Notes Missing := by
  have alternatives : elsePart.Notes Missing := by
    rw [elsePart, notes_atomic]
    refine ⟨notes_keyword _, fun tried => ?_⟩
    cases tried <;> simp
  simp [conditional, alternatives]

end Commands

theorem grammar_notes_missing (rule : Rule) : (grammar rule).Notes Missing := by
  cases rule with
  | word =>
      refine ⟨notes_word_parts false, fun parts => ?_⟩
      dsimp only
      split <;> simp
  | redirection =>
      have descriptor : redirectedDescriptor.Notes Missing := by
        rw [redirectedDescriptor, notes_atomic]
        refine ⟨notes_take_while _, fun digits => ?_⟩
        dsimp only
        split
        · simp
        · refine ⟨trivial, fun text => ?_⟩
          dsimp only
          split <;> trivial
      simp [grammar, redirection, descriptor]
  | operand => simp [grammar, operand]
  | command => exact notes_command
  | andOr => simp [grammar, andOr, andOrLink]
  | conditional => exact notes_conditional

theorem program_notes_missing : program.Notes Missing := by simp [program]

end Grammar

end ShellLine
