import ShellLine.Proofs.Running.Counter
import ShellLine.Proofs.Running.Growth

set_option autoImplicit false

namespace ShellLine

namespace Parser

variable (calls : Rule → Nat → State → Option Node × State) (limit : Nat) {α β : Type}

-- Where the outcome is one of `R`, the place is as it was.
def Stays (R : Option α → Prop) (p : Parser α) : Prop :=
  ∀ level s, R (p.run calls limit level s).1 → (p.run calls limit level s).2.cursor = s.cursor

def Avoids (R : Option α → Prop) (p : Parser α) : Prop :=
  ∀ level s, ¬ R (p.run calls limit level s).1

abbrev Restores (p : Parser α) : Prop := p.Stays calls limit (· = none)

variable {calls limit} {p : Parser α} {next : α → Parser β} {R : Option α → Prop} {Q : Option β → Prop}

theorem run_bind (level : Nat) (s : State) :
    (p >>= next).run calls limit level s =
      chain (p.run calls limit level s) fun a t => (next a).run calls limit level t :=
  run_and_then p next level s

section Stay

theorem stays_look (Q : Option (List Char) → Prop) : look.Stays calls limit Q := fun _ _ _ => rfl

theorem stays_expected (e : Expected) (Q : Option Unit → Prop) : (expected e).Stays calls limit Q :=
  fun _ _ _ => rfl

theorem stays_fail : (fail : Parser α).Stays calls limit R := fun _ _ _ => rfl

theorem stays_pure (a : α) : (pure a : Parser α).Stays calls limit R := fun _ _ _ => rfl

theorem stays_of_avoids (avoids : p.Avoids calls limit R) : p.Stays calls limit R :=
  fun level s given => absurd given (avoids level s)

-- A sequence stays if what it may do after a first step that moved on is nothing of `Q`.
theorem stays_bind (first : Q none → p.Restores calls limit)
    (each : ∀ a, p.Stays calls limit (· = some a) ∧ (next a).Stays calls limit Q ∨
      (next a).Avoids calls limit Q) : (p >>= next).Stays calls limit Q := by
  intro level s given
  rw [run_bind, chain] at given ⊢
  cases outcome : (p.run calls limit level s).1 with
  | none =>
      rw [outcome] at given
      exact first given level s outcome
  | some a =>
      rw [outcome] at given
      rcases each a with ⟨stays, later⟩ | avoids
      · exact (later level _ given).trans (stays level s outcome)
      · exact absurd given (avoids level _)

theorem stays_behind (still : ∀ R, p.Stays calls limit R) (each : ∀ a, (next a).Stays calls limit Q) :
    (p >>= next).Stays calls limit Q :=
  stays_bind (fun _ => still _) fun a => .inl ⟨still _, each a⟩

theorem restores_bind (first : p.Restores calls limit)
    (each : ∀ a, (next a).Avoids calls limit (· = none)) : (p >>= next).Restores calls limit :=
  stays_bind (fun _ => first) fun a => .inr (each a)

theorem restores_refuse (e : Expected) : (refuse e : Parser α).Restores calls limit :=
  stays_behind (stays_expected e) fun _ => stays_fail

theorem stays_attempt : (attempt p).Stays calls limit (· = some none) := by
  intro level s given
  rw [run_attempt] at given ⊢
  rw [Option.some.inj given]

theorem lasts_attempt : (attempt p).Avoids calls limit (· = none) := by
  intro level s
  rw [run_attempt]
  exact Option.some_ne_none _

theorem restores_attempt {next : Option α → Parser β}
    (given : ∀ a, (next (some a)).Avoids calls limit (· = none)) (missed : (next none).Restores calls limit) :
    (attempt p >>= next).Restores calls limit := by
  refine stays_bind (fun _ => stays_of_avoids lasts_attempt) fun tried => ?_
  cases tried with
  | none => exact .inl ⟨stays_attempt, missed⟩
  | some a => exact .inr (given a)

theorem restores_atomic (p : Parser α) : (atomic p).Restores calls limit :=
  restores_attempt (fun _ _ _ => Option.some_ne_none _) stays_fail

theorem restores_or_else {q : Parser α} (second : q.Restores calls limit) :
    (p <|> q).Restores calls limit :=
  restores_attempt (fun _ _ _ => Option.some_ne_none _) second

theorem restores_nested (inner : p.Restores calls limit) : (nested p).Restores calls limit := by
  intro level s given
  rw [run] at given ⊢
  split at given <;> rename_i full
  · rw [if_pos full]
  · rw [if_neg full]
    exact inner _ _ given

end Stay

section Avoid

theorem avoids_pure {a : α} (other : ¬ R (some a)) : (pure a : Parser α).Avoids calls limit R :=
  fun _ _ => other

theorem avoids_bind (first : Q none → p.Avoids calls limit (· = none))
    (each : ∀ a, (next a).Avoids calls limit Q) : (p >>= next).Avoids calls limit Q := by
  intro level s given
  rw [run_bind, chain] at given
  cases outcome : (p.run calls limit level s).1 with
  | none =>
      rw [outcome] at given
      exact first given level s outcome
  | some a =>
      rw [outcome] at given
      exact each a level _ given

theorem lasts_look : look.Avoids calls limit (· = none) := fun _ _ => Option.some_ne_none _

theorem lasts_skip (count : Nat) : (skip count).Avoids calls limit (· = none) :=
  fun _ _ => Option.some_ne_none _

theorem lasts_take_while (accepts : Char → Bool) :
    (takeWhile accepts).Avoids calls limit (· = none) :=
  avoids_bind (fun _ => lasts_look) fun _ => avoids_bind (fun _ => lasts_look) fun _ =>
    avoids_bind (fun _ => lasts_skip _) fun _ => avoids_pure (Option.some_ne_none _)

end Avoid

section Repetition

-- What was taken before is part of the outcome, so an empty one was reached at the first turn.
theorem repeat_turns_outcome {turn : State → Option (Turn α) × State} (lasts : ∀ s, (turn s).1 ≠ none)
    (taken : List α) (s : State) : (repeatTurns turn taken s).1 ≠ none ∧
      (taken ≠ [] → (repeatTurns turn taken s).1 ≠ some []) := by
  have first := lasts s
  rw [repeatTurns]
  generalize turn s = outcome at first ⊢
  obtain ⟨next, t⟩ := outcome
  cases next with
  | none => exact absurd rfl first
  | some next =>
      cases next with
      | stop => exact ⟨Option.some_ne_none _, fun some => by simpa using some⟩
      | last value => exact ⟨Option.some_ne_none _, fun _ => by simp⟩
      | more value =>
          dsimp only
          by_cases moves : t.cursor.left < s.cursor.left
          · rw [if_pos moves]
            obtain ⟨gives, nonempty⟩ := repeat_turns_outcome lasts (value :: taken) t
            exact ⟨gives, fun _ => nonempty (List.cons_ne_nil _ _)⟩
          · rw [if_neg moves]
            exact ⟨Option.some_ne_none _, fun _ => by simp⟩
termination_by s.cursor.left

variable {turn : Parser (Turn α)}

theorem lasts_rounds (lasts : turn.Avoids calls limit (· = none)) :
    (rounds turn).Avoids calls limit (· = none) :=
  fun level s => (repeat_turns_outcome (lasts level) [] s).1

theorem stays_rounds (lasts : turn.Avoids calls limit (· = none))
    (stop : turn.Stays calls limit (· = some .stop)) : (rounds turn).Stays calls limit (· = some []) := by
  intro level s given
  have later := fun value t => (repeat_turns_outcome (lasts level) [value] t).2 (List.cons_ne_nil _ _)
  have stays := stop level s
  rw [run, repeatTurns] at given ⊢
  generalize turn.run calls limit level s = outcome at given stays ⊢
  obtain ⟨next, t⟩ := outcome
  cases next with
  | none => cases given
  | some next =>
      cases next with
      | stop => exact stays rfl
      | last value => simp at given
      | more value =>
          dsimp only at given ⊢
          by_cases moves : t.cursor.left < s.cursor.left
          · rw [if_pos moves] at given
            exact absurd given (later value t)
          · rw [if_neg moves] at given
            simp at given

theorem many_as_rounds (calls : Rule → Nat → State → Option Node × State) (limit : Nat) (p : Parser α) :
    ∃ turn, many p = rounds turn ∧ turn.Avoids calls limit (· = none) ∧ turn.Stays calls limit (· = some .stop) := by
  refine ⟨_, rfl, avoids_bind (fun _ => lasts_attempt) fun tried => ?_, stays_bind nofun fun tried => ?_⟩
  · cases tried <;> exact avoids_pure (Option.some_ne_none _)
  · cases tried with
    | none => exact .inl ⟨stays_attempt, stays_pure _⟩
    | some a => exact .inr (avoids_pure (by simp))

theorem lasts_many (p : Parser α) : (many p).Avoids calls limit (· = none) := by
  obtain ⟨turn, same, lasts, -⟩ := many_as_rounds calls limit p
  rw [same]
  exact lasts_rounds lasts

theorem stays_many (p : Parser α) : (many p).Stays calls limit (· = some []) := by
  obtain ⟨turn, same, lasts, stop⟩ := many_as_rounds calls limit p
  rw [same]
  exact stays_rounds lasts stop

end Repetition

end Parser

namespace Grammar

open ShellLine.Parser

-- The rules that the program is made of: words with their quotes and expansions, redirections, commands,
-- and compound commands with their clauses.
def rules : List (Σ α : Type, Parser α) :=
  [⟨_, call .word⟩, ⟨_, wordPart false⟩, ⟨_, wordPart true⟩, ⟨_, unquotedLiteral false⟩,
    ⟨_, unquotedLiteral true⟩, ⟨_, singleQuote⟩, ⟨_, doubleQuote⟩, ⟨_, bareEscape⟩, ⟨_, backquote false⟩,
    ⟨_, backquote true⟩, ⟨_, dollarExpansion⟩, ⟨_, arithmeticExpansion⟩, ⟨_, commandExpansion⟩,
    ⟨_, bracedExpansion⟩, ⟨_, stringLength⟩, ⟨_, parameterOperation⟩, ⟨_, bareBracedParameter⟩,
    ⟨_, bracedParameter⟩, ⟨_, plainParameter⟩, ⟨_, namedParameter⟩, ⟨_, call .redirection⟩,
    ⟨_, redirectedDescriptor⟩, ⟨_, assignment⟩, ⟨_, commandWord⟩, ⟨_, simpleCommand⟩,
    ⟨_, functionDefinition⟩, ⟨_, call .command⟩, ⟨_, pipeSequence⟩, ⟨_, pipeline⟩, ⟨_, call .andOr⟩,
    ⟨_, separator false⟩, ⟨_, separator true⟩, ⟨_, termList false⟩, ⟨_, termList true⟩,
    ⟨_, completeCommand⟩, ⟨_, compoundList⟩, ⟨_, compoundCommand⟩, ⟨_, braceGroup⟩, ⟨_, subshell⟩,
    ⟨_, doGroup⟩, ⟨_, forClause⟩, ⟨_, sequentialSeparator⟩, ⟨_, caseClause⟩, ⟨_, caseItem⟩,
    ⟨_, ifClause⟩, ⟨_, elsePart⟩, ⟨_, loopClause "while" .whileLoop⟩,
    ⟨_, loopClause "until" .untilLoop⟩]

section Restoration

variable {calls : Rule → Nat → State → Option Node × State} {limit : Nat}

theorem newlines_restores : newlines.Restores calls limit := by
  refine stays_behind stays_look fun ahead => ?_
  split
  · exact stays_of_avoids (lasts_skip _)
  · exact restores_refuse _

theorem stays_take_while (accepts : Char → Bool) :
    (takeWhile accepts).Stays calls limit (· = some []) := by
  intro level s given
  have taken : s.cursor.rest.take (s.cursor.rest.takeWhile accepts).length = [] := Option.some.inj given
  rw [← List.prefix_iff_eq_take.mp (List.takeWhile_prefix accepts)] at taken
  change s.cursor.advance (s.cursor.rest.takeWhile accepts).length = s.cursor
  rw [taken]
  rfl

theorem restores_take_while_then {α : Type} {accepts : Char → Bool} {next : List Char → Parser α}
    (empty : (next []).Restores calls limit)
    (later : ∀ chars, chars ≠ [] → (next chars).Avoids calls limit (· = none)) :
    (takeWhile accepts >>= next).Restores calls limit := by
  refine stays_bind (fun _ => stays_of_avoids (lasts_take_while accepts)) fun chars => ?_
  cases chars with
  | nil => exact .inl ⟨stays_take_while accepts, empty⟩
  | cons c chars => exact .inr (later _ (List.cons_ne_nil _ _))

theorem unquoted_literal_restores (braced : Bool) : (unquotedLiteral braced).Restores calls limit := by
  refine restores_take_while_then ?_ fun chars nonempty => ?_
  · exact restores_refuse _
  · rw [if_neg nonempty]
    exact avoids_pure (Option.some_ne_none _)

theorem braced_parameter_restores : bracedParameter.Restores calls limit := by
  refine stays_behind stays_look fun ahead => ?_
  split
  · split
    · exact stays_of_avoids (lasts_take_while _)
    · split
      · exact stays_of_avoids (avoids_bind (fun _ => lasts_look) fun _ =>
          avoids_bind (fun _ => lasts_skip _) fun _ => avoids_pure (Option.some_ne_none _))
      · exact restores_or_else (restores_refuse _)
  · exact restores_or_else (restores_refuse _)

theorem named_parameter_restores : namedParameter.Restores calls limit :=
  restores_attempt (fun _ => avoids_pure (Option.some_ne_none _)) <|
    stays_behind (stays_expected _) fun _ => stays_behind (stays_expected _) fun _ => restores_refuse _

theorem dollar_expansion_restores : dollarExpansion.Restores calls limit := by
  refine stays_behind stays_look fun ahead => ?_
  split
  · exact restores_or_else (restores_nested (restores_atomic _))
  · exact restores_nested (restores_atomic _)
  · exact restores_or_else (restores_or_else (restores_atomic _))
  · exact restores_atomic _

theorem word_part_restores (braced : Bool) : (wordPart braced).Restores calls limit := by
  refine stays_behind stays_look fun ahead => ?_
  split
  · exact restores_atomic _
  · exact restores_atomic _
  · exact restores_atomic _
  · exact dollar_expansion_restores
  · exact restores_atomic _
  · exact unquoted_literal_restores braced

theorem compound_list_restores : compoundList.Restores calls limit := restores_nested (restores_atomic _)

theorem compound_command_restores : compoundCommand.Restores calls limit := by
  refine stays_behind stays_look fun ahead => ?_
  split
  any_goals exact restores_atomic _
  exact stays_fail

theorem function_definition_restores : functionDefinition.Restores calls limit := by
  refine stays_behind stays_look fun ahead => ?_
  split
  · exact stays_fail
  · exact restores_atomic _

theorem sequential_separator_restores : sequentialSeparator.Restores calls limit :=
  restores_or_else newlines_restores

theorem separator_restores (lines : Bool) : (separator lines).Restores calls limit := by
  refine restores_or_else (restores_or_else ?_)
  cases lines with
  | false => exact stays_fail
  | true => exact restores_bind newlines_restores fun _ => avoids_pure (Option.some_ne_none _)

theorem simple_command_restores : simpleCommand.Restores calls limit := by
  have others : ∀ {lead : List Node} {first : Node}, (do
      let others ← many (call .redirection <|> call .word)
      return Node.ofNodes .simpleCommand (lead ++ first :: others)).Avoids calls limit (· = none) :=
    avoids_bind (fun _ => lasts_many _) fun _ => avoids_pure (Option.some_ne_none _)
  refine stays_bind (fun _ => stays_of_avoids (lasts_many _)) fun items => ?_
  cases items with
  | nil => exact .inl ⟨stays_many _, restores_attempt (fun _ => others) stays_fail⟩
  | cons item items =>
      refine .inr (avoids_bind (fun _ => lasts_attempt) fun tried => ?_)
      cases tried with
      | none => exact avoids_pure (Option.some_ne_none _)
      | some first => exact others

theorem term_list_restores (lines : Bool) : (termList lines).Restores calls limit := by
  have lasts : (term lines).Avoids calls limit (· = none) := by
    refine avoids_bind (fun _ => lasts_attempt) fun tried => ?_
    cases tried with
    | none => exact avoids_pure (Option.some_ne_none _)
    | some node =>
        refine avoids_bind (fun _ => lasts_attempt) fun sign => ?_
        split <;> exact avoids_pure (Option.some_ne_none _)
  have stop : (term lines).Stays calls limit (· = some .stop) := by
    refine stays_bind nofun fun tried => ?_
    cases tried with
    | none => exact .inl ⟨stays_attempt, stays_pure _⟩
    | some node =>
        refine .inr (avoids_bind nofun fun sign => ?_)
        split <;> exact avoids_pure (by simp)
  refine stays_bind (fun _ => stays_of_avoids (lasts_rounds lasts)) fun terms => ?_
  rcases terms with - | ⟨only, - | ⟨second, others⟩⟩
  · exact .inl ⟨stays_rounds lasts stop, stays_fail⟩
  · exact .inr (avoids_pure (Option.some_ne_none _))
  · exact .inr (avoids_pure (Option.some_ne_none _))

variable (called : ∀ rule, (call rule).Restores calls limit)
include called

theorem command_word_restores : commandWord.Restores calls limit := by
  refine stays_behind stays_look fun ahead => ?_
  split
  · exact restores_refuse _
  · exact called .word

theorem pipe_sequence_restores : pipeSequence.Restores calls limit := by
  refine restores_bind (called .command) fun first => avoids_bind (fun _ => lasts_many _) fun others => ?_
  cases others <;> exact avoids_pure (Option.some_ne_none _)

theorem rules_restore : ∀ rule ∈ rules, rule.2.Restores calls limit := by
  simp only [rules, List.forall_mem_cons, List.not_mem_nil, false_implies, implies_true, and_true]
  exact ⟨called .word, word_part_restores false, word_part_restores true, unquoted_literal_restores false,
    unquoted_literal_restores true, restores_atomic _, restores_atomic _, restores_atomic _,
    restores_atomic _, restores_atomic _, dollar_expansion_restores, restores_nested (restores_atomic _),
    restores_nested (restores_atomic _), restores_or_else (restores_or_else (restores_atomic _)),
    restores_atomic _, restores_atomic _, restores_atomic _, braced_parameter_restores, restores_atomic _,
    named_parameter_restores, called .redirection, restores_atomic _, restores_atomic _,
    command_word_restores called, simple_command_restores, function_definition_restores, called .command,
    pipe_sequence_restores called, restores_atomic _, called .andOr, separator_restores false,
    separator_restores true, term_list_restores false, term_list_restores true,
    restores_bind (term_list_restores false) fun _ => avoids_pure (Option.some_ne_none _),
    compound_list_restores, compound_command_restores, restores_atomic _, restores_atomic _,
    restores_atomic _, restores_atomic _, sequential_separator_restores, restores_atomic _,
    restores_atomic _, restores_atomic _, restores_atomic _, restores_atomic _, restores_atomic _⟩

end Restoration

end Grammar

section Engine

variable {mode : Mode}

-- A result that is kept is replayed without a step; else the rule goes back when it fails.
theorem evaluate_restores (rule : Rule) :
    (Parser.call rule).Restores (evaluate grammar mode) mode.limit := by
  intro level s given
  change (evaluate grammar mode rule level s).1 = none at given
  change (evaluate grammar mode rule level s).2.cursor = s.cursor
  cases kept : mode.kept? rule s with
  | some entry =>
      rw [evaluate_kept kept] at given ⊢
      cases entry with
      | none => rfl
      | some => cases given
  | none =>
      rw [evaluate_unkept kept] at given ⊢
      rw [record_value] at given
      rw [given, Mode.record]
      split <;> rfl

/-- Failure leaves the engine where it was. Whatever state and depth the engine has when a rule is tried,
it does with its counter what it does with the level as an argument; a rule that fails leaves the place as
it was; and a rule that fails or not leaves the depth as it was, while the table only gains results, the
mark of too deep a nesting stays, and the record of failures moves to the right or keeps what it has. -/
theorem rules_leave_the_engine (mode : Mode) (rule : Σ α : Type, Parser α) (listed : rule ∈ Grammar.rules)
    (engine : Engine) :
    let outcome := Engine.run (Engine.evaluate grammar mode) mode.limit rule.2 engine
    outcome = Engine.atDepth engine.depth
        (rule.2.run (evaluate grammar mode) mode.limit engine.depth engine.state) ∧
      (outcome.1 = none → outcome.2.state.cursor = engine.state.cursor) ∧
      outcome.2.depth = engine.depth ∧
      engine.state.Keeps outcome.2.state ∧
      (engine.state.tooDeep = true → outcome.2.state.tooDeep = true) ∧
      outcome.2.state.failure.cursor.left ≤ engine.state.failure.cursor.left ∧
      (outcome.2.state.failure.cursor.left = engine.state.failure.cursor.left →
        engine.state.failure.expected <:+ outcome.2.state.failure.expected) := by
  have agrees := Engine.run_evaluate_at_depth grammar mode rule.2 engine
  have grows : engine.state.Grows (rule.2.run (evaluate grammar mode) mode.limit engine.depth engine.state).2 :=
    run_grows rule.2 engine.depth engine.state
  have called : ∀ rule, (Parser.call rule).Restores (evaluate grammar mode) mode.limit := evaluate_restores
  have restores := Grammar.rules_restore called rule listed engine.depth engine.state
  dsimp only
  rw [agrees]
  exact ⟨rfl, restores, rfl, grows.table, grows.deep, grows.failure.left, grows.failure.expected⟩

-- A group that is refused for its depth has already passed over its brace.
theorem refused_group_leaves_the_engine :
    ⟨Node, Grammar.braceGroup⟩ ∈ Grammar.rules ∧
      let before : Engine := ⟨2, .start "{ a; }".toList⟩
      let outcome := Engine.run (Engine.evaluate grammar ⟨true, 2⟩) 2 Grammar.braceGroup before
      outcome.1 = none ∧ outcome.2.state.cursor = before.state.cursor ∧ outcome.2.depth = 2 ∧
        outcome.2.state.tooDeep = true := by
  have listed : ⟨Node, Grammar.braceGroup⟩ ∈ Grammar.rules := List.mem_of_getElem? (i := 37) rfl
  obtain ⟨-, restored, depth, -⟩ :=
    rules_leave_the_engine ⟨true, 2⟩ ⟨Node, Grammar.braceGroup⟩ listed ⟨2, .start "{ a; }".toList⟩
  exact ⟨listed, rfl, restored rfl, depth, rfl⟩

end Engine

end ShellLine
