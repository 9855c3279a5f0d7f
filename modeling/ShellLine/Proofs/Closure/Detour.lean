import ShellLine.Proofs.Closure.Region

set_option autoImplicit false

namespace ShellLine.Closure

open ShellLine.Parser Grammar

variable {goal : Cursor} {bound : Nat}

def RulesStay (goal : Cursor) (bound : Nat) : Prop :=
  ∀ rule, rule ≠ .operand → Stays goal bound (call rule)

theorem stays_call {rule : Rule} (stays : Stays goal bound (grammar rule)) :
    Stays goal bound (call rule) :=
  fun c node d near region read => stays c node d near region ((reads_call rule c d node).mp read)

section Lists

variable (dead : DeadEnd goal)

include dead

theorem stays_separator (lines : Bool) : Stays goal bound (separator lines) := by
  have more : Stays goal bound (if lines then lineBreak else return () : Parser Unit) := by
    split
    · exact stays_line_break dead
    · exact stays_pure _
  refine stays_or_else ?_ (stays_or_else ?_ ?_)
  · exact stays_bind (stays_lone dead (by decide)) fun _ => stays_bind more fun _ => stays_pure _
  · exact stays_bind (stays_lone dead (by decide)) fun _ => stays_bind more fun _ => stays_pure _
  · split
    · exact stays_bind (stays_newlines dead) fun _ => stays_pure _
    · exact stays_fail

theorem stays_term (chains : Stays goal bound (call .andOr)) (lines : Bool) :
    Stays goal bound (term lines) := by
  refine stays_bind (stays_attempt chains) fun tried => ?_
  cases tried with
  | none => exact stays_pure _
  | some node =>
      refine stays_bind (stays_attempt (stays_separator dead lines)) fun separated => ?_
      cases separated with
      | none => exact stays_pure _
      | some kind => cases kind <;> exact stays_pure _

theorem stays_term_list (chains : Stays goal bound (call .andOr)) (lines : Bool) :
    Stays goal bound (termList lines) := by
  refine stays_bind (stays_rounds (stays_term dead chains lines)) fun terms => ?_
  match terms with
  | [] => exact stays_fail
  | [only] => exact stays_pure only
  | first :: second :: others => exact stays_pure _

theorem stays_compound_list (chains : Stays goal bound (call .andOr)) : Stays goal bound compoundList :=
  stays_nested (stays_atomic (stays_bind (stays_line_break dead) fun _ => stays_term_list dead chains true))

end Lists

section Compound

variable (dead : DeadEnd goal)

include dead

theorem stays_do_group (rules : RulesStay goal bound) : Stays goal bound doGroup :=
  stays_atomic (stays_bind (stays_keyword dead (by decide)) fun _ =>
    stays_bind (stays_compound_list dead (rules .andOr (by decide))) fun _ =>
      stays_bind (stays_keyword dead (by decide)) fun _ => stays_pure _)

theorem stays_sequential_separator : Stays goal bound sequentialSeparator :=
  stays_or_else (stays_bind (stays_lone dead (by decide)) fun _ => stays_line_break dead) (stays_newlines dead)

theorem stays_in_clause (rules : RulesStay goal bound) : Stays goal bound inClause :=
  stays_bind (stays_line_break dead) fun _ => stays_bind (stays_keyword dead (by decide)) fun _ =>
    stays_bind (stays_many (rules .word (by decide))) fun _ =>
      stays_bind (stays_sequential_separator dead) fun _ => stays_pure _

theorem stays_item_end (item : Node) : Stays goal bound (do
    match ← attempt (operator ";;") with
    | some () =>
        lineBreak
        return Turn.more item
    | none => return .last item) := by
  refine stays_bind (stays_attempt (stays_operator dead rfl (by decide))) fun tried => ?_
  cases tried with
  | none => exact stays_pure _
  | some _ => exact stays_bind (stays_line_break dead) fun _ => stays_pure _

theorem stays_case_item (rules : RulesStay goal bound) : Stays goal bound caseItem := by
  have pattern : Stays goal bound nextPattern :=
    stays_bind (stays_lone dead (by decide)) fun _ => rules .word (by decide)
  refine stays_atomic (stays_bind (stays_optional (stays_operator dead rfl (by decide))) fun _ => ?_)
  refine stays_bind (rules .word (by decide)) fun first => stays_bind (stays_many pattern) fun others => ?_
  refine stays_bind (stays_closing dead) fun _ => ?_
  refine stays_bind (stays_attempt (stays_compound_list dead (rules .andOr (by decide)))) fun body => ?_
  cases body with
  | none => exact stays_bind (stays_line_break dead) fun _ => stays_item_end dead _
  | some _ => exact stays_item_end dead _

theorem stays_case_items (rules : RulesStay goal bound) : Stays goal bound caseItems := by
  refine stays_rounds (stays_bind (stays_attempt (stays_case_item dead rules)) fun tried => ?_)
  cases tried <;> exact stays_pure _

theorem stays_else_part (rules : RulesStay goal bound) : Stays goal bound elsePart := by
  refine stays_atomic (stays_bind (stays_attempt (stays_keyword dead (by decide))) fun tried => ?_)
  cases tried with
  | some _ => exact stays_bind (rules .conditional (by decide)) fun _ => stays_pure _
  | none =>
      exact stays_bind (stays_keyword dead (by decide)) fun _ =>
        stays_bind (stays_compound_list dead (rules .andOr (by decide))) fun _ => stays_pure _

theorem stays_conditional (rules : RulesStay goal bound) (chains : Stays goal (bound + 1) (call .andOr)) :
    Stays goal (bound + 1) conditional :=
  stays_bind (stays_compound_list dead chains) fun _ =>
    stays_behind (keyword_text_moves (by decide)) (stays_keyword dead (by decide)) fun _ =>
      stays_bind (stays_compound_list dead (rules .andOr (by decide))) fun _ =>
        stays_bind (stays_attempt (stays_else_part dead rules)) fun _ => stays_pure _

theorem stays_behind_keyword {α : Type} {word : String} {next : Unit → Parser α}
    (known : word ∈ reservedWords) (later : ∀ u, Stays goal bound (next u)) :
    Stays goal (bound + 1) (atomic (keyword word >>= next)) := by
  have nonempty := (by decide : ∀ word ∈ reservedWords, word.toList ≠ []) word known
  exact stays_atomic (stays_behind (keyword_text_moves nonempty) (stays_keyword dead known) later)

theorem stays_compound_command (rules : RulesStay goal bound) : Stays goal (bound + 1) compoundCommand := by
  have list : Stays goal bound compoundList := stays_compound_list dead (rules .andOr (by decide))
  have loop : ∀ word kind, word ∈ reservedWords → Stays goal (bound + 1) (loopClause word kind) :=
    fun word kind known => stays_behind_keyword dead known fun _ => stays_bind list fun _ =>
      stays_bind (stays_do_group dead rules) fun _ => stays_pure _
  refine stays_look fun text => ?_
  split
  · exact stays_behind_keyword dead (by decide) fun _ => stays_bind list fun _ =>
      stays_bind (stays_keyword dead (by decide)) fun _ => stays_pure _
  · exact stays_atomic (stays_behind (operator_text_moves (by decide)) (stays_operator dead rfl (by decide))
      fun _ => stays_bind list fun _ => stays_bind (stays_closing dead) fun _ => stays_pure _)
  · refine stays_behind_keyword dead (by decide) fun _ => stays_bind (stays_name dead) fun parameter => ?_
    refine stays_bind (stays_blanks dead) fun _ => ?_
    refine stays_bind (stays_attempt (stays_in_clause dead rules)) fun words => ?_
    cases words with
    | none =>
        exact stays_bind (stays_optional (stays_sequential_separator dead)) fun _ =>
          stays_bind (stays_do_group dead rules) fun _ => stays_pure _
    | some _ => exact stays_bind (stays_do_group dead rules) fun _ => stays_pure _
  · exact stays_behind_keyword dead (by decide) fun _ => stays_bind (rules .word (by decide)) fun _ =>
      stays_bind (stays_line_break dead) fun _ => stays_bind (stays_keyword dead (by decide)) fun _ =>
        stays_bind (stays_line_break dead) fun _ => stays_bind (stays_case_items dead rules) fun _ =>
          stays_bind (stays_keyword dead (by decide)) fun _ => stays_pure _
  · exact stays_behind_keyword dead (by decide) fun _ => stays_bind (rules .conditional (by decide)) fun _ =>
      stays_bind (stays_keyword dead (by decide)) fun _ => stays_pure _
  · exact loop _ _ (by decide)
  · exact loop _ _ (by decide)
  · exact stays_fail

end Compound

section Commands

variable (dead : DeadEnd goal)

include dead

theorem stays_word : Stays goal bound word := by
  refine stays_bind (stays_parts dead) fun parts => ?_
  cases parts with
  | nil => exact stays_fail
  | cons first others => exact stays_bind (stays_blanks dead) fun _ => stays_pure _

theorem stays_simple_command : Stays goal bound simpleCommand := by
  have redirections : Stays goal bound (call .redirection) := stays_call (stays_redirection dead)
  have words : Stays goal bound (call .word) := stays_call (stays_word dead)
  have named : Stays goal bound commandWord := by
    refine stays_look fun text => ?_
    split
    · exact stays_refuse _
    · exact words
  refine stays_bind (stays_many (stays_or_else redirections (stays_assignment dead))) fun items => ?_
  refine stays_bind (stays_attempt named) fun first => ?_
  cases first with
  | some _ => exact stays_bind (stays_many (stays_or_else redirections words)) fun _ => stays_pure _
  | none =>
      dsimp only
      split
      · exact stays_fail
      · exact stays_pure _

theorem stays_with_redirections (compound : Node) : Stays goal bound (withRedirections compound) :=
  stays_bind (stays_many (stays_call (stays_redirection dead))) fun _ => stays_pure _

theorem stays_function_definition (rules : RulesStay goal bound) :
    Stays goal (bound + 1) functionDefinition := by
  refine stays_look fun text => ?_
  split
  · exact stays_fail
  · refine stays_atomic (stays_bind (stays_name dead) fun _ => stays_bind (stays_blanks dead) fun _ => ?_)
    refine stays_bind (stays_operator dead rfl (by decide)) fun _ => ?_
    refine stays_bind (stays_closing dead) fun _ => stays_bind (stays_line_break dead) fun _ => ?_
    exact stays_bind (stays_compound_command dead rules) fun compound =>
      stays_bind (stays_with_redirections dead compound) fun _ => stays_pure _

theorem stays_command (rules : RulesStay goal bound) : Stays goal (bound + 1) command :=
  stays_or_else (stays_function_definition dead rules)
    (stays_or_else (stays_bind (stays_compound_command dead rules) fun compound =>
      stays_with_redirections dead compound) (stays_simple_command dead))

theorem stays_pipeline (commands : Stays goal bound (call .command)) : Stays goal bound pipeline := by
  have stage : Stays goal bound nextStage :=
    stays_bind (stays_lone dead (by decide)) fun _ => stays_bind (stays_line_break dead) fun _ => commands
  have sequence : Stays goal bound pipeSequence := by
    refine stays_bind commands fun first => stays_bind (stays_many stage) fun others => ?_
    cases others <;> exact stays_pure _
  exact stays_atomic (stays_bind (stays_attempt (stays_keyword dead (by decide))) fun _ =>
    stays_bind sequence fun _ => stays_pure _)

theorem stays_and_or (commands : Stays goal bound (call .command)) : Stays goal bound andOr := by
  have pipelines : Stays goal bound pipeline := stays_pipeline dead commands
  have link : Stays goal bound andOrLink := by
    refine stays_bind (stays_or_else ?_ ?_) fun kind => ?_
    · exact stays_bind (stays_operator dead rfl (by decide)) fun _ => stays_pure _
    · exact stays_bind (stays_operator dead rfl (by decide)) fun _ => stays_pure _
    · exact stays_bind (stays_line_break dead) fun _ => stays_bind pipelines fun _ => stays_pure _
  exact stays_bind pipelines fun _ => stays_bind (stays_many link) fun _ => stays_pure _

theorem rules_stay (bound : Nat) : RulesStay goal bound := by
  induction bound with
  | zero => exact fun _ _ _ _ _ near => absurd near (Nat.not_lt_zero _)
  | succ bound rules =>
      have commands : Stays goal (bound + 1) (call .command) := stays_call (stays_command dead rules)
      have chains : Stays goal (bound + 1) (call .andOr) := stays_call (stays_and_or dead commands)
      intro rule other
      cases rule with
      | word => exact stays_call (stays_word dead)
      | redirection => exact stays_call (stays_redirection dead)
      | operand => exact absurd rfl other
      | command => exact commands
      | andOr => exact chains
      | conditional => exact stays_call (stays_conditional dead rules chains)

end Commands

section Subshells

variable {c d e : Cursor}

def StartsWithSubshell (c d : Cursor) : Prop :=
  ∃ e inner f g, (operator "(").Reads c () e ∧ compoundList.Reads e inner f ∧
    (operator ")").Reads f () g ∧ d.rest <:+ g.rest

theorem StartsWithSubshell.later (starts : StartsWithSubshell c d) (behind : e.rest <:+ d.rest) :
    StartsWithSubshell c e := by
  obtain ⟨f, inner, g, h, opened, list, closing, suffix⟩ := starts
  exact ⟨f, inner, g, h, opened, list, closing, behind.trans suffix⟩

theorem not_keyword_at_paren {word : String} (paren : c.rest.head? = some '(')
    (known : word ∈ reservedWords) : ¬ (keyword word).Reads c () d := by
  intro read
  obtain ⟨nonempty, other⟩ := (by decide : ∀ word ∈ reservedWords, word.toList ≠ [] ∧
    word.toList.head? ≠ some '(') word known
  have start := starts_of_starts_reserved _ _ ((gives_keyword _ _ _ _).mp read).1
  exact other ((head_of_start start nonempty).symm.trans paren)

theorem subshell_at_paren {node : Node} (paren : c.rest.head? = some '(')
    (form : CompoundForm (reading grammar) c node d) : StartsWithSubshell c d := by
  cases form with
  | subshell opened list closing => exact ⟨_, _, _, _, opened, list, closing, List.suffix_refl _⟩
  | braceGroup opened => exact absurd opened (not_keyword_at_paren paren (by decide))
  | forLoop opened => exact absurd opened (not_keyword_at_paren paren (by decide))
  | caseChoice opened => exact absurd opened (not_keyword_at_paren paren (by decide))
  | ifChoice opened => exact absurd opened (not_keyword_at_paren paren (by decide))
  | @loop _ _ _ word kind _ _ repeated opened =>
      have known := (by decide : ∀ pair ∈ [("while", Kind.whileLoop), ("until", .untilLoop)],
        pair.1 ∈ reservedWords) _ repeated
      exact absurd opened (not_keyword_at_paren paren known)

theorem command_at_paren {node : Node} (paren : c.rest.head? = some '(')
    (read : (call .command).Reads c node d) : StartsWithSubshell c d := by
  rcases (gives_or_else _ _ _ _ _).mp ((reads_call .command c d node).mp read) with defined | ⟨-, read⟩
  · refine absurd (rejects_function_definition ?_) (not_fails_of_gives defined)
    rw [paren]
    rfl
  · rcases (gives_or_else _ _ _ _ _).mp read with grouped | ⟨-, simple⟩
    · obtain ⟨compound, e, given, redirected⟩ := (gives_bind _ _ _ _ _).mp grouped
      exact (subshell_at_paren paren (compound_command_form given)).later (reads_forward redirected)
    · refine absurd (rejects_simple_at_sign ?_) (not_fails_of_gives simple)
      rw [AtSign, paren]
      rfl

theorem chain_at_paren {node : Node} (paren : c.rest.head? = some '(')
    (read : (call .andOr).Reads c node d) : StartsWithSubshell c d := by
  obtain ⟨first, e, given, links⟩ := (gives_bind _ _ _ _ _).mp ((reads_call .andOr c d node).mp read)
  refine StartsWithSubshell.later ?_ (reads_forward links)
  rw [pipeline, gives_atomic] at given
  rcases (gives_attempt_bind _ _ _ _ _).mp given with ⟨_, f, opened, -⟩ | ⟨-, later⟩
  · exact absurd opened (not_keyword_at_paren paren (by decide))
  · obtain ⟨stages, f, sequence, made⟩ := (gives_bind _ _ _ _ _).mp later
    obtain ⟨command, g, commandRead, others⟩ := (gives_bind _ _ _ _ _).mp sequence
    have behind := (reads_forward made).trans (reads_forward others)
    exact (command_at_paren paren commandRead).later behind

theorem list_at_paren {lines : Bool} {node : Node} (paren : c.rest.head? = some '(')
    (read : (termList lines).Reads c node d) : StartsWithSubshell c d := by
  have term : ∀ {turn : Turn Node} {e : Cursor}, (term lines).Reads c turn e → turn ≠ .stop →
      StartsWithSubshell c e := by
    intro turn e read goes
    rcases (gives_attempt_bind _ _ _ _ _).mp read with ⟨first, f, given, later⟩ | ⟨-, stopped⟩
    · exact (chain_at_paren paren given).later (reads_forward later)
    · exact absurd ((gives_pure _ _ _ _).mp stopped).1.symm goes
  obtain ⟨terms, e, turns, later⟩ := (gives_bind _ _ _ _ _).mp read
  refine StartsWithSubshell.later ?_ (reads_forward later)
  cases (gives_rounds _ _ _ _).mp turns with
  | stop _ => cases later
  | last given => exact term given nofun
  | halt given _ => exact term given nofun
  | more given _ others =>
      exact (term given nofun).later (reads_forward ((gives_rounds _ _ _ _).mpr others))

theorem rejects_command_expansion_at_words {rest : List Char} (dead : DeadEnd goal)
    (uncommented : '#' ∉ c.rest) (here : c.rest = '$' :: '(' :: '(' :: rest)
    (toward : Toward goal (c.advance 3).pastBlanks) : commandExpansion.Rejects c := by
  rcases gives_or_fails (reading grammar) commandExpansion c with ⟨node, d, read⟩ | rejected
  · have opened : (c.advance 2).rest = '(' :: rest := rest_skip_pair here
    have paren : (c.advance 2).rest.head? = some '(' := congrArg List.head? opened
    have idle : (c.advance 2).pastBlanks.pastBreak = c.advance 2 := by
      have none : (c.advance 2).pastBlanks = c.advance 2 := by
        apply Cursor.ext_rest
        rw [Cursor.pastBlanks, opened, layoutLength, Cursor.rest_advance, opened]
        · rfl
        all_goals simp
      rw [none, Cursor.pastBreak, if_neg]
      rw [paren]
      decide
    simp only [commandExpansion, gives_nested, gives_atomic, gives_bind, gives_skip, gives_blanks,
      gives_line_break, gives_literal] at read
    obtain ⟨_, _, rfl, _, _, rfl, _, _, rfl, commands, e, list, _, _, rfl, _, f, ⟨closing, -⟩, -⟩ := read
    rw [idle] at list
    obtain ⟨g, inner, h, k, opens, body, closes, suffix⟩ : StartsWithSubshell (c.advance 2) e := by
      cases complete_commands_form list with
      | none =>
          rw [Cursor.pastBreak, paren, if_neg (by decide)] at closing
          cases paren.symm.trans (head_of_start closing (by decide))
      | some given items =>
          obtain ⟨only, terms, -⟩ := complete_command_form given
          exact (list_at_paren paren terms).later (reads_forward ((gives_many _ _ _ _).mpr items))
    have inside : Region goal g := by
      obtain ⟨-, rfl⟩ := (gives_operator _ _ _ _).mp opens
      have same : (c.advance 2).advance "(".length = c.advance 3 := by
        apply Cursor.ext_rest
        rw [Cursor.rest_advance, Cursor.rest_advance, Cursor.rest_advance, List.drop_drop]
        rfl
      rw [same]
      refine ⟨fun member => uncommented ?_, Or.inl toward⟩
      exact ((Cursor.advance_suffix _ _).trans (c.advance_suffix 3)).subset member
    have chains := rules_stay dead (g.left + 1) .andOr (by decide)
    have behind := stays_compound_list dead chains g inner h (Nat.lt_succ_self _) inside body
    have whole : e.pastBreak.rest = [] := by
      have ended : k.rest = [] := by
        rcases behind.place with between | whole
        · exact ends_behind_closing dead between closes
        · exact List.suffix_nil.mp (whole ▸ reads_forward closes)
      have empty : e.rest = [] := List.suffix_nil.mp (ended ▸ suffix)
      rw [Cursor.pastBreak, empty, if_neg (by simp), empty]
    rw [whole] at closing
    simp at closing
  · exact rejected

end Subshells

end ShellLine.Closure
