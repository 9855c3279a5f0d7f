import ShellLine.Proofs.Grammar.Command
import ShellLine.Proofs.Lines.Compound

set_option autoImplicit false

namespace ShellLine.Lines

open ShellLine.Parser Grammar

variable {bound : Nat} {c d : Cursor}

theorem agrees_with_redirections {compound compound' : Node}
    (count : compound.kind ∉ [.word, .simpleCommand]) (same : Alike compound compound') (twin : Twin c d) :
    Agrees bound Twin Alike (withRedirections compound) (withRedirections compound') c d :=
  agrees_bind (agrees_many (call_moves redirection_moves) (call_moves redirection_moves) twin
    fun _ _ => agrees_lead_redirection) fun _ _ _ _ each last =>
      agrees_pure (alike_append count same each) last

theorem agrees_compound (rules : RulesAgree bound) (twin : Twin c d) :
    Agrees bound Twin (fun a b => Alike a b ∧ a.kind ∉ [.word, .simpleCommand]) compoundCommand
      compoundCommand c d := by
  refine agrees_told (agrees_compound_command rules twin) fun compound compound' _ _ read _ same behind => ?_
  have feature := compound_form_feature (compound_command_form read)
  refine ⟨⟨same, fun count => ?_⟩, behind⟩
  simp only [List.mem_cons, List.not_mem_nil, or_false] at count
  rcases count with kind | kind <;> cases kind ▸ feature

section FunctionDefinition

theorem defines_iff {text : List Char} : (opening text).defines = true ↔
    text.head?.any startsName = true ∧
      (behindLayout (text.dropWhile continuesName)).head? = some '(' := by
  simp [opening]

def pastName (c : Cursor) : Cursor := (c.advance (c.rest.takeWhile continuesName).length).pastBlanks

theorem rest_past_name (c : Cursor) :
    (pastName c).rest = behindLayout (c.rest.dropWhile continuesName) := by
  rw [pastName, Cursor.pastBlanks, Cursor.rest_advance, rest_advance_take_while]
  rfl

theorem idle_at_name {text : List Char} {ch : Char} (clean : '#' ∉ text) (head : text.head? = some ch)
    (continues : continuesName ch = true) : layoutLength false false text = 0 := by
  refine (idle_iff clean).mpr ⟨?_, fun other same => ?_⟩
  · rintro ⟨rest, rfl⟩
    cases head
    cases continues
  · cases head.symm.trans same
    cases blank : isBlank false ch with
    | false => rfl
    | true =>
        simp only [isBlank, Bool.false_and, Bool.or_false, Bool.or_eq_true, decide_eq_true_eq] at blank
        rcases blank with rfl | rfl <;> cases continues

-- A name in front of a parenthesis does not grow where lines are joined behind it.
theorem abreast_past_name {role : Role} (here : Abreast role c d) (defines : (opening c.rest).defines = true) :
    ∃ next, Abreast next (pastName c) (pastName d) := by
  obtain ⟨starts, opens⟩ := defines_iff.mp defines
  have noPair : ¬ ['\\', '\n'] <+: behindLayout (c.rest.dropWhile continuesName) := by
    rintro ⟨rest, whole⟩
    simp [← whole] at opens
  have clean : '#' ∉ c.rest.dropWhile continuesName := fun member =>
    here.uncommented ((List.dropWhile_suffix continuesName).subset member)
  have chars : d.rest.takeWhile continuesName = c.rest.takeWhile continuesName := by
    refine take_while_along here.toAlong (fun ch name => (plain_of_name ch name).1) fun ch joins => ?_
    cases continues : continuesName ch with
    | false => rfl
    | true =>
        -- With only layout in front of the parenthesis, the name would go on with that.
        have joined := join_behind_layout false clean
        rw [idle_at_name (fun member => clean (mem_of_mem_join member)) joins continues,
          List.drop_zero] at joined
        have paren := (congrArg List.head? joined).trans ((head_join noPair).trans opens)
        cases joins.symm.trans paren
        cases continues
  have past := along_past_run here.toAlong plain_of_name (name_ne_nil starts)
  obtain ⟨next, position⟩ := behind_word_role (Position.mk role false) c.rest
  rw [position] at past
  refine ⟨next, ?_⟩
  obtain ⟨rest, whole⟩ := List.head?_eq_some_iff.mp ((congrArg List.head? (rest_past_name c)).trans opens)
  rw [pastName, pastName, chars]
  obtain ⟨idle, fresh | ⟨inside, -⟩⟩ := along_behind_blanks past
  · exact ⟨fresh, idle⟩
  · refine ⟨along_again inside ?_, idle⟩
    change Uncut _ _ (pastName c).rest
    rw [whole]
    exact uncut_at_delimiter rfl (whole ▸ inside.uncut)

theorem agrees_function_definition (rules : RulesAgree bound) (twin : Twin c d) :
    Agrees bound Twin Alike functionDefinition functionDefinition c d := by
  refine agrees_look ?_
  simp only [reserved_ahead_twin twin]
  split
  · exact agrees_fail
  refine agrees_atomic (agrees_name (twin_head twin) fun starts => agrees_blanks ?_)
  have same := congrArg Opening.defines (twin_opening twin)
  cases defines : (opening c.rest).defines with
  | false =>
      have noOpen : ∀ e : Cursor, (opening e.rest).defines = false → e.rest.head?.any startsName = true →
          (operator "(").Rejects (pastName e) := by
        intro e plain named
        refine (fails_operator "(" _).mpr fun here => ?_
        rw [rest_past_name] at here
        cases plain.symm.trans (defines_iff.mpr ⟨named, lone_start_iff.mp here⟩)
      exact agrees_stop (noOpen c defines starts)
        (noOpen d (same.trans defines) (by rwa [twin_head twin])) (level_operator _ _)
  | true =>
      obtain ⟨next, behind⟩ := abreast_past_name twin.argument defines
      refine agrees_bind (agrees_operator (by decide) behind) fun _ _ e f _ opened => ?_
      refine agrees_bind (agrees_operator (by decide) opened.argument) fun _ _ g h _ closed => ?_
      refine agrees_bind (agrees_line_break closed) fun _ _ i j _ inner => ?_
      refine agrees_bind (agrees_compound rules inner) fun compound compound' k l given both => ?_
      refine agrees_bind (agrees_with_redirections given.2 given.1 both) ?_
      intro body body' m n same last
      refine agrees_pure (alike_of_nodes (by decide) (.cons ?_ (.cons same .nil))) last
      exact alike_of_contents (by decide) rfl

end FunctionDefinition

section Simple

theorem agrees_command_word (twin : Twin c d) :
    Agrees bound (Abreast .argument) Alike commandWord commandWord c d := by
  refine agrees_look ?_
  simp only [reserved_ahead_twin twin]
  split
  · exact agrees_refuse _
  · exact agrees_call_word twin.argument

theorem agrees_leads (twin : Twin c d) :
    Agrees bound Twin (List.Forall₂ Alike) (many leadItem) (many leadItem) c d :=
  agrees_many lead_item_moves lead_item_moves twin fun _ _ both =>
    agrees_or_else (agrees_lead_redirection both) (agrees_assignment both)

theorem no_word_starts (unexpanded : Unexpanded c.rest) (rejected : (call .word).Rejects c) :
    startsWord c.rest = false := by
  have missing := (rejects_call .word c).mp rejected
  obtain ⟨parts, e, items⟩ := items_exist (reading grammar) (wordPart false) c
  cases parts with
  | nil => exact (parts_nil_iff unexpanded items).mp rfl
  | cons first others =>
      have given : Grammar.word.Reads c (.ofNodes .word (first :: others)) e.pastBlanks := by
        simp only [Grammar.word, wordParts, Reads, gives_bind, gives_many]
        exact ⟨first :: others, e, items, by simp⟩
      exact absurd missing (not_fails_of_gives given)

theorem rejects_redirection_of_argument (rejected : argumentItem.Rejects c) : redirection.Rejects c :=
  (rejects_call .redirection c).mp ((fails_or_else _ _ _).mp rejected).1

-- Arguments end where a command may start, or at a redirection that cannot be read.
theorem twin_behind_arguments (here : Abreast .argument c d) (rejected : argumentItem.Rejects c)
    (other : argumentItem.Rejects d) : Twin c d := by
  have stuck := no_word_starts here.unexpanded ((fails_or_else _ _ _).mp rejected).2
  rcases uncut_or_delimiter here.unexpanded stuck with free | ⟨ch, rest, whole, delimiter⟩
  · exact twin_of_command ⟨along_again here.toAlong (free _ _), here.idle⟩
  · have sorts : ∀ ch ∈ [' ', '\t', '\n', ';', '&', '|', '<', '>', '(', ')'],
        isBlank false ch = true ∨ ch = '<' ∨ ch = '>' ∨ ch ∈ separators := by decide
    have head : c.rest.head? = some ch := by rw [whole]; rfl
    rcases sorts ch (by simpa [isDelimiter] using delimiter) with blank | sign | sign | separates
    · cases blank.symm.trans (((idle_iff here.uncommented).mp here.idle).2 ch head)
    · exact .halted here (Or.inl (sign ▸ head)) (rejects_redirection_of_argument rejected)
        (rejects_redirection_of_argument other)
    · exact .halted here (Or.inr (sign ▸ head)) (rejects_redirection_of_argument rejected)
        (rejects_redirection_of_argument other)
    · exact twin_of_command (abreast_at_separator separates head here)

theorem agrees_arguments (here : Abreast .argument c d) :
    Agrees bound Twin (List.Forall₂ Alike) (many argumentItem) (many argumentItem) c d := by
  have items : Agrees bound (Abreast .argument) (List.Forall₂ Alike) (many argumentItem)
      (many argumentItem) c d :=
    agrees_many argument_item_moves argument_item_moves here fun _ _ both =>
      agrees_or_else (agrees_argument_redirection both) (agrees_call_word both)
  refine agrees_told items fun _ _ _ _ read read' same behind => ⟨same, ?_⟩
  exact twin_behind_arguments behind (items_stop argument_item_moves ((gives_many _ _ _ _).mp read))
    (items_stop argument_item_moves ((gives_many _ _ _ _).mp read'))

theorem agrees_simple_command (twin : Twin c d) : Agrees bound Twin Alike simpleCommand simpleCommand c d := by
  refine agrees_bind (agrees_leads twin) fun items items' e f leads both => ?_
  have empty : items = [] ↔ items' = [] := by cases leads <;> simp
  have lead : List.Forall₂ Alike (if items = [] then [] else [Node.ofNodes .commandLead items])
      (if items' = [] then [] else [Node.ofNodes .commandLead items']) := by
    by_cases none : items = []
    · rw [if_pos none, if_pos (empty.mp none)]
      exact .nil
    · rw [if_neg none, if_neg (mt empty.mpr none)]
      exact .cons (alike_of_nodes (by decide) leads) .nil
  refine agrees_attempt_bind (agrees_command_word both) ?_ fun first first' g h named behind => ?_
  · by_cases none : items = []
    · simp only [if_pos none, if_pos (empty.mp none)]
      exact agrees_fail
    · simp only [if_neg none, if_neg (mt empty.mpr none)] at lead ⊢
      exact agrees_pure (alike_simple_command lead) both
  · exact agrees_bind (agrees_arguments behind) fun _ _ _ _ others last =>
      agrees_pure (alike_simple_command (List.rel_append lead (.cons named others))) last

end Simple

theorem agrees_command (rules : RulesAgree bound) (twin : Twin c d) :
    Agrees bound Twin Alike command command c d := by
  refine agrees_or_else (agrees_function_definition rules twin) ?_
  refine agrees_or_else ?_ (agrees_simple_command twin)
  exact agrees_bind (agrees_compound rules twin) fun _ _ _ _ given =>
    agrees_with_redirections given.2 given.1

theorem agrees_pipe_sequence (rules : RulesAgree bound) (twin : Twin c d) :
    Agrees bound Twin Alike pipeSequence pipeSequence c d := by
  have stage : ∀ e f, Twin e f → Agrees bound Twin Alike nextStage nextStage e f := by
    intro e f both
    refine agrees_bind (agrees_lone_operator (by decide) both.argument) fun _ _ g h _ inner => ?_
    exact agrees_bind (agrees_line_break inner) fun _ _ _ _ _ => agrees_call rules (by decide)
  refine agrees_bind (agrees_call rules (by decide) twin) fun first first' e f same both => ?_
  refine agrees_bind (agrees_many next_stage_moves next_stage_moves both stage) fun others others' g h each last => ?_
  cases each with
  | nil => exact agrees_pure same last
  | cons second more =>
      exact agrees_pure (alike_of_nodes (by decide) (.cons same (.cons second more))) last

theorem agrees_pipeline (rules : RulesAgree bound) (twin : Twin c d) :
    Agrees bound Twin Alike pipeline pipeline c d := by
  refine agrees_atomic ?_
  refine agrees_bind (agrees_attempt twin (agrees_keyword (by decide) twin)) ?_
  intro bang bang' e f found both
  refine agrees_bind (agrees_pipe_sequence rules both) fun stages stages' g h same last => ?_
  cases found with
  | none => exact agrees_pure same last
  | some => exact agrees_pure (alike_wrap (by decide) same) last

def SameLink (link other : Kind × Node) : Prop :=
  link.1 = other.1 ∧ link.1 ∉ [.word, .simpleCommand] ∧ Alike link.2 other.2

theorem agrees_and_or_link (rules : RulesAgree bound) (twin : Twin c d) :
    Agrees bound Twin SameLink andOrLink andOrLink c d := by
  have operators : Agrees bound Twin
      (fun kind other : Kind => kind = other ∧ kind ∉ [.word, .simpleCommand])
      ((do operator "&&"; return Kind.andIf) <|> (do operator "||"; return Kind.orIf))
      ((do operator "&&"; return Kind.andIf) <|> (do operator "||"; return Kind.orIf)) c d :=
    agrees_or_else
      (agrees_bind (agrees_operator (by decide) twin.argument) fun _ _ _ _ _ => agrees_pure ⟨rfl, by decide⟩)
      (agrees_bind (agrees_operator (by decide) twin.argument) fun _ _ _ _ _ => agrees_pure ⟨rfl, by decide⟩)
  refine agrees_bind operators fun kind kind' e f same both => ?_
  refine agrees_bind (agrees_line_break both) fun _ _ g h _ behind => ?_
  exact agrees_bind (agrees_pipeline rules behind) fun _ _ _ _ right last =>
    agrees_pure ⟨same.1, same.2, right⟩ last

theorem alike_chain {first first' : Node} (same : Alike first first') {links links' : List (Kind × Node)}
    (each : List.Forall₂ SameLink links links') :
    Alike (chainNode first links) (chainNode first' links') := by
  induction each generalizing first first' with
  | nil => exact same
  | @cons link other _ _ joined _ ih =>
      obtain ⟨kind, left⟩ := link
      obtain ⟨kind', right⟩ := other
      obtain ⟨rfl, count, inner⟩ := joined
      exact ih (alike_of_nodes count (.cons same (.cons inner .nil)))

theorem agrees_and_or (rules : RulesAgree bound) (twin : Twin c d) :
    Agrees bound Twin Alike andOr andOr c d := by
  refine agrees_bind (agrees_pipeline rules twin) fun first first' e f same both => ?_
  exact agrees_bind (agrees_many and_or_link_moves and_or_link_moves both
    fun _ _ => agrees_and_or_link rules) fun _ _ _ _ links last =>
      agrees_pure (alike_chain same links) last

theorem rule_lockstep (rule : Rule) (structured : rule ∉ [.word, .operand, .redirection]) (c d : Cursor)
    (twin : Twin c d) : Lockstep Twin Alike (reading grammar rule c) (reading grammar rule d) := by
  have rules : RulesAgree (rule.height c) := fun inner e f _ plain both => rule_lockstep inner plain e f both
  have under := grammar_calls_under (reading_forward grammar) rule c
  cases rule with
  | word | operand | redirection => simp at structured
  | command =>
      rw [reading_grammar, reading_grammar]
      exact agrees_command rules twin under
  | andOr =>
      rw [reading_grammar, reading_grammar]
      exact agrees_and_or rules twin under
  | conditional =>
      rw [reading_grammar, reading_grammar]
      exact agrees_conditional rules twin under
termination_by rule.height c

end ShellLine.Lines
