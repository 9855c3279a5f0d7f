import ShellLine.Proofs.Canonical.Ends

set_option autoImplicit false

namespace ShellLine.Canonical

open ShellLine.Parser Grammar

variable {more : List Token}

-- What follows a command: an operator behind which no patterns could stand.
structure EndsCommand (more : List Token) : Prop where
  leads : Leads commandEnds more
  unclosed : Unclosed more

theorem at_sign_of_ends (ends : Leads commandEnds more) : AtSign (spaced more) :=
  at_sign_of_leads ends (by decide +kernel)

section Simple

theorem reads_words (words : List Quoted) (ends : (call .word).Rejects (place more)) :
    Items (reading grammar) (call .word) (place (words.map Quoted.token ++ more))
      (words.map Quoted.node) (place more) := by
  induction words with
  | nil => exact .stop ends
  | cons word others ih => exact .more (reads_quoted word _) (place_left_lt _ _) ih

theorem rejects_redirection_at_quoted (word : Quoted) (more : List Token) :
    (call .redirection).Rejects (place (word.token :: more)) :=
  rejects_redirection_at (by rw [place_rest, spaced_head]; rfl) (by decide) (by decide) (by decide)

theorem reads_arguments (words : List Quoted) (ends : AtSign (spaced more)) :
    Items (reading grammar) argumentItem (place (words.map Quoted.token ++ more))
      (words.map Quoted.node) (place more) := by
  induction words with
  | nil =>
      refine .stop ((fails_or_else _ _ _).mpr ⟨rejects_redirection_at_sign ends, ?_⟩)
      exact rejects_word_at_delimiter (delimited_of_sign ends)
  | cons word others ih =>
      refine .more (reads_second (rejects_redirection_at_quoted word _) (reads_quoted word _)) ?_ ih
      exact place_left_lt _ _

theorem quoted_head (word : Quoted) (more : List Token) :
    (place (word.token :: more)).rest.head? = some '\'' := by
  rw [place_rest, spaced_head]
  rfl

theorem unreserved_quoted (word : Quoted) (more : List Token) :
    reservedAhead (place (word.token :: more)).rest = false := by
  have other : ∀ reserved ∈ reservedWords, reserved.toList ≠ [] ∧
      reserved.toList.head? ≠ some '\'' := by decide +kernel
  rw [reservedAhead, List.any_eq_false]
  intro reserved member ahead
  obtain ⟨nonempty, noQuote⟩ := other reserved member
  have head := head_of_start (starts_of_starts_reserved _ _ ahead) nonempty
  rw [quoted_head] at head
  exact noQuote head.symm

theorem reads_simple (first : Quoted) (others : List Quoted) (ends : AtSign (spaced more)) :
    (call .command).Reads (place ((Phrase.simple first others).tokens ++ more))
      (Phrase.simple first others).meaning (place more) := by
  have unreserved := unreserved_quoted first (others.map Quoted.token ++ more)
  have head := quoted_head first (others.map Quoted.token ++ more)
  have noLead : leadItem.Rejects (place (first.token :: (others.map Quoted.token ++ more))) := by
    refine (fails_or_else _ _ _).mpr ⟨rejects_redirection_at_quoted first _, ?_⟩
    simp only [assignment, fails_atomic, fails_bind, fails_name, head]
    exact Or.inl rfl
  have named : commandWord.Reads (place (first.token :: (others.map Quoted.token ++ more))) first.node
      (place (others.map Quoted.token ++ more)) := by
    rw [commandWord, Reads, gives_look_bind, unreserved]
    exact reads_quoted first _
  apply simple_command_is_command
  · exact rejects_function_definition (by rw [Phrase.tokens, List.cons_append, head]; rfl)
  · rw [Phrase.tokens, List.cons_append]
    apply rejects_compound
    · rw [head]
      decide
    · intro opening
      cases unreserved.symm.trans (reserved_ahead_iff.mpr (opening_words_reserved _ opening))
  · exact simple_command_of_parts (.stop noLead) named (reads_arguments others ends)

end Simple

section Compound

theorem rejects_function_at_compound (inner : Phrase .compound) (more : List Token) :
    functionDefinition.Rejects (place (inner.tokens ++ more)) := by
  have at_word : ∀ (token : Token) (others : List Token), String.ofList token.chars ∈ reservedWords →
      functionDefinition.Rejects (place (token :: others)) := by
    intro token others reserved
    apply rejects_function_at_reserved_word
    rwa [place_rest, solid_start_bare (bare_of_reserved reserved)]
  cases inner <;> simp only [Phrase.tokens, List.cons_append, List.append_assoc]
  case subshell body =>
    apply rejects_function_definition
    rw [place_rest, spaced_head]
    rfl
  case loop repeated condition body => cases repeated <;> exact at_word _ _ (by decide)
  all_goals exact at_word _ _ (by decide)

theorem reads_grouped (inner : Phrase .compound) {node : Node}
    (read : compoundCommand.Reads (place (inner.tokens ++ more)) node (place more))
    (ends : AtSign (spaced more)) :
    (call .command).Reads (place (inner.tokens ++ more)) node (place more) := by
  rw [reads_call]
  refine reads_second (rejects_function_at_compound inner more) (reads_first ?_)
  exact reads_bind read (reads_unredirected node (rejects_redirection_at_sign ends))

theorem reads_function (name : FunctionName) (body : Phrase .compound) {node : Node}
    (read : compoundCommand.Reads (place (body.tokens ++ more)) node (place more))
    (ends : AtSign (spaced more)) :
    (call .command).Reads (place ((Phrase.function name body).tokens ++ more))
      (.ofNodes .functionDefinition [.leaf .functionName name.chars, node]) (place more) := by
  have bare : Bare name.toName.token := fun ch member => continues_solid ch (name.continues ch member)
  have unreserved : reservedAhead
      (place (name.toName.token :: sign "(" :: sign ")" :: (body.tokens ++ more))).rest = false := by
    rw [Bool.eq_false_iff, Ne, reserved_ahead_iff, place_rest, solid_start_bare bare]
    exact name.unreserved
  rw [reads_call]
  apply reads_first
  simp only [Phrase.tokens, List.cons_append]
  rw [functionDefinition, Reads, gives_look_bind, unreserved]
  refine reads_atomic (reads_bind (reads_name name.toName _) ?_)
  refine reads_bind (reads_gap _) ?_
  refine reads_bind (reads_operator rfl) (reads_bind (reads_operator rfl) ?_)
  have sameLine : SameLine (body.tokens ++ more) :=
    same_line_of_opens (opens_append (part_of_command_opens (compound_opens body)) more)
  refine reads_bind (reads_same_line sameLine) ?_
  exact reads_bind read (reads_bind (reads_unredirected node (rejects_redirection_at_sign ends)) (reads_pure _ _))

end Compound

section Chains

theorem rejects_bang (first : Phrase .command) (more : List Token) :
    (keyword "!").Rejects (place (first.tokens ++ more)) := by
  apply rejects_keyword (by decide)
  intro bang
  have noBang := opens_head (opens_append (command_opens first) more) (by decide : '!' ∈ commandBars)
  apply noBang
  apply head_of_solid_start
  rw [← String.toList_inj, String.toList_ofList] at bang
  rw [← place_rest, bang]
  rfl

theorem reads_stage (next : Phrase .command) {behind : List Token} {node : Node}
    (read : (call .command).Reads (place (next.tokens ++ behind)) node (place behind)) :
    nextStage.Reads (place (sign "|" :: (next.tokens ++ behind))) node (place behind) := by
  have sameLine : SameLine (next.tokens ++ behind) :=
    same_line_of_opens (opens_append (part_of_command_opens (command_opens next)) behind)
  exact reads_bind (reads_lone rfl (by decide)) (reads_bind (reads_same_line sameLine) read)

theorem rejects_stage (ends : Leads pipelineEnds more) : nextStage.Rejects (place more) :=
  (fails_bind _ _ _).mpr (Or.inl (rejects_lone_of_leads ends (by decide)))

theorem reads_pipeline (negated : Bool) (first : Phrase .command) {behind : List Token} {node : Node}
    {nodes : List Node}
    (read : (call .command).Reads (place (first.tokens ++ behind)) node (place behind))
    (stages : Items (reading grammar) nextStage (place behind) nodes (place more)) :
    Grammar.pipeline.Reads (place ((if negated then [sign "!"] else []) ++ (first.tokens ++ behind)))
      (if negated then .wrap .bang (stagesNode node nodes) else stagesNode node nodes)
      (place more) := by
  have sequence : pipeSequence.Reads (place (first.tokens ++ behind)) (stagesNode node nodes)
      (place more) := by
    refine reads_bind read (reads_bind (reads_many stages) ?_)
    cases nodes <;> exact reads_pure _ _
  apply reads_atomic
  cases negated with
  | true =>
      refine reads_bind (reads_tried (reads_keyword (by decide) rfl)) ?_
      exact reads_bind sequence (reads_pure _ _)
  | false => exact reads_bind (reads_missed (rejects_bang first behind)) (reads_bind sequence (reads_pure _ _))

theorem reads_link (connective : Connective) (next : Phrase .pipeline) {behind : List Token} {node : Node}
    (read : Grammar.pipeline.Reads (place (next.tokens ++ behind)) node (place behind)) :
    andOrLink.Reads (place (connective.token :: (next.tokens ++ behind))) (connective.kind, node)
      (place behind) := by
  have sameLine : SameLine (next.tokens ++ behind) :=
    same_line_of_opens (opens_append (pipeline_opens next) behind)
  refine reads_bind (?_ : Parser.Reads _ _ connective.kind (place (next.tokens ++ behind))) ?_
  · cases connective with
    | both => exact reads_first (reads_bind (reads_operator rfl) (reads_pure _ _))
    | either =>
        refine reads_second ?_ (reads_bind (reads_operator rfl) (reads_pure _ _))
        refine (fails_bind _ _ _).mpr (Or.inl (rejects_operator ?_ (by decide)))
        rw [spaced_head]
        decide
  · exact reads_bind (reads_same_line sameLine) (reads_bind read (reads_pure _ _))

theorem rejects_link (ends : Leads chainEnds more) : andOrLink.Rejects (place more) := by
  refine (fails_bind _ _ _).mpr (Or.inl ((fails_or_else _ _ _).mpr ⟨?_, ?_⟩))
  · exact (fails_bind _ _ _).mpr
      (Or.inl (rejects_operator_of_leads ends (by decide) (by decide) (by decide)))
  · exact (fails_bind _ _ _).mpr
      (Or.inl (rejects_operator_of_leads ends (by decide) (by decide) (by decide)))

theorem reads_chain {tokens behind : List Token} {node : Node} {links : List (Kind × Node)}
    (read : Grammar.pipeline.Reads (place tokens) node (place behind))
    (items : Items (reading grammar) andOrLink (place behind) links (place more)) :
    (call .andOr).Reads (place tokens) (chainNode node links) (place more) := by
  rw [reads_call]
  exact reads_bind read (reads_bind (reads_many items) (reads_pure _ _))

end Chains

section Lists

theorem reads_ending {lines : Bool} (ending : Ending lines) (sameLine : SameLine more) :
    ∃ kind, (separator lines).Reads (place (ending.token :: more)) kind (place more) ∧
      ∀ node, ending.wrap node = match kind with
        | .background => .wrap .background node
        | .sequential => node := by
  have broken : (if lines then lineBreak else return () : Parser Unit).Reads (place more) () (place more) := by
    cases lines with
    | false => exact reads_pure _ _
    | true => exact reads_same_line sameLine
  have other : ∀ {ch : Char} {first : Char} {kind : Separator}, ending.token.chars.head? = some first →
      first ≠ ch → (do
        loneOperator ch
        (if lines then lineBreak else return () : Parser Unit)
        return kind : Parser Separator).Rejects (place (ending.token :: more)) := by
    intro ch first kind head different
    refine (fails_bind _ _ _).mpr (Or.inl (rejects_lone (not_alone_of_head ?_)))
    rw [spaced_head, head]
    simpa using different
  cases ending with
  | background =>
      refine ⟨.background, reads_first ?_, fun _ => rfl⟩
      exact reads_bind (reads_lone rfl (by decide)) (reads_bind broken (reads_pure _ _))
  | semicolon =>
      refine ⟨.sequential, reads_second (other rfl (by decide)) (reads_first ?_), fun _ => rfl⟩
      exact reads_bind (reads_lone rfl (by decide)) (reads_bind broken (reads_pure _ _))
  | newline =>
      refine ⟨.sequential, reads_second (other rfl (by decide)) (reads_second (other rfl (by decide)) ?_),
        fun _ => rfl⟩
      exact reads_bind (reads_newlines rfl sameLine) (reads_pure _ _)

theorem reads_term {lines : Bool} {tokens : List Token} (ending : Ending lines) {node : Node}
    (read : (call .andOr).Reads (place tokens) node (place (ending.token :: more)))
    (sameLine : SameLine more) :
    (Grammar.term lines).Reads (place tokens) (.more (ending.wrap node)) (place more) := by
  obtain ⟨kind, separated, wraps⟩ := reads_ending ending sameLine
  refine reads_bind (reads_tried read) (reads_bind (reads_tried separated) ?_)
  rw [wraps]
  cases kind <;> exact reads_pure _ _

theorem halts_of_leads (ends : Leads listEnds more) : Halts (spaced more) := by
  cases more with
  | nil => exact Or.inl rfl
  | cons token others =>
      have known := ends token rfl
      rcases (by decide +kernel : ∀ text ∈ listEnds,
          text.toList.head?.all (fun ch => ch ∈ ['\n', ')', ';', '&', '|']) = true ∨
            text ∈ closingWords ∧ text ∈ reservedWords) _ known with sign | ⟨closing, reserved⟩
      · rw [String.toList_ofList, ← spaced_head token others] at sign
        exact Or.inl sign
      · apply Or.inr
        rwa [solid_start_bare (bare_of_reserved reserved)]

theorem stops_at_end (lines : Bool) (halts : Halts (spaced more)) :
    (Grammar.term lines).Reads (place more) .stop (place more) :=
  reads_bind (reads_missed (chain_rejects_at_halt halts)) (reads_pure _ _)

theorem reads_term_list {lines : Bool} {tokens : List Token} {terms : List Node} (some : terms ≠ [])
    (turns : Turns (reading grammar) (Grammar.term lines) (place tokens) terms (place more)) :
    (termList lines).Reads (place tokens) (listNode terms) (place more) := by
  refine reads_bind (reads_rounds turns) ?_
  rcases terms with - | ⟨only, - | ⟨second, others⟩⟩
  · exact absurd rfl some
  · exact reads_pure _ _
  · exact reads_pure _ _

end Lists

end ShellLine.Canonical
