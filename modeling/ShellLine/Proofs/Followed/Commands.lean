import ShellLine.Proofs.Closure.Commands
import ShellLine.Proofs.Followed.Compound
import ShellLine.Proofs.Followed.Simple

set_option autoImplicit false

namespace ShellLine.Followed

open ShellLine.Parser Grammar Closure

variable {T : Tails} {c d : Cursor} {node : Node}

section Redirected

def EndsStage (T : Tails) (c : Cursor) : Prop := Halts c.rest ∧ PatternsWithin T c

theorem patterns_within_without_bar (noBar : ¬ standsAlone '|' c.rest) (inside : T.Inside c) (free : ¬ Stuck c) :
    PatternsWithin T c := by
  intro values d items
  obtain rfl := patterns_stay noBar items
  exact ⟨inside, free, fun e bar => absurd ((gives_lone_operator _ _ _ _).mp bar).1 noBar⟩

theorem carry_with_redirections {compound : Node} (ahead : Ahead T c) :
    T.Carry (PatternsWithin T) (EndsStage T) (withRedirections compound) (withRedirections (T.node compound))
      T.node c := by
  have carry : T.Carry (fun c => ¬ Stuck c) (EndsStage T) (withRedirections compound)
      (withRedirections (T.node compound)) T.node c := by
    refine carry_bind (carry_redirections ahead) (fun _ ends => ends.1) fun redirections d _ => carry_pure ?_
    simp only [Tails.node, Node.moved, moved_append, moved_row]
  refine carry.start fun node d read inside ends _ => ?_
  obtain ⟨redirections, e, listed, made⟩ := (gives_bind _ _ _ _ _).mp read
  obtain ⟨-, rfl⟩ := (gives_pure _ _ _ _).mp made
  rcases redirections_unbarred ((gives_many _ _ _ _).mp listed) with rfl | ⟨noBar, clear⟩
  · exact ends.2
  · exact patterns_within_without_bar noBar (inside_before inside (reads_forward listed)) clear.free

theorem carry_redirected (ahead : Ahead T c) :
    T.Carry (T.Open true) (EndsStage T) redirectedCommand redirectedCommand T.node c :=
  carry_then (carry_compound_command ahead) fun _ _ given =>
    carry_with_redirections (ahead.past given)

end Redirected

section Commands

theorem carry_function (ahead : Ahead T c) :
    T.Carry (fun _ => True) (EndsStage T) functionDefinition functionDefinition T.node c := by
  refine carry_unless_reserved fails_fail ?_
  refine carry_atomic (carry_bind (S := fun d => ¬ Stuck d) (carry_name.start fun _ _ _ _ _ _ => trivial)
    (fun _ _ => trivial) fun chars d named => ?_)
  refine carry_bind (S := T.Open true) carry_blanks (fun _ here => here.1) fun _ e blank => ?_
  refine carry_bind (S := T.Open true) (carry_operator (by decide) (by decide)) (fun _ here => here.1)
    fun _ f opened => ?_
  refine carry_bind (S := T.Open true) (carry_operator (by decide) (by decide)) (fun _ here => here.1)
    fun _ g closed => ?_
  refine carry_then (S := T.Open true) carry_line_break fun _ h broken => ?_
  have atBody := ((((ahead.past named).past blank).past opened).past closed).past broken
  refine carry_then (S := PatternsWithin T) (carry_compound_command atBody)
    fun compound i given => ?_
  refine carry_then (carry_with_redirections (atBody.past given)) fun body j _ => ?_
  exact carry_pure (by rw [node_of_nodes, List.map_cons, List.map_cons, List.map_nil, node_leaf]; rfl)

theorem command_carries_over (ahead : Ahead T c) : CarriesOver T .command c := by
  refine carry_call ?_
  intro node d read inside ends
  rcases (gives_or_else _ _ _ _ _).mp read with function | ⟨-, read⟩
  · exact ⟨reads_first (carry_function ahead node d function inside ends).1, trivial⟩
  · rcases (gives_or_else _ _ _ _ _).mp read with grouped | ⟨-, simple⟩
    · obtain ⟨groupedThere, -⟩ := carry_redirected ahead node d grouped inside ends
      obtain ⟨_, _, given, -⟩ := (gives_bind _ _ _ _ _).mp groupedThere
      have noFunction := rejects_function_at_compound (compound_command_form given)
      exact ⟨reads_second noFunction (reads_first groupedThere), trivial⟩
    · obtain ⟨simpleThere, -⟩ := carry_simple_command ahead node d simple inside ends.1
      have halts : Halts (T.there d).rest := (halts_is_local.there inside).mpr ends.1
      refine ⟨reads_second (rejects_function_at_simple halts simpleThere) (reads_second ?_ simpleThere), trivial⟩
      exact (fails_bind _ _ _).mpr (Or.inl (rejects_compound_at_simple simpleThere))

end Commands

section Pipelines

theorem carry_command (command : CarriesOver T .command c) :
    T.Carry (T.Open true) (EndsStage T) (call .command) (call .command) T.node c := by
  refine command.start fun _ _ read inside _ _ => ?_
  refine open_of_moves (fun stuck => ?_) (moves_of_advances (call_advances attained_advance (by decide))) read inside
  exact not_fails_of_gives read (Barred.rejects_command (Or.inr (Or.inr stuck)))

theorem ends_stage_of_pipeline (ends : EndsPipeline c.rest) (inside : T.Inside c) : EndsStage T c :=
  ⟨ends.halts, patterns_within_without_bar ends.noBar inside (not_stuck_of_halts ends.halts)⟩

theorem carry_next_stage (ahead : Ahead T c) :
    T.Carry (EndsStage T) (EndsStage T) nextStage nextStage T.node c := by
  have carry : T.Carry (T.Open true) (EndsStage T) nextStage nextStage T.node c := by
    refine carry_bind (S := T.Open true) (carry_lone (by decide) (by decide)) (fun _ here => here.1)
      fun _ d bar => ?_
    refine carry_then (S := T.Open true) carry_line_break fun _ e broken => ?_
    exact carry_command (command_carries_over ((ahead.past bar).past broken))
  refine carry.start fun node d read inside ends here => ?_
  obtain ⟨_, e, bar, later⟩ := (gives_bind _ _ _ _ _).mp read
  obtain ⟨_, f, broken, command⟩ := (gives_bind _ _ _ _ _).mp later
  have head : c.rest.head? = some '|' := ((gives_lone_operator _ _ _ _).mp bar).1.1
  refine ⟨halts_of_head head (by decide), ?_⟩
  have atCommand := inside_before inside (reads_forward command)
  have start := (carry_command (command_carries_over ((ahead.past bar).past broken)) node d command inside ends).2
  refine patterns_at_stage read ?_ (fun g unbarred behind => ?_) ends.2
  · refine ⟨inside_before inside (reads_forward read), here.1, fun g other => ?_⟩
    obtain ⟨-, rfl⟩ := gives_unique bar other
    obtain ⟨-, free, -⟩ := carry_line_break () f broken atCommand start
    exact ⟨inside_before atCommand (reads_forward broken), free⟩
  · refine ⟨inside_before inside behind, fun stuck => unbarred (Or.inr (Or.inr stuck)), fun h other => ?_⟩
    exact absurd (Or.inr (Or.inl ((gives_lone_operator _ _ _ _).mp other).1.1)) unbarred

theorem carry_pipe_sequence (ahead : Ahead T c) :
    T.Carry (T.Open true) (fun d => EndsPipeline d.rest) pipeSequence pipeSequence T.node c := by
  refine Tails.Carry.within (carry_then (S := EndsStage T) (carry_command (command_carries_over ahead))
    fun first d command => ?_)
  have atStages := ahead.past command
  refine carry_then (S := fun d => EndsPipeline d.rest ∧ T.Inside d) (carry_many next_stage_moves
    (fun e suffix => carry_next_stage (atStages.behind suffix)) (fun e _ _ inside ends => ?_)
    fun e ends => ends_stage_of_pipeline ends.1 ends.2) fun others e _ => ?_
  · refine (fails_bind _ _ _).mpr (Or.inl ((fails_lone_operator _ _).mpr ?_))
    exact ((stands_alone_is_local (by decide)).there inside).not.mpr ends.1.noBar
  · cases others with
    | nil => exact carry_pure rfl
    | cons second more => exact carry_pure (by rw [node_of_nodes, List.map_cons, List.map_cons])

theorem carry_pipeline (ahead : Ahead T c) :
    T.Carry (T.Open true) (fun d => EndsPipeline d.rest) pipeline pipeline T.node c := by
  refine carry_atomic (carry_attempt_bind (S := T.Open true) (U := T.Open true) (carry_keyword (by decide))
    (fun _ here => here.1) (fun _ d bang => ?_)
    (fun missing inside _ => miss_keyword (by decide) missing inside trivial) (fun here => here) fun _ => ?_)
  · exact carry_then (carry_pipe_sequence (ahead.past bang)) fun _ _ _ =>
      carry_pure (node_wrap _ _)
  · exact carry_then (carry_pipe_sequence ahead) fun _ _ _ => carry_pure rfl

end Pipelines

section Chains

theorem ends_chain_iff (text : List Char) : EndsChain text ↔
    (Halts text ∧ ¬ standsAlone '|' text) ∧ ¬ "&&".toList <+: text ∧ ¬ "||".toList <+: text :=
  ⟨fun ends => ⟨⟨ends.halts, ends.noBar⟩, ends.noBoth, ends.noEither⟩,
    fun parts => ⟨⟨parts.1.1, parts.1.2⟩, parts.2.1, parts.2.2⟩⟩

theorem ends_chain_is_local : Local EndsChain := by
  have noBar := (stands_alone_is_local (by decide : '|' ≠ '\n')).not
  have noBoth := (prefix_is_local (by decide : '\n' ∉ "&&".toList)).not
  have noEither := (prefix_is_local (by decide : '\n' ∉ "||".toList)).not
  intro text tail apart
  rw [ends_chain_iff, ends_chain_iff]
  exact ((halts_is_local.and noBar).and (noBoth.and noEither)) text tail apart

theorem carry_link_operator :
    T.Carry (fun c => EndsPipeline c.rest) (fun d => ¬ Stuck d) linkOperator linkOperator id c := by
  have carry : T.Carry (T.Open true) (fun d => ¬ Stuck d) linkOperator linkOperator id c := by
    refine carry_or_else (U := T.Open true) ?_ ?_ ?_ fun here => here
    · exact carry_then (carry_operator (by decide) (by decide)) fun _ _ _ => carry_pure rfl
    · exact miss_bind (fun missing inside _ => miss_operator (by decide) missing inside trivial)
        fun _ d _ made => absurd made (fails_pure _ d)
    · exact carry_then (carry_operator (by decide) (by decide)) fun _ _ _ => carry_pure rfl
  exact carry.start fun _ _ read _ _ _ => ends_pipeline_of_link read

theorem carry_link (ahead : Ahead T c) :
    T.Carry (fun c => EndsPipeline c.rest) (fun d => EndsPipeline d.rest) andOrLink andOrLink (mapLink T.node) c := by
  refine carry_bind (S := T.Open true) carry_link_operator (fun _ here => here.1) fun kind d joined => ?_
  refine carry_then (S := T.Open true) carry_line_break fun _ e broken => ?_
  exact carry_then (carry_pipeline ((ahead.past joined).past broken)) fun _ _ _ =>
    carry_pure rfl

theorem chain_carries_over (ahead : Ahead T c) : CarriesOver T .andOr c := by
  have carry : T.Carry (T.Open true) (fun d => EndsChain d.rest) andOr andOr T.node c := by
    refine carry_then (S := fun d => EndsPipeline d.rest) (carry_pipeline ahead)
      fun first d piped => ?_
    have atLinks := ahead.past piped
    refine carry_then (S := fun d => EndsChain d.rest) (carry_many and_or_link_moves
      (fun e suffix => carry_link (atLinks.behind suffix)) (fun e _ _ inside ends => ?_) fun _ ends => ends.toEndsPipeline)
      fun links e _ => carry_pure (moved_chain _ first links)
    have endsThere : EndsChain (T.there e).rest := (ends_chain_is_local.there inside).mpr ends
    exact rejects_link endsThere.noBoth endsThere.noEither
  exact carry_call (carry.start fun _ _ _ _ _ _ => trivial)

end Chains

section Rules

theorem within_there {T : Tails} {c : Cursor} (within : c.rest <:+ T.text ++ T.old) (inside : T.Inside c) :
    (T.there c).rest <:+ T.text ++ T.new := by
  obtain ⟨text, whole⟩ := text_of_inside inside
  obtain ⟨passed, same⟩ := within
  rw [whole, ← List.append_assoc] at same
  rw [rest_there whole, ← List.append_cancel_right same, List.append_assoc]
  exact List.suffix_append ..

theorem rule_carries_over (T : Tails) (c : Cursor) (within : c.rest <:+ T.text ++ T.old) (rule : Rule) :
    CarriesOver T rule c := by
  have ahead : Ahead T c := {
    within := within
    forth := fun inner e suffix earlier => by
      by_cases inside : T.Inside e
      · have bound := tail_le_left inside
        exact rule_carries_over T e (suffix.trans within) inner
      · exact fun _ d read atEnd _ => absurd (inside_before atEnd (reads_forward read)) inside
    back := fun e suffix earlier inside => by
      have same := left_there inside
      have bound := tail_le_left inside
      exact rule_carries_over T.swap (T.there e) (within_there (suffix.trans within) inside) .word }
  cases rule with
  | word => exact word_carries_over ahead
  | redirection => exact redirection_carries_over ahead
  | operand => exact operand_carries_over ahead
  | command => exact command_carries_over ahead
  | andOr => exact chain_carries_over ahead
  | conditional => exact conditional_carries_over ahead fun e suffix => chain_carries_over (ahead.behind suffix)
termination_by c.left - Text.byteLength T.old
decreasing_by
  · omega
  · simp only [Tails.swap]
    omega

end Rules

end ShellLine.Followed
