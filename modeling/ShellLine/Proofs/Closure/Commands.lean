import ShellLine.Proofs.Closure.Compound
import ShellLine.Proofs.Closure.Simple

set_option autoImplicit false

namespace ShellLine.Closure

open ShellLine.Parser Grammar

variable {c d e : Cursor} {node : Node}

section Redirected

theorem patterns_stay {values : List Node} (noBar : ¬ standsAlone '|' c.rest)
    (items : Items (reading grammar) nextPattern c values d) : c = d := by
  have none : (loneOperator '|').Rejects c := (fails_lone_operator _ _).mpr noBar
  cases items with
  | stop _ => rfl
  | halt given _ | more given _ _ =>
      exact absurd ((fails_bind _ _ _).mpr (Or.inl none)) (not_fails_of_gives given)

theorem patterns_whole_without_bar (noBar : ¬ standsAlone '|' c.rest) (free : ¬ Stuck c) : PatternsWhole c := by
  intro values d items
  obtain rfl := patterns_stay noBar items
  exact ⟨free, fun e bar => absurd ((gives_lone_operator _ _ _ _).mp bar).1 noBar⟩

theorem patterns_leave_without_bar (noBar : ¬ standsAlone '|' c.rest) (remains : c.rest ≠ []) :
    PatternsLeave c := by
  intro values d items
  rwa [← patterns_stay noBar items]

theorem redirections_closed {redirections : List Node} (known : Known c) (halts : Halts d.rest)
    (items : Items (reading grammar) (call .redirection) c redirections d) :
    Items (reading grammar) (call .redirection) (closed c) (redirections.map Node.shifted) (closed d) := by
  have stops : (call .redirection).Rejects (closed d) := rejects_redirection_at_halt (halts_closed halts)
  refine (items_closed (P := fun e => ¬ Stuck e) ?_ (fun _ => stops) (not_stuck_of_halts halts) items).1
  intro e value f suffix read free
  exact ⟨redirection_carried (known.behind suffix) value f read free, (clear_of_redirection read).free⟩

theorem redirections_unbarred {redirections : List Node}
    (items : Items (reading grammar) (call .redirection) c redirections d) :
    c = d ∨ ¬ standsAlone '|' c.rest ∧ Clear c := by
  have started : ∀ {value e}, (call .redirection).Reads c value e → ¬ standsAlone '|' c.rest ∧ Clear c := by
    intro value e read
    refine ⟨fun bar => ?_, clear_of_redirection read⟩
    exact not_fails_of_gives read (rejects_redirection_at bar.1 (by decide) (by decide) (by decide))
  cases items with
  | stop _ => exact Or.inl rfl
  | halt given _ | more given _ _ => exact Or.inr (started given)

theorem patterns_whole_at_redirections {redirections : List Node} (whole : PatternsWhole d)
    (items : Items (reading grammar) (call .redirection) c redirections d) : PatternsWhole c := by
  rcases redirections_unbarred items with rfl | ⟨noBar, clear⟩
  · exact whole
  · exact patterns_whole_without_bar noBar clear.free

theorem remains_of_patterns_leave (leave : PatternsLeave c) : c.rest ≠ [] := by
  intro empty
  obtain ⟨values, d, patterns⟩ := items_exist (reading grammar) nextPattern c
  have passed := reads_forward ((gives_many _ _ _ _).mpr patterns)
  rw [empty, List.suffix_nil] at passed
  exact leave values d patterns passed

theorem patterns_leave_at_redirections {redirections : List Node} (leave : PatternsLeave d)
    (items : Items (reading grammar) (call .redirection) c redirections d) : PatternsLeave c := by
  have behind := reads_forward ((gives_many _ _ _ _).mpr items)
  have remains := remains_of_patterns_leave leave
  rcases redirections_unbarred items with rfl | ⟨noBar, -⟩
  · exact leave
  · refine patterns_leave_without_bar noBar fun empty => remains ?_
    rwa [empty, List.suffix_nil] at behind

abbrev redirectedCommand : Parser Node := do withRedirections (← compoundCommand)

theorem reads_redirected_closed (known : Known c) (halts : Halts d.rest) (whole : PatternsWhole d)
    (leave : ChoiceLeaves c) (read : redirectedCommand.Reads c node d) :
    redirectedCommand.Reads (closed c) node.shifted (closed d) := by
  obtain ⟨compound, e, given, later⟩ := (gives_bind _ _ _ _ _).mp read
  simp only [withRedirections, gives_bind, gives_many, gives_pure] at later
  obtain ⟨redirections, _, items, rfl, rfl⟩ := later
  have compoundClosed := reads_compound_command_closed known (patterns_whole_at_redirections whole items) leave given
  have itemsClosed := redirections_closed (known.past given) halts items
  have wrapped : ({ compound with contents := compound.contents.append (.ofNodes redirections) } : Node).shifted =
      { compound.shifted with
        contents := compound.shifted.contents.append (.ofNodes (redirections.map Node.shifted)) } := by
    simp only [Node.shifted, shifted_append, shifted_row]
  rw [wrapped]
  exact reads_bind compoundClosed (reads_bind (reads_many itemsClosed) (reads_pure _ _))

end Redirected

section Commands

theorem compound_start (form : CompoundForm (reading grammar) c node d) :
    c.rest.head? = some '(' ∨ String.ofList (solidStart c.rest) ∈ reservedWords := by
  have reserved : ∀ {word : String} {e : Cursor}, word ∈ reservedWords → (keyword word).Reads c () e →
      String.ofList (solidStart c.rest) ∈ reservedWords := by
    intro word e known read
    rwa [start_of_keyword known read]
  cases form with
  | subshell opened => exact Or.inl (head_of_start ((gives_operator _ _ _ _).mp opened).1 (by decide))
  | braceGroup opened => exact Or.inr (reserved (by decide) opened)
  | forLoop opened => exact Or.inr (reserved (by decide) opened)
  | caseChoice opened => exact Or.inr (reserved (by decide) opened)
  | ifChoice opened => exact Or.inr (reserved (by decide) opened)
  | @loop _ _ _ word kind _ _ repeated opened =>
      have known := (by decide : ∀ pair ∈ [("while", Kind.whileLoop), ("until", .untilLoop)],
        pair.1 ∈ reservedWords) _ repeated
      exact Or.inr (reserved known opened)

theorem rejects_function_at_compound (form : CompoundForm (reading grammar) c node d) :
    functionDefinition.Rejects c := by
  rcases compound_start form with paren | reserved
  · apply rejects_function_definition
    rw [paren]
    rfl
  · exact rejects_function_at_reserved_word reserved

theorem rejects_compound_at_simple (read : simpleCommand.Reads c node d) : compoundCommand.Rejects c := by
  apply rejects_compound
  · intro paren
    refine not_fails_of_gives read (rejects_simple_at_sign ?_)
    rw [AtSign, paren]
    rfl
  · exact fun opening => not_fails_of_gives read
      (rejects_simple_at_reserved_word (opening_words_reserved _ opening))

theorem rejects_function_at_simple (halts : Halts d.rest) (read : simpleCommand.Reads c node d) :
    functionDefinition.Rejects c := by
  rw [functionDefinition, Rejects, fails_look_bind]
  split
  · exact fails_fail _
  · rw [fails_atomic]
    rcases gives_or_fails (reading grammar) name c with ⟨chars, e, named⟩ | noName
    · have blank : blanks.Reads e () e.pastBlanks := (gives_blanks _ _ _).mpr rfl
      have unopened : (operator "(").Rejects e.pastBlanks := by
        rcases gives_or_fails (reading grammar) (operator "(") e.pastBlanks with ⟨_, f, opened⟩ | rejected
        · have paren := simple_ends_at_paren named opened (simple_command_form read)
          rcases halts with sign | closing
          · rw [paren] at sign
            exact absurd sign (by decide)
          · rw [solid_start_of_delimited (by rw [paren]; rfl)] at closing
            exact absurd closing (by decide)
        · exact rejected
      refine (fails_bind _ _ _).mpr (Or.inr ⟨chars, e, named, ?_⟩)
      exact (fails_bind _ _ _).mpr (Or.inr ⟨(), _, blank, (fails_bind _ _ _).mpr (Or.inl unopened)⟩)
    · exact (fails_bind _ _ _).mpr (Or.inl noName)

theorem reads_function_closed (known : Known c) (halts : Halts d.rest) (whole : PatternsWhole d)
    (leave : CommandLeaves c) (read : functionDefinition.Reads c node d) :
    functionDefinition.Reads (closed c) node.shifted (closed d) := by
  rw [functionDefinition, Reads, gives_look_bind] at read ⊢
  rw [closed_rest, reserved_ahead_closed]
  split at read
  · exact absurd read (gives_fail _ _ _)
  · rename_i unreserved
    rw [if_neg unreserved]
    rw [gives_atomic] at read
    obtain ⟨chars, e, named, read⟩ := (gives_bind _ _ _ _ _).mp read
    obtain ⟨_, f, blank, read⟩ := (gives_bind _ _ _ _ _).mp read
    obtain ⟨_, g, opened, read⟩ := (gives_bind _ _ _ _ _).mp read
    obtain ⟨_, h, ended, read⟩ := (gives_bind _ _ _ _ _).mp read
    obtain ⟨_, i, broken, read⟩ := (gives_bind _ _ _ _ _).mp read
    have atBlank := known.past named
    have atOpening := atBlank.past blank
    have atEnd := atOpening.past opened
    have atBreak := atEnd.past ended
    have atBody := atBreak.past broken
    obtain ⟨compound, j, given, read⟩ := (gives_bind _ _ _ _ _).mp read
    obtain ⟨body, k, redirected, made⟩ := (gives_bind _ _ _ _ _).mp read
    obtain ⟨rfl, rfl⟩ := (gives_pure _ _ _ _).mp made
    have head : functionHead.Reads c chars i := by
      rw [functionHead, Reads, gives_look_bind, if_neg unreserved]
      exact reads_bind named (reads_bind blank (reads_bind opened (reads_bind ended (reads_bind broken
        (reads_pure _ _)))))
    have bodyLeaves : ChoiceLeaves i := leave i (Or.inr ⟨chars, head⟩)
    have bodyClosed := reads_redirected_closed atBody halts whole bodyLeaves (reads_bind given redirected)
    obtain ⟨_, l, givenClosed, redirectedClosed⟩ := (gives_bind _ _ _ _ _).mp bodyClosed
    rw [shifted_of_nodes, List.map_cons, List.map_cons, List.map_nil, shifted_leaf]
    refine reads_atomic (reads_bind (reads_name_closed named) ?_)
    refine reads_bind (reads_blanks_closed atBlank.uncommented blank) ?_
    refine reads_bind (reads_operator_closed atOpening.uncommented opened) ?_
    refine reads_bind (reads_operator_closed atEnd.uncommented ended) ?_
    refine reads_bind (reads_line_break_closed atBreak.uncommented broken) ?_
    exact reads_bind givenClosed (reads_bind redirectedClosed (reads_pure _ _))

theorem function_of_head {chars : List Char} (head : functionHead.Reads c chars d)
    (body : redirectedCommand.Reads d node e) : ∃ function, functionDefinition.Reads c function e := by
  rw [functionHead, Reads, gives_look_bind] at head
  split at head
  · exact absurd head (gives_fail _ _ _)
  · rename_i unreserved
    simp only [gives_bind, gives_pure] at head
    obtain ⟨found, _, named, _, _, blank, _, _, opened, _, _, ended, _, _, broken, rfl, rfl⟩ := head
    obtain ⟨compound, f, given, redirected⟩ := (gives_bind _ _ _ _ _).mp body
    refine ⟨.ofNodes .functionDefinition [.leaf .functionName found, node], ?_⟩
    rw [functionDefinition, Reads, gives_look_bind, if_neg unreserved]
    exact reads_atomic (reads_bind named (reads_bind blank (reads_bind opened (reads_bind ended
      (reads_bind broken (reads_bind given (reads_bind redirected (reads_pure _ _))))))))

-- A choice that may go on is a whole command, or the body of one, but for redirections.
theorem command_leaves (command : (call .command).Reads c node d) (leave : PatternsLeave d) :
    CommandLeaves c := by
  intro e starts f opens
  obtain ⟨choice, clause⟩ := choice_of_open opens
  obtain ⟨_, g, started, -⟩ := (gives_bind _ _ _ _ _).mp ((gives_atomic _ _ _ _).mp clause)
  have compound : compoundCommand.Reads e choice f := by
    rw [compoundCommand, Reads, gives_look_bind, head_of_keyword (by decide) started]
    exact clause
  obtain ⟨redirections, h, items⟩ := items_exist (reading grammar) (call .redirection) f
  have body : redirectedCommand.Reads e _ h :=
    reads_bind compound (reads_bind (reads_many items) (reads_pure _ _))
  have whole : ∃ other, (call .command).Reads c other h := by
    rcases starts with rfl | ⟨chars, head⟩
    · have reserved : String.ofList (solidStart c.rest) ∈ reservedWords := by
        rw [start_of_keyword (by decide) started]
        decide
      refine ⟨_, (reads_call _ _ _ _).mpr (reads_second ?_ (reads_first body))⟩
      exact rejects_function_at_reserved_word reserved
    · obtain ⟨function, read⟩ := function_of_head head body
      exact ⟨function, (reads_call _ _ _ _).mpr (reads_first read)⟩
  obtain ⟨other, read⟩ := whole
  obtain ⟨-, rfl⟩ := gives_unique command read
  exact patterns_leave_at_redirections leave items

theorem command_carried (known : Known c) : Carried .command c := by
  rintro node d read ⟨halts, whole, leave⟩
  rw [reads_call] at read ⊢
  rcases (gives_or_else _ _ _ _ _).mp read with function | ⟨-, read⟩
  · exact reads_first (reads_function_closed known halts whole leave function)
  · rcases (gives_or_else _ _ _ _ _).mp read with grouped | ⟨-, simple⟩
    · have groupedClosed := reads_redirected_closed known halts whole (leave c (Or.inl rfl)) grouped
      obtain ⟨_, _, given, -⟩ := (gives_bind _ _ _ _ _).mp groupedClosed
      exact reads_second (rejects_function_at_compound (compound_command_form given)) (reads_first groupedClosed)
    · have simpleClosed := reads_simple_command_closed known halts simple
      have haltsClosed : Halts (closed d).rest := halts_closed halts
      refine reads_second (rejects_function_at_simple haltsClosed simpleClosed) (reads_second ?_ simpleClosed)
      exact (fails_bind _ _ _).mpr (Or.inl (rejects_compound_at_simple simpleClosed))

end Commands

section Pipelines

theorem patterns_at_stage {Fits : Cursor → Prop} (read : nextStage.Reads c node d)
    (here : Fits c) (free : ∀ e, ¬ Barred e → d.rest <:+ e.rest → Fits e)
    (behind : ∀ values e, Items (reading grammar) nextPattern d values e → Fits e) :
    ∀ values e, Items (reading grammar) nextPattern c values e → Fits e := by
  obtain ⟨_, e, bar, later⟩ := (gives_bind _ _ _ _ _).mp read
  obtain ⟨_, f, broken, command⟩ := (gives_bind _ _ _ _ _).mp later
  have passed := (gives_line_break _ _ _).mp broken
  intro values g items
  cases items with
  | stop _ => exact here
  | halt given stays => exact absurd (next_pattern_moves _ _ _ given) stays
  | @more _ h _ pattern others given _ rest =>
      obtain ⟨_, i, other, word⟩ := (gives_bind _ _ _ _ _).mp given
      obtain ⟨-, rfl⟩ := gives_unique bar other
      have sameLine : e.pastBreak = e := by
        rw [Cursor.pastBreak, if_neg]
        intro newline
        exact not_fails_of_gives word (rejects_word_at_delimiter (by rw [newline]; rfl))
      rw [sameLine] at passed
      subst passed
      have ends : Barred h → d = h := command_ends_with_word command word
      by_cases barred : Barred h
      · obtain rfl := ends barred
        exact behind others g rest
      · have noBar : ¬ standsAlone '|' h.rest := fun alone => barred (Or.inr (Or.inl alone.1))
        obtain rfl := patterns_stay noBar rest
        exact free h barred (word_within_command command word)

theorem patterns_whole_at_stage (whole : PatternsWhole d) (read : nextStage.Reads c node d) :
    PatternsWhole c := by
  refine patterns_at_stage read ?_ ?_ whole
  · obtain ⟨_, e, bar, later⟩ := (gives_bind _ _ _ _ _).mp read
    obtain ⟨_, f, broken, command⟩ := (gives_bind _ _ _ _ _).mp later
    have head : c.rest.head? = some '|' := ((gives_lone_operator _ _ _ _).mp bar).1.1
    refine ⟨not_stuck_of_head head (by decide), fun g other stuck => ?_⟩
    obtain ⟨-, rfl⟩ := gives_unique bar other
    rw [← (gives_line_break _ _ _).mp broken, past_break_of_stuck stuck] at command
    exact not_fails_of_gives command (Barred.rejects_command (Or.inr (Or.inr stuck)))
  · intro e unbarred _
    refine ⟨fun stuck => unbarred (Or.inr (Or.inr stuck)), fun f bar => ?_⟩
    exact absurd (Or.inr (Or.inl ((gives_lone_operator _ _ _ _).mp bar).1.1)) unbarred

theorem patterns_leave_at_stage (leave : PatternsLeave d) (read : nextStage.Reads c node d) :
    PatternsLeave c := by
  refine patterns_at_stage read ?_ (fun e unbarred _ empty => unbarred (Or.inl empty)) leave
  obtain ⟨_, e, bar, -⟩ := (gives_bind _ _ _ _ _).mp read
  exact ne_nil_of_head ((gives_lone_operator _ _ _ _).mp bar).1.1

-- What holds behind each stage of a pipeline that ends at a place.
structure StageEnd (last c : Cursor) : Prop where
  halts : Halts c.rest
  whole : PatternsWhole c
  leave : last.rest ≠ [] → PatternsLeave c

theorem stage_leaves {last : Cursor} (leave : last.rest = [] → LineLeaves c)
    (command : (call .command).Reads c node d) (ends : StageEnd last d) : CommandLeaves c := by
  by_cases whole : last.rest = []
  · exact leave whole c .here
  · exact command_leaves command (ends.leave whole)

theorem stages_closed {others : List Node} (known : Known c) (ends : EndsPipeline d.rest)
    (leave : d.rest = [] → ∀ e, (loneOperator '|').Reads c () e → LineLeaves e.pastBreak)
    (stages : Items (reading grammar) nextStage c others d) :
    Items (reading grammar) nextStage (closed c) (others.map Node.shifted) (closed d) ∧ StageEnd d c := by
  have stops : nextStage.Rejects (closed d) := by
    refine (fails_bind _ _ _).mpr (Or.inl (rejects_lone_closed (by decide) ?_))
    exact (fails_lone_operator _ _).mpr ends.noBar
  have last : StageEnd d d := ⟨ends.halts, patterns_whole_without_bar ends.noBar (not_stuck_of_halts ends.halts),
    patterns_leave_without_bar ends.noBar⟩
  refine items_closed_from (P := StageEnd d) (Q := fun e => e.rest <:+ c.rest ∧
    (d.rest = [] → ∀ f, (loneOperator '|').Reads e () f → LineLeaves f.pastBreak)) ?_ ?_ (fun _ => stops)
    ⟨List.suffix_refl _, leave⟩ last stages
  · rintro e stage f ⟨suffix, leave⟩ read behind
    have here := known.behind suffix
    obtain ⟨_, g, bar, later⟩ := (gives_bind _ _ _ _ _).mp read
    obtain ⟨_, h, broken, command⟩ := (gives_bind _ _ _ _ _).mp later
    have atBreak := here.past bar
    have commandLeaves : CommandLeaves h := by
      refine stage_leaves (fun whole => ?_) command behind
      rw [← (gives_line_break _ _ _).mp broken]
      exact leave whole g bar
    have commandClosed := command_carried (atBreak.past broken) stage f command
      ⟨behind.halts, behind.whole, commandLeaves⟩
    have head : e.rest.head? = some '|' := ((gives_lone_operator _ _ _ _).mp bar).1.1
    refine ⟨?_, halts_of_head head (by decide), patterns_whole_at_stage behind.whole read,
      fun remains => patterns_leave_at_stage (behind.leave remains) read⟩
    refine reads_bind (reads_lone_closed here.uncommented (by decide) bar) ?_
    exact reads_bind (reads_line_break_closed atBreak.uncommented broken) commandClosed
  · rintro e stage f ⟨suffix, leave⟩ read
    obtain ⟨_, g, bar, later⟩ := (gives_bind _ _ _ _ _).mp read
    obtain ⟨_, h, broken, command⟩ := (gives_bind _ _ _ _ _).mp later
    obtain rfl := (gives_line_break _ _ _).mp broken
    refine ⟨(reads_forward read).trans suffix, fun whole i next j starts => ?_⟩
    exact leave whole g bar j (.stage command next starts)

theorem reads_pipe_sequence_closed (known : Known c) (ends : EndsPipeline d.rest)
    (leave : d.rest = [] → LineLeaves c) (read : pipeSequence.Reads c node d) :
    pipeSequence.Reads (closed c) node.shifted (closed d) := by
  obtain ⟨first, e, command, read⟩ := (gives_bind _ _ _ _ _).mp read
  obtain ⟨others, f, stages, made⟩ := (gives_bind _ _ _ _ _).mp read
  have same : f = d := by
    cases others with
    | nil | cons => exact ((gives_pure _ _ _ _).mp made).2
  subst same
  obtain ⟨stagesClosed, behind⟩ := stages_closed (known.past command) ends
    (fun whole g bar h starts => leave whole h (.stage command bar starts)) ((gives_many _ _ _ _).mp stages)
  have commandClosed := command_carried known first e command
    ⟨behind.halts, behind.whole, stage_leaves leave command behind⟩
  refine reads_bind commandClosed (reads_bind (reads_many stagesClosed) ?_)
  cases others with
  | nil =>
      obtain ⟨rfl, -⟩ := (gives_pure _ _ _ _).mp made
      exact reads_pure _ _
  | cons second more =>
      obtain ⟨rfl, -⟩ := (gives_pure _ _ _ _).mp made
      rw [shifted_of_nodes]
      exact reads_pure _ _

theorem reads_pipeline_closed (known : Known c) (ends : EndsPipeline d.rest)
    (leave : d.rest = [] → LineLeaves c) (read : pipeline.Reads c node d) :
    pipeline.Reads (closed c) node.shifted (closed d) := by
  rw [pipeline, Reads, gives_atomic] at read ⊢
  rcases (gives_attempt_bind _ _ _ _ _).mp read with ⟨_, e, bang, later⟩ | ⟨noBang, later⟩
  · obtain ⟨stages, f, sequence, made⟩ := (gives_bind _ _ _ _ _).mp later
    obtain ⟨rfl, rfl⟩ := (gives_pure _ _ _ _).mp made
    have sequenceClosed := reads_pipe_sequence_closed (known.past bang) ends
      (fun whole g starts => leave whole g (.bang bang starts)) sequence
    refine reads_bind (reads_tried (reads_keyword_closed known.uncommented (by decide) bang)) ?_
    simp only [Option.isSome_some, if_true, shifted_wrap]
    exact reads_bind sequenceClosed (reads_pure _ _)
  · obtain ⟨stages, f, sequence, made⟩ := (gives_bind _ _ _ _ _).mp later
    obtain ⟨rfl, rfl⟩ := (gives_pure _ _ _ _).mp made
    have sequenceClosed := reads_pipe_sequence_closed known ends leave sequence
    refine reads_bind (reads_missed (rejects_keyword_closed (by decide) noBang)) ?_
    simp only [Option.isSome_none, Bool.false_eq_true, if_false]
    exact reads_bind sequenceClosed (reads_pure _ _)

end Pipelines

section Chains

def mapLink (shift : Node → Node) (link : Kind × Node) : Kind × Node := (link.1, shift link.2)

theorem moved_chain (move : Nat → Nat) (first : Node) (links : List (Kind × Node)) :
    (chainNode first links).moved move = chainNode (first.moved move) (links.map (mapLink (Node.moved move))) := by
  induction links generalizing first with
  | nil => rfl
  | cons link others ih =>
      rw [chainNode, List.foldl_cons, ← chainNode, ih, List.map_cons, chainNode, chainNode, List.foldl_cons,
        moved_of_nodes]
      rfl

theorem reads_link_operator_closed {kind : Kind} (uncommented : '#' ∉ c.rest)
    (read : linkOperator.Reads c kind d) : linkOperator.Reads (closed c) kind (closed d) := by
  rcases (gives_or_else _ _ _ _ _).mp read with both | ⟨noBoth, either⟩
  · obtain ⟨_, e, joined, made⟩ := (gives_bind _ _ _ _ _).mp both
    obtain ⟨rfl, rfl⟩ := (gives_pure _ _ _ _).mp made
    exact reads_first (reads_bind (reads_operator_closed uncommented joined) (reads_pure _ _))
  · obtain ⟨_, e, joined, made⟩ := (gives_bind _ _ _ _ _).mp either
    obtain ⟨rfl, rfl⟩ := (gives_pure _ _ _ _).mp made
    refine reads_second ?_ (reads_bind (reads_operator_closed uncommented joined) (reads_pure _ _))
    simp only [fails_bind, fails_pure, and_false, exists_false, or_false] at noBoth
    exact (fails_bind _ _ _).mpr (Or.inl (rejects_operator_closed (by decide) noBoth))

theorem ends_pipeline_of_link {kind : Kind} (read : linkOperator.Reads c kind d) : EndsPipeline c.rest := by
  have ends : ∀ {ch : Char} {rest : List Char}, ch ∈ ['&', '|'] → c.rest = ch :: ch :: rest →
      EndsPipeline c.rest := by
    intro ch rest sign here
    have head : c.rest.head? = some ch := by rw [here]; rfl
    refine ⟨halts_of_head head ((by decide : ∀ ch ∈ ['&', '|'], ch ∈ ['\n', ')', ';', '&', '|']) ch sign), ?_⟩
    rw [here]
    rintro ⟨first, second⟩
    exact second first
  rcases (gives_or_else _ _ _ _ _).mp read with both | ⟨-, either⟩
  · obtain ⟨_, e, joined, -⟩ := (gives_bind _ _ _ _ _).mp both
    obtain ⟨rest, here⟩ := ((gives_operator _ _ _ _).mp joined).1
    exact ends (by decide : '&' ∈ _) here.symm
  · obtain ⟨_, e, joined, -⟩ := (gives_bind _ _ _ _ _).mp either
    obtain ⟨rest, here⟩ := ((gives_operator _ _ _ _).mp joined).1
    exact ends (by decide : '|' ∈ _) here.symm

theorem link_closed {link : Kind × Node} (known : Known c) (ends : EndsPipeline d.rest)
    (leave : d.rest = [] → ∀ kind e, linkOperator.Reads c kind e → LineLeaves e.pastBreak)
    (read : andOrLink.Reads c link d) :
    andOrLink.Reads (closed c) (mapLink Node.shifted link) (closed d) ∧ EndsPipeline c.rest := by
  obtain ⟨kind, e, joined, read⟩ := (gives_bind _ _ _ _ _).mp read
  obtain ⟨_, f, broken, read⟩ := (gives_bind _ _ _ _ _).mp read
  obtain ⟨right, g, piped, made⟩ := (gives_bind _ _ _ _ _).mp read
  obtain ⟨rfl, rfl⟩ := (gives_pure _ _ _ _).mp made
  have atBreak := known.past joined
  have lineLeaves : g.rest = [] → LineLeaves f := by
    rw [← (gives_line_break _ _ _).mp broken]
    exact fun whole => leave whole kind e joined
  refine ⟨?_, ends_pipeline_of_link joined⟩
  refine reads_bind (reads_link_operator_closed known.uncommented joined) ?_
  refine reads_bind (reads_line_break_closed atBreak.uncommented broken) ?_
  exact reads_bind (reads_pipeline_closed (atBreak.past broken) ends lineLeaves piped) (reads_pure _ _)

theorem rejects_link (noBoth : ¬ "&&".toList <+: c.rest) (noEither : ¬ "||".toList <+: c.rest) :
    andOrLink.Rejects c := by
  refine (fails_bind _ _ _).mpr (Or.inl ((fails_or_else _ _ _).mpr ⟨?_, ?_⟩))
  · exact (fails_bind _ _ _).mpr (Or.inl ((fails_operator _ _).mpr noBoth))
  · exact (fails_bind _ _ _).mpr (Or.inl ((fails_operator _ _).mpr noEither))

theorem rejects_link_closed (ends : EndsChain c.rest) : andOrLink.Rejects (closed c) :=
  rejects_link ((prefix_closed (by decide)).not.mpr ends.noBoth) ((prefix_closed (by decide)).not.mpr ends.noEither)

theorem links_closed {links : List (Kind × Node)} (known : Known c) (ends : EndsChain d.rest)
    (leave : d.rest = [] → ∀ kind e, linkOperator.Reads c kind e → LineLeaves e.pastBreak)
    (items : Items (reading grammar) andOrLink c links d) :
    Items (reading grammar) andOrLink (closed c) (links.map (mapLink Node.shifted)) (closed d) ∧
      EndsPipeline c.rest ∧ d.rest <:+ c.rest := by
  refine items_closed_from (P := fun e => EndsPipeline e.rest ∧ d.rest <:+ e.rest)
    (Q := fun e => e.rest <:+ c.rest ∧
      (d.rest = [] → ∀ kind f, linkOperator.Reads e kind f → LineLeaves f.pastBreak)) ?_ ?_
    (fun _ => rejects_link_closed ends) ⟨List.suffix_refl _, leave⟩ ⟨ends.toEndsPipeline, List.suffix_refl _⟩ items
  · rintro e link f ⟨suffix, leave⟩ read ⟨behind, last⟩
    have whole : f.rest = [] → d.rest = [] := fun empty => List.suffix_nil.mp (empty ▸ last)
    obtain ⟨readClosed, here⟩ :=
      link_closed (known.behind suffix) behind (fun empty => leave (whole empty)) read
    exact ⟨readClosed, here, last.trans (reads_forward read)⟩
  · rintro e link f ⟨suffix, leave⟩ read
    obtain ⟨kind, g, joined, later⟩ := (gives_bind _ _ _ _ _).mp read
    obtain ⟨_, h, broken, later⟩ := (gives_bind _ _ _ _ _).mp later
    obtain ⟨right, i, piped, made⟩ := (gives_bind _ _ _ _ _).mp later
    obtain ⟨-, rfl⟩ := (gives_pure _ _ _ _).mp made
    obtain rfl := (gives_line_break _ _ _).mp broken
    refine ⟨(reads_forward read).trans suffix, fun whole nextKind j next k starts => ?_⟩
    exact leave whole kind g joined k (.link piped next starts)

theorem chain_carried (known : Known c) : Carried .andOr c := by
  rintro node d read ⟨ends, leave⟩
  rw [reads_call] at read ⊢
  obtain ⟨first, e, piped, read⟩ := (gives_bind _ _ _ _ _).mp read
  obtain ⟨links, f, linked, made⟩ := (gives_bind _ _ _ _ _).mp read
  obtain ⟨rfl, rfl⟩ := (gives_pure _ _ _ _).mp made
  obtain ⟨linksClosed, behind, last⟩ := links_closed (known.past piped) ends
    (fun whole kind g joined h starts => leave whole h (.link piped joined starts)) ((gives_many _ _ _ _).mp linked)
  have pipelineClosed := reads_pipeline_closed known behind
    (fun empty => leave (List.suffix_nil.mp (empty ▸ last))) piped
  have chained := moved_chain (· + 1) first links
  rw [← shifted_is_moved, chainNode, chainNode] at chained
  rw [chained]
  exact reads_bind pipelineClosed (reads_bind (reads_many linksClosed) (reads_pure _ _))

end Chains

theorem rule_carried (c : Cursor) (uncommented : '#' ∉ c.rest) (rule : Rule) : Carried rule c := by
  have known : Known c := ⟨uncommented, fun inner e behind earlier =>
    rule_carried e (uncommented_behind uncommented behind) inner⟩
  cases rule with
  | word => exact word_carried known
  | redirection => exact redirection_carried known
  | operand => exact operand_carried known
  | command => exact command_carried known
  | andOr => exact chain_carried known
  | conditional => exact conditional_carried known fun e suffix => chain_carried (known.behind suffix)
termination_by c.left

end ShellLine.Closure
