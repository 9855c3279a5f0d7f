import ShellLine.Proofs.Followed.Substitution

set_option autoImplicit false

namespace ShellLine

namespace Grammar

open ShellLine.Parser Closure

variable {b c d e : Cursor} {node : Node}

section Sole

def EndsTerm (e d : Cursor) : Prop :=
  (separator false).Rejects e ∧ e = d ∨ (separator false).Reads e .sequential d ∧ (call .andOr).Rejects d

-- A simple command is the only command of the lines up to a place.
structure EndsLines (e d : Cursor) : Prop where
  noStage : nextStage.Rejects e
  noLink : andOrLink.Rejects e
  term : EndsTerm e d
  noCommand : nextCommand.Rejects d

theorem sole_command (simple : node.kind = .simpleCommand) : (call .command).Reads c node d ↔
    functionDefinition.Rejects c ∧ compoundCommand.Rejects c ∧ simpleCommand.Reads c node d := by
  constructor
  · intro read
    rw [reads_call] at read
    rcases (gives_or_else _ _ _ _ _).mp read with function | ⟨noFunction, read⟩
    · rw [functionDefinition, gives_look_bind] at function
      split at function
      · exact absurd function (gives_fail _ _ _)
      · simp only [gives_atomic, gives_bind, gives_pure] at function
        obtain ⟨_, _, -, _, _, -, _, _, -, _, _, -, _, _, -, _, _, -, _, _, -, rfl, -⟩ := function
        cases simple
    · rcases (gives_or_else _ _ _ _ _).mp read with grouped | ⟨noCompound, read⟩
      · obtain ⟨compound, _, given, redirected⟩ := (gives_bind _ _ _ _ _).mp grouped
        cases with_redirections_form redirected
        have feature := compound_form_feature (compound_command_form given)
        rw [show compound.kind = .simpleCommand from simple] at feature
        cases feature
      · refine ⟨noFunction, ?_, read⟩
        rcases (fails_bind _ _ _).mp noCompound with rejected | ⟨_, _, _, unredirected⟩
        · exact rejected
        · simp [withRedirections] at unredirected
  · rintro ⟨noFunction, noCompound, read⟩
    exact simple_command_is_command noFunction noCompound read

theorem sole_stage (simple : node.kind = .simpleCommand) :
    pipeSequence.Reads c node d ↔ (call .command).Reads c node d ∧ nextStage.Rejects d := by
  constructor
  · intro read
    obtain ⟨first, e, others, given, stages, rfl⟩ := pipe_sequence_form read
    cases stages with
    | stop rejected => exact ⟨given, rejected⟩
    | halt | more => cases simple
  · rintro ⟨given, rejected⟩
    exact command_is_sequence given rejected

theorem sole_pipeline (simple : node.kind = .simpleCommand) : pipeline.Reads c node d ↔
    startsReserved "!".toList c.rest = false ∧ pipeSequence.Reads c node d := by
  constructor
  · intro read
    rw [pipeline, Reads, gives_atomic, gives_attempt_bind] at read
    rcases read with ⟨_, e, -, made⟩ | ⟨noBang, made⟩
    · obtain ⟨stages, f, -, made⟩ := (gives_bind _ _ _ _ _).mp made
      obtain ⟨rfl, rfl⟩ := (gives_pure _ _ _ _).mp made
      cases simple
    · obtain ⟨stages, f, read, made⟩ := (gives_bind _ _ _ _ _).mp made
      obtain ⟨rfl, rfl⟩ := (gives_pure _ _ _ _).mp made
      exact ⟨(fails_keyword _ _).mp noBang, read⟩
  · rintro ⟨noBang, read⟩
    exact sequence_is_pipeline noBang read

theorem sole_chain (simple : node.kind = .simpleCommand) :
    (call .andOr).Reads c node d ↔ pipeline.Reads c node d ∧ andOrLink.Rejects d := by
  constructor
  · intro read
    rw [reads_call] at read
    obtain ⟨first, e, given, read⟩ := (gives_bind _ _ _ _ _).mp read
    obtain ⟨links, f, items, made⟩ := (gives_bind _ _ _ _ _).mp read
    obtain ⟨rfl, rfl⟩ := (gives_pure _ _ _ _).mp made
    rw [gives_many] at items
    rcases List.eq_nil_or_concat links with rfl | ⟨init, last, rfl⟩
    · cases items with
      | stop rejected => exact ⟨given, rejected⟩
    · -- The last link gives a chain its kind.
      obtain ⟨_, _, link⟩ := items_given items last (by simp)
      rw [List.concat_eq_append, List.foldl_append] at simple
      cases and_or_link_form link with
      | @link _ _ text kind _ operators _ _ =>
          have every : ∀ pair ∈ chainOperators, pair.2 ≠ .simpleCommand := by decide
          exact absurd simple (every (text, kind) operators)
  · rintro ⟨given, rejected⟩
    exact pipeline_is_chain given rejected

theorem rejects_chain_at_stop {lines : Bool} (stopped : (term lines).Reads c .stop d) :
    (call .andOr).Rejects d ∧ c = d := by
  rcases (gives_attempt_bind _ _ _ _ _).mp stopped with ⟨first, e, -, later⟩ | ⟨noChain, made⟩
  · rcases (gives_attempt_bind _ _ _ _ _).mp later with ⟨kind, f, -, made⟩ | ⟨-, made⟩
    · cases kind <;> cases ((gives_pure _ _ _ _).mp made).1
    · cases ((gives_pure _ _ _ _).mp made).1
  · obtain ⟨-, rfl⟩ := (gives_pure _ _ _ _).mp made
    exact ⟨noChain, rfl⟩

theorem sole_term (simple : node.kind = .simpleCommand) :
    (termList false).Reads c node d ↔ ∃ e, (call .andOr).Reads c node e ∧ EndsTerm e d := by
  constructor
  · intro read
    cases term_list_form read with
    | several => cases simple
    | only turns =>
        cases turns with
        | last given =>
            cases term_form given with
            | last chain ended => exact ⟨d, chain, Or.inl ⟨ended, rfl⟩⟩
        | halt given stays => exact absurd (term_moves _ _ _ _ given) stays
        | more given _ rest =>
            obtain ⟨first, e, kind, chain, separated, rfl⟩ := more_term_form given
            cases kind with
            | background => cases simple
            | sequential =>
                cases rest with
                | stop stopped =>
                    obtain ⟨noChain, rfl⟩ := rejects_chain_at_stop stopped
                    exact ⟨e, chain, Or.inr ⟨separated, noChain⟩⟩
  · rintro ⟨e, chain, ended⟩
    rcases ended with ⟨none, rfl⟩ | ⟨separated, noChain⟩
    · exact chain_is_list chain none
    · have read : (term false).Reads c (.more node) d := reads_more_term chain separated
      have stop : (term false).Reads d .stop d := reads_bind (reads_missed noChain) (reads_pure _ _)
      exact reads_bind (reads_rounds (.more read (term_moves _ _ _ _ read) (.stop stop))) (reads_pure _ _)

theorem sole_complete_command : completeCommands.Reads c [.wrap .completeCommand node] d ↔
    (termList false).Reads c node d ∧ nextCommand.Rejects d := by
  constructor
  · intro read
    cases complete_commands_form read with
    | some given items =>
        obtain ⟨inner, list, same⟩ := complete_command_form given
        obtain ⟨-, same⟩ := Node.of_nodes_injective _ _ _ _ same
        cases same
        cases items with
        | stop rejected => exact ⟨list, rejected⟩
  · rintro ⟨list, rejected⟩
    exact list_is_commands list rejected

theorem sole_command_lines (simple : node.kind = .simpleCommand) :
    completeCommands.Reads c [.wrap .completeCommand node] d ↔ startsReserved "!".toList c.rest = false ∧
      functionDefinition.Rejects c ∧ compoundCommand.Rejects c ∧
      ∃ e, simpleCommand.Reads c node e ∧ EndsLines e d := by
  rw [sole_complete_command, sole_term simple]
  simp only [sole_chain simple, sole_pipeline simple, sole_stage simple, sole_command simple]
  constructor
  · rintro ⟨⟨e, ⟨⟨noBang, ⟨noFunction, noCompound, read⟩, noStage⟩, noLink⟩, term⟩, noCommand⟩
    exact ⟨noBang, noFunction, noCompound, e, read, noStage, noLink, term, noCommand⟩
  · rintro ⟨noBang, noFunction, noCompound, e, read, noStage, noLink, term, noCommand⟩
    exact ⟨⟨e, ⟨⟨noBang, ⟨noFunction, noCompound, read⟩, noStage⟩, noLink⟩, term⟩, noCommand⟩

end Sole

section Behind

theorem simple_command_behind {item : Node} (lead : leadItem.Reads b item c) (moved : c.left < b.left)
    (read : simpleCommand.Reads c node d) : ∃ items others,
      node = .ofNodes .simpleCommand (leadNodes items ++ others) ∧
        simpleCommand.Reads b (.ofNodes .simpleCommand (leadNodes (item :: items) ++ others)) d := by
  obtain ⟨items, e, leads, read⟩ := (gives_bind _ _ _ _ _).mp read
  have more : (many leadItem).Reads b (item :: items) e :=
    reads_many (.more lead moved ((gives_many _ _ _ _).mp leads))
  rcases (gives_attempt_bind _ _ _ _ _).mp read with ⟨first, f, name, read⟩ | ⟨noName, made⟩
  · obtain ⟨others, g, arguments, made⟩ := (gives_bind _ _ _ _ _).mp read
    obtain ⟨rfl, rfl⟩ := (gives_pure _ _ _ _).mp made
    refine ⟨items, first :: others, rfl, reads_bind more (reads_bind (reads_tried name) ?_)⟩
    exact reads_bind arguments (reads_pure _ _)
  · by_cases none : items = []
    · simp only [if_pos none, gives_fail] at made
    · simp only [if_neg none, gives_pure] at made
      obtain ⟨rfl, rfl⟩ := made
      refine ⟨items, [], ?_, reads_bind more (reads_bind (reads_missed noName) ?_)⟩
      · rw [List.append_nil, leadNodes, if_neg none]
      · rw [List.append_nil]
        exact reads_pure _ _

end Behind

section Contents

variable {items others : List Node}

theorem words_behind_lead (items others : List Node) :
    (Node.ofNodes .simpleCommand (leadNodes items ++ others)).words =
      others.filter fun node => node.kind = .word := by
  rw [Node.words_of_row, List.filter_append, leadNodes]
  split <;> rfl

theorem mem_features_behind_lead {feature : Feature} :
    feature ∈ (Node.ofNodes .simpleCommand (leadNodes items ++ others)).features ↔
      (∃ item ∈ items, feature ∈ item.features) ∨ ∃ node ∈ others, feature ∈ node.features := by
  rw [leadNodes, mem_features_of_row]
  split
  · simp [*, Kind.feature?]
  · simp [mem_features_of_row, Kind.feature?]

theorem no_here_document_behind_lead :
    (Node.ofNodes .simpleCommand (leadNodes items ++ others)).firstHereDocument? = none ↔
      (∀ item ∈ items, item.firstHereDocument? = none) ∧ ∀ node ∈ others, node.firstHereDocument? = none := by
  rw [leadNodes, no_here_document_of_row rfl]
  split
  · simp [*]
  · rw [List.singleton_append, List.forall_mem_cons, no_here_document_of_row rfl]

end Contents

-- A quoted text in front of a command: the value of a parameter, or the file its output goes to.
inductive QuotedLead where
  | assigned (parameter quoted : List Char) (starts : parameter.head?.any startsName = true)
      (continued : ∀ ch ∈ parameter, continuesName ch = true) (closed : '\'' ∉ quoted)
  | output (quoted : List Char) (closed : '\'' ∉ quoted)

namespace QuotedLead

def written : QuotedLead → List Char
  | assigned parameter quoted .. => parameter ++ '=' :: '\'' :: quoted ++ ['\'']
  | output quoted _ => '>' :: '\'' :: quoted ++ ['\'']

def feature : QuotedLead → Feature
  | assigned .. => .assignment
  | output .. => .redirect

def item : QuotedLead → Node
  | assigned parameter quoted .. =>
      ⟨.assignment, .text parameter (.ofNodes [.wrap .word (.leaf .singleQuote quoted)]), none⟩
  | output quoted _ => .wrap .redirection (.wrap .output (.wrap .word (.leaf .singleQuote quoted)))

theorem features_item (lead : QuotedLead) : lead.item.features = [lead.feature] := by
  cases lead <;> rfl

theorem item_without_here_document (lead : QuotedLead) : lead.item.firstHereDocument? = none := by
  cases lead <;> rfl

theorem written_start (lead : QuotedLead) (text : List Char) :
    ∃ ch, (lead.written ++ text).head? = some ch ∧ ch ∉ [' ', '\t', '#', '\\', '\n', '!'] := by
  cases lead with
  | output => exact ⟨'>', rfl, by decide⟩
  | assigned parameter quoted starts =>
      obtain ⟨ch, head, starts⟩ := (Option.any_eq_true _ _).mp starts
      obtain ⟨others, rfl⟩ := List.head?_eq_some_iff.mp head
      have apart : ∀ mark ∈ [' ', '\t', '#', '\\', '\n', '!'], startsName mark = false := by decide
      exact ⟨ch, rfl, fun member => Bool.false_ne_true ((apart ch member).symm.trans starts)⟩

section Read

variable {quoted text : List Char}

theorem reads_quoted_word (closed : '\'' ∉ quoted) (idle : layoutLength false false text = 0) :
    (call .word).Reads (.start ('\'' :: quoted ++ '\'' :: ' ' :: text)) (.wrap .word (.leaf .singleQuote quoted))
      (.start text) := by
  rw [← past_blank idle]
  exact word_of_part (reads_single closed (' ' :: text)) (rejects_part_at_delimiter rfl)

theorem reads_output (closed : '\'' ∉ quoted) (idle : layoutLength false false text = 0) :
    leadItem.Reads (.start ('>' :: '\'' :: quoted ++ '\'' :: ' ' :: text)) (output quoted closed).item
      (.start text) := by
  have target := reads_quoted_word closed idle
  have noDescriptor : redirectedDescriptor.Rejects (.start ('>' :: '\'' :: quoted ++ '\'' :: ' ' :: text)) :=
    rejects_descriptor_iff.mpr fun describes => describes.1 rfl
  have operator : (literalAmong redirectionOperators).Reads (.start ('>' :: '\'' :: quoted ++ '\'' :: ' ' :: text))
      .output (.start ('\'' :: quoted ++ '\'' :: ' ' :: text)) := by
    simp [literalAmong, redirectionOperators]
    exact Cursor.advance_start_one ..
  have idle : blanks.Reads (.start ('\'' :: quoted ++ '\'' :: ' ' :: text)) ()
      (.start ('\'' :: quoted ++ '\'' :: ' ' :: text)) := by
    rw [Reads, gives_blanks, past_blanks_at rfl (by decide)]
  refine reads_first ((reads_call _ _ _ _).mpr (reads_bind (reads_missed noDescriptor) ?_))
  refine reads_bind ((gives_place _ _ _).mpr ⟨rfl, rfl⟩) (reads_bind operator (reads_bind idle ?_))
  exact reads_bind target (reads_pure _ _)

theorem reads_parameter {parameter : List Char} (starts : parameter.head?.any startsName = true)
    (continued : ∀ ch ∈ parameter, continuesName ch = true) :
    name.Reads (.start (parameter ++ '=' :: text)) parameter (.start ('=' :: text)) := by
  have whole : (parameter ++ '=' :: text).takeWhile continuesName = parameter :=
    take_while_stops continued (by rintro _ ⟨rfl⟩; decide)
  refine (gives_name _ _ _).mpr ⟨?_, whole, ?_⟩
  · obtain ⟨ch, head, starts⟩ := (Option.any_eq_true _ _).mp starts
    rw [Cursor.rest_start, List.head?_append, head]
    exact starts
  · rw [Cursor.rest_start, whole, Cursor.advance_start]

theorem reads_assigned {parameter : List Char} (starts : parameter.head?.any startsName = true)
    (continued : ∀ ch ∈ parameter, continuesName ch = true) (closed : '\'' ∉ quoted)
    (idle : layoutLength false false text = 0) :
    leadItem.Reads (.start (parameter ++ '=' :: '\'' :: quoted ++ '\'' :: ' ' :: text))
      (assigned parameter quoted starts continued closed).item (.start text) := by
  rw [List.append_assoc, List.cons_append]
  have named : name.Reads _ parameter (.start ('=' :: ('\'' :: quoted ++ '\'' :: ' ' :: text))) :=
    reads_parameter starts continued
  have equals : (literal "=").Reads (.start ('=' :: ('\'' :: quoted ++ '\'' :: ' ' :: text))) ()
      (.start ('\'' :: quoted ++ '\'' :: ' ' :: text)) :=
    (gives_literal _ _ _ _).mpr ⟨List.cons_prefix_cons.mpr ⟨rfl, List.nil_prefix⟩, Cursor.advance_start_one ..⟩
  have part : (wordPart false).Reads _ _ _ := reads_single closed (' ' :: text)
  have value : (wordParts false).Reads (.start ('\'' :: quoted ++ '\'' :: ' ' :: text)) [.leaf .singleQuote quoted]
      (.start (' ' :: text)) :=
    reads_many (.more part (word_part_moves part) (.stop (rejects_part_at_delimiter rfl)))
  have blank : blanks.Reads (.start (' ' :: text)) () (.start text) :=
    (gives_blanks _ _ _).mpr (past_blank idle)
  refine reads_second (rejects_redirection_at_name named) ?_
  refine reads_atomic (reads_bind named (reads_bind equals (reads_bind value (reads_bind blank ?_))))
  exact reads_pure _ _

theorem reads_item (lead : QuotedLead) (idle : layoutLength false false text = 0) :
    leadItem.Reads (.start (lead.written ++ ' ' :: text)) lead.item (.start text) := by
  cases lead with
  | assigned parameter quoted starts continued closed =>
      have read := reads_assigned starts continued closed idle
      simpa [written] using read
  | output quoted closed =>
      have read := reads_output closed idle
      simpa [written] using read

theorem rejects_function (lead : QuotedLead) : functionDefinition.Rejects (.start (lead.written ++ text)) := by
  cases lead with
  | output => exact rejects_function_definition rfl
  | assigned parameter quoted starts continued closed =>
      have same : (assigned parameter quoted starts continued closed).written ++ text =
          parameter ++ '=' :: ('\'' :: quoted ++ '\'' :: text) := by simp [written]
      rw [same, functionDefinition, Rejects, fails_look_bind]
      split
      · exact fails_fail _
      · rw [fails_atomic, fails_bind]
        refine Or.inr ⟨_, _, reads_parameter starts continued, ?_⟩
        have blank : blanks.Reads (.start ('=' :: ('\'' :: quoted ++ '\'' :: text))) () _ :=
          (gives_blanks _ _ ()).mpr rfl
        refine (fails_bind _ _ _).mpr (Or.inr ⟨(), _, blank, ?_⟩)
        rw [past_blanks_at rfl (by decide), fails_bind, fails_operator]
        exact Or.inl (by simp)

end Read

end QuotedLead

section Programs

variable {text : List Char}

theorem past_lines_of_idle (idle : layoutLength false false c.rest = 0) (sameLine : c.rest.head? ≠ some '\n') :
    c.pastLines = c := by
  rw [← Grammar.past_blanks_and_break, Cursor.pastBlanks, idle, advance_none, Cursor.pastBreak, if_neg sameLine]

theorem idle_at_solid (solid : ∀ ch ∈ text.head?, ch ∉ [' ', '\t', '\n', '#'])
    (sameLine : ¬ ['\\', '\n'] <+: text) : layoutLength false false text = 0 := by
  refine Decidable.byContradiction fun blanks => ?_
  obtain ⟨rest, here | here | here | here⟩ := blanks_start blanks
  · exact solid _ (by rw [here]; rfl) (by decide)
  · exact solid _ (by rw [here]; rfl) (by decide)
  · exact solid _ (by rw [here]; rfl) (by decide)
  · exact sameLine ⟨rest, here.symm⟩

theorem QuotedLead.reads_program (lead : QuotedLead) (idle : layoutLength false false text = 0)
    (simple : node.kind = .simpleCommand)
    (read : completeCommands.Reads (.start text) [.wrap .completeCommand node] d) :
    ∃ items others, node = .ofNodes .simpleCommand (leadNodes items ++ others) ∧
      program.Reads (.start (lead.written ++ ' ' :: text))
        (.programOf (.ofNodes .simpleCommand (leadNodes (lead.item :: items) ++ others))) d.pastBreak := by
  obtain ⟨-, -, -, e, commandRead, ends⟩ := (sole_command_lines simple).mp read
  have itemRead := lead.reads_item idle
  obtain ⟨items, others, rfl, behind⟩ := simple_command_behind itemRead (lead_item_moves _ _ _ itemRead) commandRead
  refine ⟨items, others, rfl, Followed.program_of_parts ?_⟩
  obtain ⟨ch, head, apart⟩ := lead.written_start (' ' :: text)
  simp only [List.mem_cons, not_or] at apart
  have noBang : startsReserved "!".toList (lead.written ++ ' ' :: text) = false :=
    Followed.no_bang_at (c := .start _) head apart.2.2.2.2.2.1
  rw [Followed.past_lines_at head (by simp [apart])]
  exact (sole_command_lines rfl).mpr
    ⟨noBang, lead.rejects_function, rejects_compound_at_simple behind, e, behind, ends⟩

end Programs

end Grammar

open Grammar

/-- Without limits a quoted assignment or a quoted output in front of the only command of a text leaves its
arguments as they are, whatever it has in front of it already, and adds its own feature and no other. -/
theorem quoted_lead_keeps_arguments {style : ErrorStyle} {text : String} {command : Node} (lead : QuotedLead)
    (parsed : parse { Config.unlimited with errorStyle := style } text = .ok (.programOf command))
    (simple : command.kind = .simpleCommand) (solid : ∀ ch ∈ text.toList.head?, ch ∉ [' ', '\t', '\n', '#'])
    (sameLine : ¬ ['\\', '\n'] <+: text.toList) :
    ∃ other, parse { Config.unlimited with errorStyle := style } (String.ofList lead.written ++ " " ++ text) =
        .ok (.programOf other) ∧ other.kind = .simpleCommand ∧
      (Node.programOf other).literalArgv? = (Node.programOf command).literalArgv? ∧
      (Node.programOf other).features =
        Feature.all.filter fun feature => feature ∈ (Node.programOf command).features ∨ feature = lead.feature := by
  obtain ⟨d, read, whole, plain⟩ := parse_ok _ _ _ parsed
  obtain ⟨commands, e, commandsRead, rfl, same⟩ := Followed.program_parts read
  obtain ⟨-, rfl⟩ := Node.of_nodes_injective _ _ _ _ same
  have idle := idle_at_solid solid sameLine
  rw [past_lines_of_idle idle fun newline => solid _ newline (by decide)] at commandsRead
  obtain ⟨items, others, rfl, leadRead⟩ := lead.reads_program idle simple commandsRead
  obtain ⟨plainItems, plainOthers⟩ := no_here_document_behind_lead.mp (Node.no_here_document_program_of.mp plain)
  have noHereDocument := Node.no_here_document_program_of.mpr (no_here_document_behind_lead.mpr
    ⟨List.forall_mem_cons.mpr ⟨lead.item_without_here_document, plainItems⟩, plainOthers⟩)
  refine ⟨.ofNodes .simpleCommand (leadNodes (lead.item :: items) ++ others), ?_, rfl, ?_, ?_⟩
  · have led := parse_of_reads style _ _ _ leadRead whole noHereDocument
    have joined : String.ofList (lead.written ++ ' ' :: text.toList) = String.ofList lead.written ++ " " ++ text := by
      rw [← String.toList_inj]
      simp
    rw [joined] at led
    exact led
  · rw [Node.literal_argv_program_of, Node.literal_argv_program_of, words_behind_lead, words_behind_lead]
    rfl
  · rw [Node.features_program_of, Node.features_program_of]
    refine Followed.features_eq_filter fun feature => ?_
    simp only [decide_eq_true_iff, mem_features_behind_lead, List.mem_cons, exists_eq_or_imp, lead.features_item,
      List.not_mem_nil, or_false]
    rw [or_assoc, or_comm]

theorem leads_in_front_of_lead :
    ∃ command first second, parse Config.unlimited "x=1 cat 'p q'" = .ok (.programOf command) ∧
      parse Config.unlimited "if='(\n#' x=1 cat 'p q'" = .ok (.programOf first) ∧
      parse Config.unlimited ">'a b' if='(\n#' x=1 cat 'p q'" = .ok (.programOf second) ∧
      (Node.programOf second).literalArgv? = (Node.programOf command).literalArgv? ∧
      (Node.programOf second).features = [.redirect, .assignment] := by
  obtain ⟨tree, parsed, seen⟩ := parse_ok_of_view Config.unlimited "x=1 cat 'p q'"
    (fun tree => (tree.literalArgv?, tree.features)) (some ["cat", "p q"], [.assignment]) (by decide +kernel)
  obtain ⟨argv, features⟩ := Prod.mk.inj seen
  obtain ⟨d, read, -⟩ := parse_ok _ _ _ parsed
  obtain ⟨command, rfl, simple, -⟩ := (literal_argv_eq_some read _).mp argv
  obtain ⟨first, firstParsed, firstSimple, firstArgv, firstFeatures⟩ := quoted_lead_keeps_arguments
    (.assigned "if".toList "(\n#".toList (by decide) (by decide) (by decide)) parsed simple
    (by rintro _ ⟨rfl⟩; decide) (by decide)
  obtain ⟨second, secondParsed, -, secondArgv, secondFeatures⟩ := quoted_lead_keeps_arguments
    (.output "a b".toList (by decide)) firstParsed firstSimple (by rintro _ ⟨rfl⟩; decide) (by decide)
  rw [features] at firstFeatures
  rw [firstFeatures] at secondFeatures
  exact ⟨command, first, second, parsed, firstParsed, secondParsed, secondArgv.trans firstArgv, secondFeatures⟩

end ShellLine
