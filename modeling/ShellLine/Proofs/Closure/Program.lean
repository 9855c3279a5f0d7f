import Mathlib.Data.List.Infix
import ShellLine.Proofs.Closure.Commands

set_option autoImplicit false

namespace ShellLine.Closure

open ShellLine.Parser Grammar

variable {c d : Cursor} {node : Node}

section Separators

theorem reads_more_lines {ch : Char} {kind found : Separator} (read : (signSeparator false ch kind).Reads c found d) :
    (signSeparator true ch kind).Reads c found d.pastBreak := by
  obtain ⟨_, e, sign, later⟩ := (gives_bind _ _ _ _ _).mp read
  obtain ⟨_, f, passed, made⟩ := (gives_bind _ _ _ _ _).mp later
  obtain ⟨-, rfl⟩ := (gives_pure _ _ _ _).mp passed
  obtain ⟨rfl, rfl⟩ := (gives_pure _ _ _ _).mp made
  exact reads_bind sign (reads_bind ((gives_line_break _ _ ()).mpr rfl) (reads_pure _ _))

-- A separator of a line takes up the line break too where lines separate.
theorem separator_takes_lines {kind : Separator} (read : (separator false).Reads c kind d) :
    (separator true).Reads c kind d.pastBreak := by
  have missing : ∀ {ch : Char} {kind : Separator}, (signSeparator false ch kind).Rejects c →
      (signSeparator true ch kind).Rejects c :=
    fun rejected => rejects_sign_separator_iff.mpr (rejects_sign_separator_iff.mp rejected)
  rcases (gives_or_else _ _ _ _ _).mp read with background | ⟨noBackground, read⟩
  · exact reads_first (reads_more_lines background)
  · refine reads_second (missing noBackground) ?_
    rcases (gives_or_else _ _ _ _ _).mp read with semicolon | ⟨-, newline⟩
    · exact reads_first (reads_more_lines semicolon)
    · cases newline

theorem reads_newline_separator (newline : c.rest.head? = some '\n') :
    (separator true).Reads c .sequential c.pastBreak := by
  have missing : ∀ {ch : Char} {kind : Separator}, ch ≠ '\n' → (signSeparator true ch kind).Rejects c := by
    intro ch kind other
    refine rejects_sign_separator_iff.mpr ((fails_lone_operator _ _).mpr fun alone => other ?_)
    exact Option.some.inj (alone.1.symm.trans newline)
  have passed : newlines.Reads c () c.pastBreak := by
    rw [Cursor.pastBreak, if_pos newline]
    exact (gives_newlines _ _ _).mpr ⟨newline, rfl⟩
  refine reads_second (missing (by decide)) (reads_second (missing (by decide)) ?_)
  exact reads_bind passed (reads_pure _ _)

end Separators

section Lists

theorem past_break_of_list {lines : Bool} (read : (termList lines).Reads c node d) : c.pastBreak = c := by
  rw [Cursor.pastBreak, if_neg]
  intro newline
  exact not_fails_of_gives read (rejects_term_list_at_halt (halts_of_head newline (by decide)))

theorem past_break_of_chain (read : (call .andOr).Reads c node d) : c.pastBreak = c := by
  rw [Cursor.pastBreak, if_neg]
  intro newline
  exact not_fails_of_gives read (chain_rejects_at_halt (halts_of_head newline (by decide)))

theorem chain_moves : (call .andOr).Moves := call_moves and_or_moves

theorem reads_stop_at_end (ended : c.pastBreak.rest = []) :
    (term true).Reads (closed c.pastBreak) .stop (closed c.pastBreak) :=
  stops_closed (ends_chain_at_end ended).halts

theorem more_term_in_lines (uncommented : '#' ∉ c.rest) (chains : ChainsCarried c)
    (read : (term false).Reads c (.more node) d) :
    (term true).Reads (closed c.pastBreak) (.more node.shifted) (closed d.pastBreak) := by
  obtain ⟨first, e, kind, chain, separated, rfl⟩ := more_term_form read
  have behind := uncommented_behind uncommented (reads_forward chain)
  have chainClosed := chains c (List.suffix_refl _) first e chain (behind_of_separator separated)
  rw [past_break_of_chain chain, shifted_separated]
  exact reads_more_term chainClosed (reads_separator_closed behind (separator_takes_lines separated))

theorem last_term_in_lines (uncommented : '#' ∉ c.rest) (chains : ChainsCarried c) (leave : LineLeaves c)
    (ended : d.pastBreak.rest = []) (chain : (call .andOr).Reads c node d) :
    Turns (reading grammar) (term true) (closed c.pastBreak) [node.shifted] (closed d.pastBreak) := by
  have behind := uncommented_behind uncommented (reads_forward chain)
  rw [past_break_of_chain chain]
  by_cases newline : d.rest.head? = some '\n'
  · have separated := reads_newline_separator newline
    have chainClosed := chains c (List.suffix_refl _) node d chain (ends_list_of_break newline).behind
    have moved : d.pastBreak.left < c.left :=
      Nat.lt_of_le_of_lt (reads_left_le separated) (chain_moves c node d chain)
    exact .more (reads_more_term chainClosed (reads_separator_closed behind separated))
      (closed_left_lt.mpr moved) (.stop (reads_stop_at_end ended))
  · rw [Cursor.pastBreak, if_neg newline] at ended ⊢
    have behindChain : Behind .andOr c d := ⟨ends_chain_at_end ended, fun _ => leave⟩
    have none : (separator true).Rejects d := by simp [separator, standsAlone, ended, Rejects]
    exact .last (reads_last_term (chains c (List.suffix_refl _) node d chain behindChain)
      (rejects_separator_closed none))

theorem term_turns_in_lines {terms : List Node} (uncommented : '#' ∉ c.rest) (chains : ChainsCarried c)
    (leave : LineLeaves c) (ended : d.pastBreak.rest = []) (turns : Turns (reading grammar) (term false) c terms d) :
    Turns (reading grammar) (term true) (closed c.pastBreak) (terms.map Node.shifted) (closed d.pastBreak) := by
  induction turns with
  | stop given =>
      cases term_form given with
      | stop => exact .stop (reads_stop_at_end ended)
  | last given =>
      cases term_form given with
      | last chain _ => exact last_term_in_lines uncommented chains leave ended chain
  | halt given stays => exact absurd (term_moves false _ _ _ given) stays
  | @more c e d value others given _ _ ih =>
      have suffix := reads_forward given
      have more := more_term_in_lines uncommented chains given
      obtain ⟨first, f, kind, chain, separated, -⟩ := more_term_form given
      have moved : e.pastBreak.left < c.left := Nat.lt_of_le_of_lt
        (reads_left_le (separator_takes_lines separated)) (chain_moves c first f chain)
      rw [past_break_of_chain chain] at more ⊢
      have leaveBehind : LineLeaves e := fun g starts => leave g (.term chain separated starts)
      exact .more more (closed_left_lt.mpr moved)
        (ih (uncommented_behind uncommented suffix) (chains.behind suffix) leaveBehind ended)

theorem reads_lines_closed (uncommented : '#' ∉ c.rest) (chains : ChainsCarried c) (leave : LineLeaves c)
    (ended : d.pastBreak.rest = []) (read : (termList false).Reads c node d) :
    (termList true).Reads (closed c) node.shifted (closed d.pastBreak) := by
  have idle := past_break_of_list read
  refine reads_list_of_terms (fun _ turns => ?_) read
  have carried := term_turns_in_lines uncommented chains leave ended turns
  rwa [idle] at carried

end Lists

section Guard

-- Behind a choice of the line that could go on with one more item nothing but patterns stand, up to
-- the end of the line: with a parenthesis behind it the line could end in the item `esac)`.
def EndsInChoice (text : List Char) : Prop :=
  ∃ c d e values f, CommandStarts (Cursor.start text).pastBlanks.pastBreak c ∧ BodyStarts c d ∧
    OpenChoice d e ∧ Items (reading grammar) nextPattern e values f ∧ f.rest = []

theorem past_break_behind (c : Cursor) : c.pastBreak.rest <:+ c.rest :=
  reads_forward ((gives_line_break c _ ()).mpr rfl)

theorem command_starts_behind (starts : CommandStarts c d) : d.rest <:+ c.rest := by
  induction starts with
  | here => exact List.suffix_refl _
  | bang opened _ ih => exact ih.trans (reads_forward opened)
  | stage command bar _ ih =>
      exact ((ih.trans (past_break_behind _)).trans (reads_forward bar)).trans (reads_forward command)
  | link piped joined _ ih =>
      exact ((ih.trans (past_break_behind _)).trans (reads_forward joined)).trans (reads_forward piped)
  | term chain separated _ ih => exact (ih.trans (reads_forward separated)).trans (reads_forward chain)

theorem body_starts_behind (starts : BodyStarts c d) : d.rest <:+ c.rest := by
  rcases starts with rfl | ⟨chars, read⟩
  · exact List.suffix_refl _
  · exact reads_forward read

theorem not_ends_in_choice {text : List Char} (followed : ∀ tail ∈ text.tails, "esac".toList <+: tail →
    ∃ ch ∈ ['\n', ';', '&', ')'], (tail.drop "esac".length).head? = some ch) : ¬ EndsInChoice text := by
  rintro ⟨c, d, e, values, f, starts, body, ⟨subject, g, items, h, start, ended, -, closing⟩, patterns, empty⟩
  obtain ⟨reserved, rfl⟩ := (gives_keyword _ _ _ ()).mp closing
  have word := starts_of_starts_reserved _ _ reserved
  have behindBlank : (Cursor.start text).pastBlanks.rest <:+ text :=
    reads_forward ((gives_blanks (.start text) _ ()).mpr rfl)
  have behindCommand := (command_starts_behind starts).trans ((past_break_behind _).trans behindBlank)
  have behindItems := reads_forward ((gives_many _ _ _ _).mpr ended)
  have behind := ((behindItems.trans (reads_forward start)).trans (body_starts_behind body)).trans behindCommand
  obtain ⟨ch, listed, head⟩ := followed h.rest ((List.mem_tails _ _).mpr behind) word
  rw [← Cursor.rest_advance] at head
  have solid := (by decide : ∀ ch ∈ ['\n', ';', '&', ')'], ch ∉ [' ', '\t', '#', '\\'] ∧ ch ≠ '|') ch listed
  rw [past_blanks_at head solid.1] at patterns
  have noBar : ¬ standsAlone '|' (h.advance "esac".length).rest :=
    fun alone => solid.2 (Option.some.inj (head.symm.trans alone.1))
  rw [← patterns_stay noBar patterns] at empty
  exact remains_of_head head empty

end Guard

section Subshells

def opened (text : List Char) : Cursor := .start ('(' :: (text ++ [')']))

theorem head_opened (text : List Char) : (opened text).rest.head? = some '(' := rfl

theorem reads_subshell_of_line {text : List Char} (uncommented : '#' ∉ text) (guarded : ¬ EndsInChoice text)
    (read : (termList false).Reads (Cursor.start text).pastBlanks.pastBreak node d)
    (ended : d.pastBreak.rest = []) :
    ∃ e, subshell.Reads (opened text) (.wrap .subshell node.shifted) e ∧ e.rest = [] := by
  have blank : blanks.Reads (.start text) () (Cursor.start text).pastBlanks := (gives_blanks _ _ _).mpr rfl
  have broken : lineBreak.Reads (Cursor.start text).pastBlanks () (Cursor.start text).pastBlanks.pastBreak :=
    (gives_line_break _ _ _).mpr rfl
  have behindBlank := reads_forward blank
  have behindBreak := (reads_forward broken).trans behindBlank
  have atLine := uncommented_behind (c := .start text) uncommented behindBreak
  have chains : ChainsCarried (Cursor.start text).pastBlanks.pastBreak :=
    fun e suffix => rule_carried e (uncommented_behind atLine suffix) .andOr
  have leave : LineLeaves (Cursor.start text).pastBlanks.pastBreak := by
    intro f starts g body h choice values i patterns empty
    exact guarded ⟨f, g, h, values, i, starts, body, choice, patterns, empty⟩
  have list := reads_lines_closed atLine chains leave ended read
  have opening : (operator "(").Reads (opened text) () (closed (Cursor.start text).pastBlanks) := by
    refine (gives_operator _ _ _ _).mpr ⟨⟨_, rfl⟩, ?_⟩
    rw [← past_blanks_closed (c := .start text) uncommented]
    exact congrArg Cursor.pastBlanks (Cursor.ext_rest _ _ (rest_skip_cons rfl))
  have closing : (operator ")").Reads (closed d.pastBreak) () ((closed d.pastBreak).advance 1).pastBlanks := by
    refine (gives_operator _ _ _ _).mpr ⟨?_, rfl⟩
    rw [closed_rest, ended]
    exact List.prefix_rfl
  refine ⟨_, reads_atomic (reads_bind opening (reads_bind ?_ (reads_bind closing (reads_pure _ _)))), ?_⟩
  · rw [compoundList, Reads, gives_nested]
    exact reads_atomic (reads_bind (reads_line_break_closed
      (uncommented_behind (c := .start text) uncommented behindBlank) broken) list)
  · have last : ((closed d.pastBreak).advance 1).rest = [] := by
      rw [Cursor.rest_advance, closed_rest, ended]
      rfl
    have passed := Cursor.advance_suffix (layoutLength false false ((closed d.pastBreak).advance 1).rest)
      ((closed d.pastBreak).advance 1)
    rw [last] at passed
    rw [Cursor.pastBlanks, last]
    exact List.suffix_nil.mp passed

theorem subshell_is_program {text : List Char} (read : subshell.Reads (opened text) node d) (whole : d.rest = []) :
    program.Reads (opened text) (.programOf node) d := by
  have paren := head_opened text
  have noFunction : functionDefinition.Rejects (opened text) :=
    rejects_function_definition (by rw [paren]; rfl)
  have unredirected : (call .redirection).Rejects d := (rejects_call _ _).mpr (rejects_redirection (by simp [whole]))
  have command : (call .command).Reads (opened text) node d := by
    rw [reads_call]
    refine reads_second noFunction (reads_first (reads_bind ?_ (reads_unredirected node unredirected)))
    rw [compoundCommand, Reads, gives_look_bind, paren]
    exact read
  have idle : (opened text).pastBlanks.pastBreak = opened text := by
    rw [past_blanks_at paren (by decide), Cursor.pastBreak, if_neg]
    rw [paren]
    decide
  exact chain_is_program idle (command_is_chain rfl command whole) whole

theorem line_of_program {text : List Char} (read : program.Reads (.start text) (.programOf node) d) :
    ∃ e, (termList false).Reads (Cursor.start text).pastBlanks.pastBreak node e ∧ e.pastBreak = d := by
  obtain ⟨commands, e, form, ended, tree⟩ := program_form read
  obtain ⟨-, rfl⟩ := Node.of_nodes_injective _ _ _ [.wrap .completeCommand node] tree.symm
  cases form with
  | some given items =>
      obtain rfl := items_nil items
      obtain ⟨inner, list, wrapped⟩ := complete_command_form given
      obtain ⟨-, same⟩ := Node.of_nodes_injective _ _ [node] [inner] wrapped
      obtain rfl := List.head_eq_of_cons_eq same
      exact ⟨_, list, ended⟩

/-- Without limits a text without comments that parses as one complete command parses in parentheses
too, as a subshell of what the command holds, unless the line ends in a choice that could go on with
an item there. -/
theorem line_parses_in_parentheses {style : ErrorStyle} {line : String} (uncommented : '#' ∉ line.toList)
    (guarded : ¬ EndsInChoice line.toList)
    (parsed : parse { Config.unlimited with errorStyle := style } line = .ok (.programOf node)) :
    parse { Config.unlimited with errorStyle := style } ("(" ++ line ++ ")") =
      .ok (.programOf (.wrap .subshell node)) := by
  obtain ⟨d, read, whole, noHereDocument⟩ := parse_ok _ _ _ parsed
  obtain ⟨e, list, rfl⟩ := line_of_program read
  obtain ⟨f, subshellRead, ended⟩ := reads_subshell_of_line uncommented guarded list whole
  have inside := no_here_document_iff.mp noHereDocument
  simp only [Node.programOf, descendants_wrap, List.forall_mem_cons] at inside
  have unmarked : node.firstHereDocument? = none := no_here_document_iff.mpr inside.2.2
  have wrapped : (Node.programOf (.wrap .subshell node)).firstHereDocument? = none := by
    rw [no_here_document_iff]
    simp only [Node.programOf, descendants_wrap, List.forall_mem_cons]
    exact ⟨rfl, rfl, rfl, inside.2.2⟩
  rw [shifted_without_here_document unmarked] at subshellRead
  have whole := parse_of_reads style _ _ f (subshell_is_program subshellRead ended) ended wrapped
  have text : String.ofList ('(' :: (line.toList ++ [')'])) = "(" ++ line ++ ")" := by
    rw [← String.toList_inj]
    simp
  rw [text] at whole
  exact whole

def choiceInLine : Node :=
  .ofNodes .list
    [.ofNodes .caseChoice [.ofNodes .word [.leaf .unquotedLiteral ['x']],
      ⟨.caseItem, .list (.ofNodes [.ofNodes .word [.leaf .unquotedLiteral ['a']]])
        (.ofNodes [.ofNodes .simpleCommand [.ofNodes .word [.leaf .unquotedLiteral ['b']]]]), none⟩],
      .ofNodes .simpleCommand [.ofNodes .word [.leaf .unquotedLiteral ['c']]]]

theorem choice_in_line_parses_in_parentheses :
    '#' ∉ "case x in a) b;; esac; c".toList ∧ ¬ EndsInChoice "case x in a) b;; esac; c".toList ∧
      parse Config.unlimited "case x in a) b;; esac; c" = .ok (.programOf choiceInLine) ∧
      parse Config.unlimited "(case x in a) b;; esac; c)" = .ok (.programOf (.wrap .subshell choiceInLine)) := by
  have uncommented : '#' ∉ "case x in a) b;; esac; c".toList := by decide
  have guarded : ¬ EndsInChoice "case x in a) b;; esac; c".toList := not_ends_in_choice (by decide)
  have parsed : parse Config.unlimited "case x in a) b;; esac; c" = .ok (.programOf choiceInLine) := by
    obtain ⟨_, parsed, rfl⟩ := parse_ok_of_view Config.unlimited "case x in a) b;; esac; c" id
      (.programOf choiceInLine) (by decide +kernel)
    exact parsed
  have closedLine := line_parses_in_parentheses uncommented guarded parsed
  rw [(by decide : "(" ++ "case x in a) b;; esac; c" ++ ")" = "(case x in a) b;; esac; c)")] at closedLine
  exact ⟨uncommented, guarded, parsed, closedLine⟩

def emptyChoice : Node := .ofNodes .caseChoice [.ofNodes .word [.leaf .unquotedLiteral ['x']]]

-- With the parenthesis behind it the closing word is read as the pattern of an item.
theorem empty_choice_fails_in_parentheses :
    '#' ∉ "case x in esac".toList ∧
      (parse Config.unlimited "case x in esac").toOption = some (.programOf emptyChoice) ∧
      (parse Config.unlimited "(case x in esac)").toOption = none := by
  refine ⟨by decide, ?_, ?_⟩ <;> decide +kernel

end Subshells

end ShellLine.Closure
