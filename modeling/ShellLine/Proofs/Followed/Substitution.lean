import ShellLine.Proofs.Followed.Program

set_option autoImplicit false

namespace ShellLine.Followed

open ShellLine.Parser Grammar Closure

variable {c d : Cursor} {text : List Char} {commands : List Node} {node : Node}

section Closing

-- An arithmetic expansion ends behind two parentheses.
theorem arithmetic_ends_at_parens (read : arithmeticExpansion.Reads c node d) :
    ∃ e : Cursor, e.rest = ')' :: ')' :: d.rest ∧ e.rest <:+ c.rest := by
  obtain ⟨words, e, front, closing, -⟩ := reads_arithmetic_iff.mp read
  obtain ⟨⟨rest, here⟩, rfl⟩ := (gives_literal _ _ _ _).mp closing
  have behind : (e.advance "))".length).rest = rest := e.rest_advance_append "))".toList rest here.symm
  exact ⟨e, by rw [behind]; exact here.symm, reads_forward front⟩

theorem closing_line_behind_parens {passed rest : List Char}
    (same : passed ++ ')' :: ')' :: rest = text ++ ['\n', ')']) : ['\n', ')'] <:+ rest := by
  rcases List.append_eq_append_iff.mp same with ⟨between, -, parens⟩ | ⟨between, -, closing⟩
  · match between with
    | [] | [_] => simp at parens
    | _ :: _ :: others =>
        simp only [List.cons_append, List.cons.injEq] at parens
        exact ⟨others, parens.2.2.symm⟩
  · match between with
    | [] | [_] | _ :: _ :: _ => simp at closing

-- So in front of the line that closes an expansion arithmetic ends in the text or does not end.
theorem closing_line_sheltered (text : List Char) : Sheltered text [] ['\n', ')'] := by
  intro c d e node other within double read _ given
  obtain ⟨f, parens, behind⟩ := arithmetic_ends_at_parens given
  rw [refollowed, Cursor.rest_start, List.length_nil, Nat.sub_zero, List.take_length, parens] at behind
  obtain ⟨passed, same⟩ := behind
  exact closing_line_behind_parens same

end Closing

section Expansions

theorem reads_closing_paren : completeCommands.Reads (Cursor.start [')']).pastLines [] (.start [')']) := by
  have idle : (Cursor.start [')']).pastLines = .start [')'] := Cursor.ext_rest _ _ rfl
  have halts : Halts (Cursor.start [')']).rest := halts_of_head rfl (by decide)
  rw [idle]
  exact reads_bind (reads_missed (rejects_complete_command_at_halt halts)) (reads_pure _ _)

theorem reads_substitution (read : completeCommands.Reads (Cursor.start text).pastLines commands d)
    (whole : d.pastBreak.rest = []) :
    commandExpansion.Reads (.start ('$' :: '(' :: '\n' :: (text ++ ['\n', ')'])))
      (.ofNodes .commandExpansion (commands.map (inFront text [')'] (closing_line_sheltered text)).node))
      (.start []) := by
  obtain ⟨f, commandsRead, ended⟩ :=
    commands_in_front (closing_line_sheltered text) read whole reads_closing_paren
  rw [List.append_nil] at commandsRead
  have newline : newlines.Reads (.start ('\n' :: (text ++ ['\n', ')']))) ()
      (Cursor.start (text ++ ['\n', ')'])).pastLines := past_newline_through (c := .start []) rfl rfl
  obtain ⟨head, lines⟩ := (gives_newlines _ _ _).mp newline
  have broken : lineBreak.Reads (.start ('\n' :: (text ++ ['\n', ')']))) ()
      (Cursor.start (text ++ ['\n', ')'])).pastLines := by
    rw [Reads, gives_line_break, Cursor.pastBreak, if_pos head, lines]
  have skipped : (skip 2).Reads (.start ('$' :: '(' :: '\n' :: (text ++ ['\n', ')']))) ()
      (.start ('\n' :: (text ++ ['\n', ')']))) := (gives_skip _ _ _ _).mpr (Cursor.advance_start_two ..)
  have blank : blanks.Reads (.start ('\n' :: (text ++ ['\n', ')']))) () (.start ('\n' :: (text ++ ['\n', ')']))) := by
    rw [Reads, gives_blanks, past_blanks_at rfl (by decide)]
  have last : lineBreak.Reads f () (.start [')']) := by
    rw [Reads, gives_line_break, ended]
    rfl
  have closing : (literal ")").Reads (.start [')']) () (.start []) :=
    (gives_literal _ _ _ _).mpr ⟨List.prefix_rfl, Cursor.advance_start_one ..⟩
  rw [commandExpansion, Reads, gives_nested]
  refine reads_atomic (reads_bind skipped (reads_bind blank (reads_bind broken (reads_bind commandsRead ?_))))
  exact reads_bind last (reads_bind closing (reads_pure _ _))

end Expansions

section Commands

def echoed (commands : List Node) : Node :=
  .ofNodes .simpleCommand [.ofNodes .word [.leaf .unquotedLiteral "echo".toList],
    .ofNodes .word [.ofNodes .commandExpansion commands]]

theorem reads_echo {expansion : List Char} (started : expansion.head? = some '$')
    (argument : (wordPart false).Reads (.start expansion) node (.start [])) :
    simpleCommand.Reads (.start ("echo ".toList ++ expansion))
      (.ofNodes .simpleCommand [.ofNodes .word [.leaf .unquotedLiteral "echo".toList], .ofNodes .word [node]])
      (.start []) := by
  obtain ⟨others, rfl⟩ := List.head?_eq_some_iff.mp started
  have unredirected : (call .redirection).Rejects (.start []) := (rejects_call _ _).mpr (rejects_redirection (by simp))
  have ended : (wordPart false).Rejects (.start []) := rejects_part_at_delimiter rfl
  have idle : layoutLength false false ('$' :: others) = 0 := by simp [layoutLength]
  have echo := word_of_part (@reads_plain false "echo".toList (by decide) (by decide) (' ' :: '$' :: others)
    (by simp [isWordBreak, isDelimiter])) (rejects_part_at_delimiter rfl)
  rw [past_blank idle] at echo
  have expansion : (call .word).Reads (.start ('$' :: others)) (.ofNodes .word [node]) (.start []) :=
    word_of_part argument ended
  have noWord : (call .word).Rejects (.start []) := (rejects_call _ _).mpr (rejects_word ended)
  have atDollar : (call .redirection).Rejects (.start ('$' :: others)) :=
    rejects_redirection_at rfl (by decide) (by decide) (by decide)
  have arguments : Items (reading grammar) argumentItem (.start ('$' :: others)) [.ofNodes .word [node]] (.start []) :=
    .more (reads_second atDollar expansion) (call_word_moves _ _ _ expansion)
      (.stop ((fails_or_else _ _ _).mpr ⟨unredirected, noWord⟩))
  have noLead : leadItem.Rejects (.start ("echo ".toList ++ '$' :: others)) := by
    refine (fails_or_else _ _ _).mpr ⟨rejects_redirection_at rfl (by decide) (by decide) (by decide), ?_⟩
    exact rejects_assignment (by simp [solidStart, isDelimiter])
  refine simple_command_of_parts (.stop noLead) ?_ arguments
  have unreserved : reservedAhead ("echo ".toList ++ '$' :: others) = false := by
    simp [reservedAhead, reservedWords, startsReserved]
  rw [commandWord, Reads, gives_look_bind, Cursor.rest_start, unreserved]
  exact echo

theorem past_lines_at {ch : Char} (head : c.rest.head? = some ch) (solid : ch ∉ [' ', '\t', '#', '\\', '\n']) :
    c.pastLines = c := by
  simp only [List.mem_cons, not_or] at solid
  rw [← past_blanks_and_break, past_blanks_at head (by simp [solid]), Cursor.pastBreak, head]
  exact if_neg (by simp [solid])

theorem no_bang_at {ch : Char} (head : c.rest.head? = some ch) (other : ch ≠ '!') :
    startsReserved "!".toList c.rest = false := by
  refine Bool.eq_false_iff.mpr fun starts => other ?_
  have bang := head_of_start (starts_of_starts_reserved _ _ starts) (by decide)
  exact Option.some.inj (head.symm.trans bang)

theorem simple_is_program {ch : Char} (head : c.rest.head? = some ch) (solid : ch ∉ [' ', '\t', '#', '\\', '\n', '!'])
    (simple : simpleCommand.Reads c node d) (whole : d.rest = []) : program.Reads c (.programOf node) d := by
  simp only [List.mem_cons, not_or] at solid
  have idle := (past_blanks_and_break c).trans (past_lines_at head (by simp [solid]))
  have noBang := no_bang_at head solid.2.2.2.2.2.1
  have halts : Halts d.rest := by
    rw [whole]
    exact Or.inl rfl
  have command := simple_command_is_command (rejects_function_at_simple halts simple)
    (rejects_compound_at_simple simple) simple
  exact chain_is_program idle (command_is_chain noBang command whole) whole

end Commands

section Parses

theorem echoed_without_here_document (plain : (Node.ofNodes .program commands).firstHereDocument? = none) :
    (Node.programOf (echoed commands)).firstHereDocument? = none := by
  refine Node.no_here_document_program_of.mpr ?_
  refine (no_here_document_of_row rfl).mpr (List.forall_mem_cons.mpr ⟨rfl, List.forall_mem_singleton.mpr ?_⟩)
  refine (no_here_document_of_row rfl).mpr (List.forall_mem_singleton.mpr ?_)
  exact (no_here_document_of_row rfl).mpr ((no_here_document_of_row rfl).mp plain)

theorem features_eq_filter {p : Feature → Bool} (same : ∀ feature, feature ∈ node.features ↔ p feature = true) :
    node.features = Feature.all.filter p := by
  rw [Node.features]
  refine List.filter_congr fun feature _ => ?_
  rw [Bool.eq_iff_iff, ← same, mem_features, decide_eq_true_iff, List.mem_filterMap]

theorem features_echoed (commands : List Node) (feature : Feature) :
    feature ∈ (echoed commands).features ↔
      (∃ command ∈ commands, feature ∈ command.features) ∨ feature = .commandExpansion := by
  have name : ∀ chars, (Node.leaf .unquotedLiteral chars).features = [] := fun _ => rfl
  simp [echoed, mem_features_of_row, name, Kind.feature?, eq_comm, or_comm]

/-- Without limits a text that parses does so in a command expansion, which holds what the text holds. The
features of the whole are those of the text and the expansion, and it has no literal arguments. -/
theorem substitution_holds_program {style : ErrorStyle} {text : String} {tree : Node}
    (parsed : parse { Config.unlimited with errorStyle := style } text = .ok tree) :
    parse { Config.unlimited with errorStyle := style } ("echo $(" ++ "\n" ++ text ++ "\n" ++ ")") =
        .ok (.programOf (echoed tree.children)) ∧
      (Node.programOf (echoed tree.children)).features =
        Feature.all.filter (fun feature => feature ∈ tree.features ∨ feature = .commandExpansion) ∧
      (Node.programOf (echoed tree.children)).literalArgv? = none := by
  obtain ⟨d, read, whole, plain⟩ := parse_ok _ _ _ parsed
  obtain ⟨commands, e, commandsRead, rfl, rfl⟩ := program_parts read
  rw [Node.children_of_nodes]
  refine ⟨?_, ?_, ?_⟩
  · have expansion := reads_substitution commandsRead whole
    have unmoved := node_without_here_document (T := inFront _ _ (closing_line_sheltered text.toList)) plain
    rw [node_of_nodes] at unmoved
    rw [(Node.of_nodes_injective _ _ _ _ unmoved).2] at expansion
    have part : (wordPart false).Reads (.start ('$' :: '(' :: '\n' :: (text.toList ++ ['\n', ')'])))
        (.ofNodes .commandExpansion commands) (.start []) := by
      rw [wordPart, Reads, gives_look_bind]
      exact expansion
    have program := simple_is_program (rfl : List.head? _ = some 'e') (by decide) (reads_echo rfl part) rfl
    have whole := parse_of_reads style _ _ _ program rfl (echoed_without_here_document plain)
    have same : String.ofList ("echo ".toList ++ '$' :: '(' :: '\n' :: (text.toList ++ ['\n', ')'])) =
        "echo $(" ++ "\n" ++ text ++ "\n" ++ ")" := by
      rw [← String.toList_inj]
      simp
    rw [same] at whole
    exact whole
  · rw [Node.features_program_of]
    refine features_eq_filter fun feature => ?_
    rw [features_echoed, decide_eq_true_iff, mem_features_of_row]
    simp [Kind.feature?]
  · rw [Node.literal_argv_program_of]
    rfl

-- A comment in the text ends with its line and takes no parenthesis with it.
theorem comment_in_substitution :
    ∃ tree, parse Config.unlimited "a | b\nx=1 # )" = .ok tree ∧ tree.children.length = 2 ∧
      parse Config.unlimited "echo $(\na | b\nx=1 # )\n)" = .ok (.programOf (echoed tree.children)) ∧
      (Node.programOf (echoed tree.children)).features = [.pipeline, .commandExpansion, .assignment] ∧
      (Node.programOf (echoed tree.children)).literalArgv? = none := by
  obtain ⟨tree, parsed, seen⟩ := parse_ok_of_view Config.unlimited "a | b\nx=1 # )"
    (fun tree => (tree.children.length, tree.features)) (2, [.pipeline, .assignment]) (by decide +kernel)
  obtain ⟨length, features⟩ := Prod.mk.injEq .. ▸ seen
  obtain ⟨whole, wholeFeatures, noArgv⟩ := substitution_holds_program parsed
  rw [(by decide : "echo $(" ++ "\n" ++ "a | b\nx=1 # )" ++ "\n" ++ ")" = "echo $(\na | b\nx=1 # )\n)")] at whole
  rw [features] at wholeFeatures
  exact ⟨tree, parsed, length, whole, wholeFeatures, noArgv⟩

end Parses

end ShellLine.Followed
