import ShellLine.Proofs.Analysis.LiteralArgv
import ShellLine.Proofs.Quoting.Machine

set_option autoImplicit false

namespace ShellLine.Quoting

open ShellLine.Parser Grammar Scan

section Parts

variable {finished : List (List Char)} {token text : List Char} {c d : Cursor}

theorem unquote_double_cons {child : Child} {others : List Child}
    (found : unquoteDouble? (child :: others) = some text) :
    ∃ first rest, unquoteDouble? [child] = some first ∧ unquoteDouble? others = some rest ∧
      text = first ++ rest := by
  cases child with
  | list items => cases found
  | text chars =>
      obtain ⟨rest, later, rfl⟩ := Option.map_eq_some_iff.mp found
      exact ⟨chars, rest, by simp [unquoteDouble?], later, rfl⟩
  | node inner =>
      by_cases escape : inner.kind = .doubleQuotedEscape
      · rw [unquoteDouble?, if_pos escape] at found
        simp only [Option.bind_eq_bind, Option.bind_eq_some_iff, Option.pure_def,
          Option.some.injEq] at found
        obtain ⟨first, sole, rest, later, rfl⟩ := found
        exact ⟨first, rest, by simp [unquoteDouble?, escape, sole], later, rfl⟩
      · simp [unquoteDouble?, escape] at found

theorem unquote_double_expansion {inner : Node} (expands : inner.kind.isExpansion = true) :
    unquoteDouble? [.node inner] = none := by
  rw [unquoteDouble?, if_neg]
  intro escape
  rw [escape] at expands
  cases expands

theorem unquote_part_expansion {inner : Node} (expands : inner.kind.isExpansion = true) :
    unquotePart? (.node inner) = none := by
  unfold unquotePart?
  dsimp only
  split
  all_goals first | rfl | (rename_i kind; rw [kind] at expands; cases expands)

theorem run_quoted_turn {child : Child} (turn : QuotedTurn c (.more child) d)
    (unquoted : unquoteDouble? [child] = some text) :
    run ⟨finished, .double token⟩ c.rest = run ⟨finished, .double (token ++ text)⟩ d.rest := by
  cases turn with
  | @run _ chars _ plain here =>
      obtain rfl : chars = text := by simpa [unquoteDouble?] using unquoted
      rw [here]
      exact run_double_text token plain d.rest
  | kept here other =>
      obtain rfl : ['\\'] = text := by simpa [unquoteDouble?] using unquoted
      rw [here]
      exact run_kept token other
  | @escape _ ch escaped here =>
      obtain rfl : [ch] = text := by
        simpa [unquoteDouble?, Node.leaf, Node.soleText?, Forest.soleText?] using unquoted
      have sameLine : ch ≠ '\n' := by
        rintro rfl
        exact absurd escaped (by decide)
      simp [here, run_cons, step, doubleEscapeStep, escaped, sameLine]
  | joined here =>
      obtain rfl : [] = text := by
        simpa [unquoteDouble?, Node.leaf, Node.soleText?, Forest.soleText?] using unquoted
      simp [here, run_cons, step, doubleEscapeStep]
  | expansion expands _ =>
      rw [unquote_double_expansion expands] at unquoted
      cases unquoted

theorem run_quoted_turns {parts : List Child}
    (turns : Turns (reading grammar) doubleQuotedPart c parts d)
    (unquoted : unquoteDouble? parts = some text) :
    run ⟨finished, .double token⟩ c.rest = run ⟨finished, .bare (token ++ text)⟩ d.rest := by
  induction turns generalizing token text with
  | stop given =>
      cases unquoted
      cases reads_double_quoted_part given with
      | close here => simp [here, run_cons, step]
  | last given => cases reads_double_quoted_part given
  | halt given stays => exact absurd (quoted_turn_moves (reads_double_quoted_part given)) stays
  | more given _ _ ih =>
      obtain ⟨first, rest, found, later, rfl⟩ := unquote_double_cons unquoted
      rw [run_quoted_turn (reads_double_quoted_part given) found, ih later, List.append_assoc]

theorem run_part {part : Node} (read : PartRead false c part d)
    (unquoted : unquotePart? (.node part) = some text) :
    run ⟨finished, .bare token⟩ c.rest = run ⟨finished, .bare (token ++ text)⟩ d.rest := by
  cases read with
  | @singleQuote _ chars closed here =>
      obtain rfl : chars = text := Option.some.inj unquoted
      rw [here, List.cons_append, run_cons]
      exact run_single token closed d.rest
  | @doubleQuote _ parts opened turns =>
      have inside : unquoteDouble? parts = some text := by
        rw [← unquote_double_join]
        exact unquoted
      obtain ⟨rest, here⟩ := List.head?_eq_some_iff.mp opened
      rw [here, ← rest_skip_cons here, run_cons]
      exact run_quoted_turns turns inside
  | @bareEscape _ ch here =>
      obtain rfl : (if ch = '\n' then [] else [ch]) = text := Option.some.inj unquoted
      rw [here]
      by_cases newline : ch = '\n' <;> simp [run_cons, step, bareStep, isGap, newline]
  | @unquoted _ chars _ plain _ here =>
      obtain rfl : chars = text := Option.some.inj unquoted
      rw [here]
      exact run_plain token plain d.rest
  | expansion expands _ =>
      rw [unquote_part_expansion expands] at unquoted
      cases unquoted

theorem starts_of_part {part : Node} (read : PartRead false c part d)
    (unquoted : unquotePart? (.node part) = some text)
    (idle : layoutLength false false c.rest = 0) : Starts c.rest := by
  cases read with
  | singleQuote _ here =>
      exact ⟨_, _, here, by decide, by decide, fun impossible => absurd impossible (by decide)⟩
  | doubleQuote opened _ =>
      obtain ⟨rest, here⟩ := List.head?_eq_some_iff.mp opened
      exact ⟨_, _, here, by decide, by decide, fun impossible => absurd impossible (by decide)⟩
  | @bareEscape _ ch here =>
      refine ⟨_, _, here, by decide, by decide, fun _ => ⟨ch, rfl, ?_⟩⟩
      rintro rfl
      simp [here, layoutLength] at idle
  | @unquoted _ chars nonempty plain _ here =>
      obtain ⟨ch, others, rfl⟩ := List.exists_cons_of_ne_nil nonempty
      have first := plain ch (List.mem_cons_self ..)
      refine ⟨ch, others ++ d.rest, here, ?_, ?_, ?_⟩
      · simp_all [isWordBreak, isDelimiter, isGap]
      · rintro rfl
        simp [here, layoutLength] at idle
      · rintro rfl
        exact absurd first (by decide)
  | expansion expands _ =>
      rw [unquote_part_expansion expands] at unquoted
      cases unquoted

end Parts

section Words

variable {c d : Cursor}

theorem run_parts (finished : List (List Char)) (token : List Char) {parts : List Node}
    {texts : List (List Char)} (items : Items (reading grammar) (wordPart false) c parts d)
    (unquoted : List.Forall₂ (fun part text => unquotePart? (.node part) = some text) parts texts) :
    run ⟨finished, .bare token⟩ c.rest = run ⟨finished, .bare (token ++ texts.flatten)⟩ d.rest ∧
      (wordPart false).Rejects d := by
  induction items generalizing token texts with
  | stop failed =>
      cases unquoted
      exact ⟨by simp, failed⟩
  | halt given stays => exact absurd (word_part_moves given) stays
  | more given _ _ ih =>
      cases unquoted with
      | cons first others =>
          obtain ⟨rest, rejected⟩ := ih _ others
          rw [run_part (reads_word_part given) first, rest, List.flatten_cons, List.append_assoc]
          exact ⟨rfl, rejected⟩

theorem unquote_of_nodes {parts : List Node} {argument : String}
    (unquoted : (Node.ofNodes .word parts).unquote? = some argument) :
    ∃ texts, List.Forall₂ (fun part text => unquotePart? (.node part) = some text) parts texts ∧
      argument.toList = texts.flatten := by
  rw [Node.unquote?] at unquoted
  simp only [Option.bind_eq_bind, Option.bind_eq_some_iff, Option.pure_def,
    Option.some.injEq] at unquoted
  obtain ⟨texts, found, rfl⟩ := unquoted
  rw [Node.contents_of_nodes, map_m_eq_some, List.forall₂_map_left_iff] at found
  exact ⟨texts, found, String.toList_ofList⟩

theorem run_word {node : Node} {argument : String} (read : word.Reads c node d)
    (unquoted : node.unquote? = some argument) (idle : layoutLength false false c.rest = 0) :
    ∃ e, e.pastBlanks = d ∧ (wordPart false).Rejects e ∧ ∀ finished,
      run ⟨finished, .between⟩ c.rest = run ⟨finished, .bare argument.toList⟩ e.rest := by
  obtain ⟨parts, e, items, nonempty, blank, rfl⟩ := reads_word read
  obtain ⟨texts, each, whole⟩ := unquote_of_nodes unquoted
  have starts : Starts c.rest := by
    cases items with
    | stop _ => exact absurd rfl nonempty
    | halt given _ =>
        cases each with
        | cons first _ => exact starts_of_part (reads_word_part given) first idle
    | more given _ _ =>
        cases each with
        | cons first _ => exact starts_of_part (reads_word_part given) first idle
  refine ⟨e, blank, (run_parts [] [] items each).2, fun finished => ?_⟩
  rw [run_start finished starts, (run_parts finished [] items each).1, whole]
  rfl

-- A word goes on in front of a comment mark and of an escaped newline, so blanks behind it start
-- with a space or a tab.
theorem ends_of_blanks (rejected : (wordPart false).Rejects c)
    (blanks : layoutLength false false c.rest ≠ 0) : Ends c.rest := by
  obtain ⟨rest, here | here | here | here⟩ := blanks_start blanks
  · simp [Ends, here, isGap]
  · simp [Ends, here, isGap]
  · have goesOn : isWordBreak false '#' = false := by decide
    simp [wordPart, here, unquotedLiteral, goesOn] at rejected
  · have behind : (c.advance 1).rest = '\n' :: rest := rest_skip_cons here
    simp [wordPart, here, bareEscape, behind] at rejected

end Words

section Arguments

variable {c d f : Cursor}

theorem blanks_or_ends (rejected : (wordPart false).Rejects c) :
    c.pastBlanks = c ∨ Ends c.rest := by
  by_cases idle : layoutLength false false c.rest = 0
  · refine Or.inl (Cursor.ext_rest _ _ ?_)
    rw [Cursor.pastBlanks, idle, Cursor.rest_advance, List.drop_zero]
  · exact Or.inr (ends_of_blanks rejected idle)

theorem run_word_end (finished : List (List Char)) (token : List Char) (blank : c.pastBlanks = d)
    (ends : Ends c.rest) :
    run ⟨finished, .bare token⟩ c.rest = run ⟨finished ++ [token], .between⟩ d.rest := by
  rw [run_end finished token ends, ← blank, ← run_past_blanks]

theorem word_of_argument {node : Node} (read : argumentItem.Reads c node d)
    (isWord : node.kind = .word) : word.Reads c node d := by
  rcases reads_argument read with other | given
  · cases isWord.symm.trans other
  · exact given

theorem run_arguments (finished : List (List Char)) (token : List Char) {nodes : List Node}
    {arguments : List String} (items : Items (reading grammar) argumentItem d nodes f)
    (words : ∀ node ∈ nodes, node.kind = .word)
    (each : List.Forall₂ (fun word argument => word.unquote? = some argument) nodes arguments)
    (blank : c.pastBlanks = d) (rejected : (wordPart false).Rejects c) (ends : Ends f.rest) :
    run ⟨finished, .bare token⟩ c.rest =
      run ⟨finished ++ token :: arguments.map String.toList, .between⟩ f.rest := by
  induction items generalizing c finished token arguments with
  | stop _ =>
      cases each
      rcases blanks_or_ends rejected with same | endsHere
      · rw [← blank, same] at ends
        exact run_word_end finished token blank ends
      · exact run_word_end finished token blank endsHere
  | halt given stays =>
      have wordRead := word_of_argument given (words _ (List.mem_cons_self ..))
      exact absurd (word_moves wordRead) stays
  | @more d e _ node others given _ _ ih =>
      obtain ⟨isWord, wordsLater⟩ := List.forall_mem_cons.mp words
      have wordRead := word_of_argument given isWord
      rcases blanks_or_ends rejected with same | endsHere
      · rw [← blank, same] at wordRead
        exact absurd wordRead (no_word_at_end rejected)
      · cases each with
        | @cons _ argument _ more unquoted eachLater =>
            have idle : layoutLength false false d.rest = 0 := by
              rw [← blank]
              exact past_blanks_idle c
            obtain ⟨next, nextBlank, nextRejected, step⟩ := run_word wordRead unquoted idle
            have later := ih (finished ++ [token]) argument.toList wordsLater eachLater nextBlank
              nextRejected ends
            rw [run_word_end finished token blank endsHere, step, later, List.append_assoc]
            rfl

theorem run_close (finished : List (List Char))
    (separated : c = d ∨ SeparatorForm false c .sequential d) (whole : d.pastBreak.rest = []) :
    Ends c.rest ∧ run ⟨finished, .between⟩ c.rest = finished := by
  have behind : run ⟨finished, .between⟩ d.rest = finished := by
    rw [run_past_break, whole]
    rfl
  rcases separated with rfl | form
  · refine ⟨fun ch head => ?_, behind⟩
    by_cases newline : c.rest.head? = some '\n'
    · cases head.symm.trans newline
      rfl
    · rw [Cursor.pastBreak, if_neg newline] at whole
      rw [whole] at head
      cases head
  · cases form with
    | newline between _ => cases between
    | semicolon alone =>
        obtain ⟨rest, here⟩ := List.head?_eq_some_iff.mp alone.1
        refine ⟨by simp [Ends, here, isGap], Eq.trans ?_ behind⟩
        rw [pastSeparator, if_neg Bool.false_ne_true, ← run_past_blanks, rest_skip_cons here, here]
        rfl

end Arguments

theorem first_place_idle (c : Cursor) :
    layoutLength false false c.pastBlanks.pastBreak.rest = 0 := by
  rw [Cursor.pastBreak]
  split
  · have none := layout_length_drop true false c.pastBlanks.rest
    rw [Cursor.pastLines, Cursor.rest_advance]
    by_contra blanks
    obtain ⟨rest, here | here | here | here⟩ := blanks_start blanks <;>
      simp [here, layoutLength] at none
  · exact past_blanks_idle c

/-- The arguments of a command line without features are the tokens that are left of its text when
quotes, escapes, comments and joined lines are taken out. -/
theorem literal_argv_is_quote_removal (config : Config) (input : String) (tree : Node)
    (parsed : parse config input = .ok tree) (plain : tree.features = []) (argv : List String)
    (literal : tree.literalArgv? = some argv) :
    argv = (tokens input.toList).map String.ofList := by
  obtain ⟨d, read, whole, -⟩ := parse_ok config input tree parsed
  obtain ⟨command, rfl, simple, unquoted⟩ := (literal_argv_eq_some read argv).mp literal
  obtain ⟨e, f, given, separated, ended⟩ := reads_simple_program read simple
  rw [Node.features_program_of] at plain
  obtain ⟨g, first, others, rfl, name, arguments, words⟩ := reads_plain_simple_command given plain
  rw [Node.words_of_nodes .simpleCommand words, map_m_eq_some] at unquoted
  rw [← ended] at whole
  cases unquoted with
  | @cons _ argument _ more firstUnquoted each =>
      obtain ⟨next, blank, rejected, step⟩ := run_word name firstUnquoted (first_place_idle _)
      have ends := (run_close [] separated whole).1
      have rest := run_arguments [] argument.toList arguments (List.forall_mem_cons.mp words).2
        each blank rejected ends
      have found : tokens input.toList = (argument :: more).map String.toList := by
        calc tokens input.toList
            = run ⟨[], .between⟩ (Cursor.start input.toList).rest := rfl
          _ = run ⟨[], .between⟩ (Cursor.start input.toList).pastBlanks.pastBreak.rest := by
              rw [run_past_blanks, run_past_break]
          _ = run ⟨[], .bare argument.toList⟩ next.rest := step []
          _ = run ⟨[] ++ argument.toList :: more.map String.toList, .between⟩ e.rest := rest
          _ = (argument :: more).map String.toList := (run_close _ separated whole).2
      rw [found, List.map_map]
      simp [Function.comp_def]

theorem quotes_escapes_and_comments_removed :
    ∃ tree, parse {} "\\\n# first\necho '' a\\\n'b c'\"\\$d\\e\" \\'#f #g;" = .ok tree ∧
      tree.literalArgv? = some ["echo", "", "ab c$d\\e", "'#f"] ∧
      ["echo", "", "ab c$d\\e", "'#f"] = (tokens
        "\\\n# first\necho '' a\\\n'b c'\"\\$d\\e\" \\'#f #g;".toList).map String.ofList := by
  obtain ⟨tree, parsed, seen⟩ := parse_ok_of_view {}
    "\\\n# first\necho '' a\\\n'b c'\"\\$d\\e\" \\'#f #g;"
    (fun tree => (tree.features, tree.literalArgv?)) ([], some ["echo", "", "ab c$d\\e", "'#f"])
    (by decide +kernel)
  obtain ⟨plain, literal⟩ := Prod.mk.inj seen
  exact ⟨tree, parsed, literal, literal_argv_is_quote_removal {} _ tree parsed plain _ literal⟩

end ShellLine.Quoting
