import ShellLine.Proofs.Closure.Words

set_option autoImplicit false

namespace ShellLine.Closure

open ShellLine.Parser Grammar

variable {c d e : Cursor} {node : Node}

section Lists

theorem Known.list {α : Type} {p : Parser α} {value : α} (known : Known c) (moves : p.Moves)
    (opened : p.Reads c value d) (ends : EndsList true e.rest) (read : compoundList.Reads d node e) :
    compoundList.Reads (closed d) node.shifted (closed e) :=
  reads_compound_list_closed (known.past opened).uncommented
    (known.chains (moves c value d opened) (reads_forward opened)) ends read

abbrev enclosed (first last : String) (kind : Kind) : Parser Node :=
  atomic do
    keyword first
    let body ← compoundList
    keyword last
    return .wrap kind body

theorem reads_enclosed_closed {first last : String} {kind : Kind} (known : Known c)
    (opening : first ∈ reservedWords) (closing : last ∈ closingWords)
    (read : (enclosed first last kind).Reads c node d) :
    (enclosed first last kind).Reads (closed c) node.shifted (closed d) := by
  simp only [enclosed, gives_atomic, gives_bind, gives_pure] at read
  obtain ⟨_, e, opened, inner, f, list, _, _, ended, rfl, rfl⟩ := read
  obtain ⟨nonempty, noParen⟩ := (by decide : ∀ word ∈ reservedWords, word.toList ≠ [] ∧ ')' ∉ word.toList)
    first opening
  have noParenLast := (by decide : ∀ word ∈ closingWords, ')' ∉ word.toList) last closing
  have atList := (known.past opened).past list
  rw [shifted_wrap]
  refine reads_atomic (reads_bind (reads_keyword_closed known.uncommented noParen opened) ?_)
  refine reads_bind (known.list (keyword_text_moves nonempty) opened (ends_list_of_keyword closing ended) list) ?_
  exact reads_bind (reads_keyword_closed atList.uncommented noParenLast ended) (reads_pure _ _)

theorem reads_do_group_closed (known : Known c) (read : doGroup.Reads c node d) :
    doGroup.Reads (closed c) node.shifted (closed d) :=
  reads_enclosed_closed known (by decide : "do" ∈ reservedWords) (by decide : "done" ∈ closingWords) read

theorem reads_subshell_closed (known : Known c) (read : subshell.Reads c node d) :
    subshell.Reads (closed c) node.shifted (closed d) := by
  simp only [subshell, gives_atomic, gives_bind, gives_pure] at read
  obtain ⟨_, e, opened, inner, f, list, _, _, ended, rfl, rfl⟩ := read
  have atList := (known.past opened).past list
  have ends : EndsList true f.rest := ends_list_of_paren ((gives_operator _ _ _ _).mp ended).1
  rw [shifted_wrap]
  refine reads_atomic (reads_bind (reads_operator_closed known.uncommented opened) ?_)
  refine reads_bind (known.list (operator_text_moves (by decide)) opened ends list) ?_
  exact reads_bind (reads_operator_closed atList.uncommented ended) (reads_pure _ _)

end Lists

section Loops

theorem reads_sequential_closed (uncommented : '#' ∉ c.rest) (read : sequentialSeparator.Reads c () d) :
    sequentialSeparator.Reads (closed c) () (closed d) := by
  rcases (gives_or_else _ _ _ _ _).mp read with semicolon | ⟨noSemicolon, newline⟩
  · obtain ⟨_, e, sign, broken⟩ := (gives_bind _ _ _ _ _).mp semicolon
    have behind := uncommented_behind uncommented (reads_forward sign)
    exact reads_first (reads_bind (reads_lone_closed uncommented (by decide) sign)
      (reads_line_break_closed behind broken))
  · refine reads_second ?_ (reads_newlines_closed uncommented newline)
    simp only [fails_bind, fails_line_break, and_false, exists_false, or_false] at noSemicolon
    exact (fails_bind _ _ _).mpr (Or.inl (rejects_lone_closed (by decide) noSemicolon))

theorem rejects_sequential_closed (rejected : sequentialSeparator.Rejects c) :
    sequentialSeparator.Rejects (closed c) := by
  obtain ⟨noSemicolon, noNewline⟩ := (fails_or_else _ _ _).mp rejected
  simp only [fails_bind, fails_line_break, and_false, exists_false, or_false] at noSemicolon
  refine (fails_or_else _ _ _).mpr ⟨?_, rejects_newlines_closed noNewline⟩
  exact (fails_bind _ _ _).mpr (Or.inl (rejects_lone_closed (by decide) noSemicolon))

theorem not_stuck_of_sequential (read : sequentialSeparator.Reads c () d) : ¬ Stuck c := by
  cases sequential_form read with
  | semicolon alone => exact not_stuck_of_head alone.1 (by decide)
  | newline head => exact not_stuck_of_head head (by decide)

theorem reads_in_clause_closed (known : Known c) (read : inClause.Reads c node d) :
    inClause.Reads (closed c) node.shifted (closed d) := by
  simp only [inClause, gives_bind, gives_many, gives_pure] at read
  obtain ⟨_, e, broken, _, f, inside, words, g, items, _, _, ended, rfl, rfl⟩ := read
  have atWord := known.past broken
  have atItems := atWord.past inside
  have atEnd := atItems.past ((gives_many _ _ _ _).mpr items)
  have words := words_closed (atWord.words (keyword_text_moves (by decide) _ _ _ inside) (reads_forward inside))
    (not_stuck_of_sequential ended) items
  rw [shifted_of_nodes]
  refine reads_bind (reads_line_break_closed known.uncommented broken) ?_
  refine reads_bind (reads_keyword_closed atWord.uncommented (by decide) inside) ?_
  refine reads_bind (reads_many words) ?_
  exact reads_bind (reads_sequential_closed atEnd.uncommented ended) (reads_pure _ _)

theorem rejects_in_at_body (separated : (optional sequentialSeparator).Reads c () d)
    (body : doGroup.Reads d node e) : (keyword "in").Rejects c.pastBreak := by
  have opened : d.rest.head? = some 'd' := by
    cases do_group_form body with
    | body opened => exact head_of_keyword (by decide) opened
  have other : ∀ {ch : Char}, c.pastBreak.rest.head? = some ch → ch ≠ 'i' →
      (keyword "in").Rejects c.pastBreak := by
    intro ch head different
    rw [Rejects, fails_keyword, Bool.eq_false_iff]
    intro starts
    have start := head_of_start (starts_of_starts_reserved _ _ starts) (by decide)
    exact different (Option.some.inj (head.symm.trans start))
  rcases (gives_optional _ _ _ _).mp separated with ⟨_, given⟩ | ⟨-, rfl⟩
  · cases sequential_form given with
    | semicolon alone =>
        have idle : c.pastBreak = c := by rw [Cursor.pastBreak, alone.1, if_neg (by decide)]
        exact other (by rw [idle]; exact alone.1) (by decide)
    | newline head =>
        have passed : c.pastBreak = c.pastLines := by rw [Cursor.pastBreak, if_pos head]
        exact other (by rw [passed]; exact opened) (by decide)
  · have idle : c.pastBreak = c := by rw [Cursor.pastBreak, opened, if_neg (by decide)]
    exact other (by rw [idle]; exact opened) (by decide)

theorem reads_for_clause_closed (known : Known c) (read : forClause.Reads c node d) :
    forClause.Reads (closed c) node.shifted (closed d) := by
  simp only [forClause, gives_atomic, gives_bind] at read
  obtain ⟨_, e, opened, parameter, f, named, _, g, blank, words, h, tried, later⟩ := read
  have atName := known.past opened
  have atBlank := atName.past named
  have atClause := atBlank.past blank
  have wrapped : ∀ (words : List Node) (body : Node),
      (⟨.forLoop, .text parameter (.ofNodes (words ++ [body])), none⟩ : Node).shifted =
        ⟨.forLoop, .text parameter (.ofNodes (words.map Node.shifted ++ [body.shifted])), none⟩ := by
    simp [Node.shifted, Forest.shifted]
  refine reads_atomic (reads_bind (reads_keyword_closed known.uncommented (by decide) opened) ?_)
  refine reads_bind (reads_name_closed named) ?_
  refine reads_bind (reads_blanks_closed atBlank.uncommented blank) ?_
  rcases (gives_attempt _ _ _ _).mp tried with ⟨inside, rfl, clause⟩ | ⟨rfl, noClause, rfl⟩
  · simp only [Option.isNone_some, Bool.false_eq_true, if_false, gives_bind, gives_pure] at later
    obtain ⟨body, _, done, rfl, rfl⟩ := later
    refine reads_bind (reads_tried (reads_in_clause_closed atClause clause)) ?_
    refine reads_bind (reads_do_group_closed (atClause.past clause) done) ?_
    rw [wrapped]
    exact reads_pure _ _
  · simp only [Option.isNone_none, if_true, gives_bind, gives_pure] at later
    obtain ⟨_, i, separated, body, _, done, rfl, rfl⟩ := later
    have noIn := rejects_in_at_body separated done
    have missed : inClause.Rejects (closed g) := by
      have broken := reads_line_break_closed atClause.uncommented ((gives_line_break _ _ ()).mpr rfl)
      refine (fails_bind _ _ _).mpr (Or.inr ⟨(), _, broken, ?_⟩)
      exact (fails_bind _ _ _).mpr (Or.inl (rejects_keyword_closed (by decide) noIn))
    have separatedClosed : (optional sequentialSeparator).Reads (closed g) () (closed i) := by
      rcases (gives_optional _ _ _ _).mp separated with ⟨_, given⟩ | ⟨failed, rfl⟩
      · exact (gives_optional _ _ _ _).mpr (Or.inl ⟨_, reads_sequential_closed atClause.uncommented given⟩)
      · exact (gives_optional _ _ _ _).mpr (Or.inr ⟨rejects_sequential_closed failed, rfl⟩)
    refine reads_bind (reads_missed missed) ?_
    simp only [Option.isNone_none, if_true]
    refine reads_bind separatedClosed ?_
    refine reads_bind (reads_do_group_closed (atClause.past separated) done) ?_
    rw [wrapped]
    exact reads_pure _ _

theorem reads_loop_clause_closed {word : String} {kind : Kind} (known : Known c)
    (opening : word ∈ reservedWords) (read : (loopClause word kind).Reads c node d) :
    (loopClause word kind).Reads (closed c) node.shifted (closed d) := by
  simp only [loopClause, gives_atomic, gives_bind, gives_pure] at read
  obtain ⟨_, e, opened, condition, f, list, body, _, done, rfl, rfl⟩ := read
  obtain ⟨nonempty, noParen⟩ := (by decide : ∀ word ∈ reservedWords, word.toList ≠ [] ∧ ')' ∉ word.toList)
    word opening
  have ends : EndsList true f.rest := by
    cases do_group_form done with
    | body started => exact ends_list_of_keyword (by decide) started
  rw [shifted_of_nodes]
  refine reads_atomic (reads_bind (reads_keyword_closed known.uncommented noParen opened) ?_)
  refine reads_bind (known.list (keyword_text_moves nonempty) opened ends list) ?_
  refine reads_bind (reads_do_group_closed ((known.past opened).past list) done) ?_
  rw [List.map_cons, List.map_cons, List.map_nil, shifted_wrap]
  exact reads_pure _ _

end Loops

section Choices

abbrev itemEnd (item : Node) : Parser (Turn Node) := do
  match ← attempt (operator ";;") with
  | some () =>
      lineBreak
      return .more item
  | none => return .last item

abbrev caseTurn : Parser (Turn Node) := do
  match ← attempt caseItem with
  | some item => return item
  | none => return .stop

def EndsItem (c : Cursor) : Prop :=
  ";;".toList <+: c.rest ∨ ∃ d, (keyword "esac").Reads c () d

theorem EndsItem.list {lines : Bool} (ends : EndsItem c) : EndsList lines c.rest := by
  rcases ends with here | ⟨_, closing⟩
  · exact ends_list_of_item_end here
  · exact ends_list_of_keyword (by decide) closing

theorem reads_item_end_closed {item : Node} {turn : Turn Node} (uncommented : '#' ∉ c.rest)
    (read : (itemEnd item).Reads c turn d) :
    (itemEnd item.shifted).Reads (closed c) (mapTurn Node.shifted turn) (closed d) := by
  rcases (gives_attempt_bind _ _ _ _ _).mp read with ⟨_, e, ended, later⟩ | ⟨missing, made⟩
  · obtain ⟨_, f, broken, made⟩ := (gives_bind _ _ _ _ _).mp later
    obtain ⟨rfl, rfl⟩ := (gives_pure _ _ _ _).mp made
    refine reads_bind (reads_tried (reads_operator_closed uncommented ended)) ?_
    have behind := uncommented_behind uncommented (reads_forward ended)
    exact reads_bind (reads_line_break_closed behind broken) (reads_pure _ _)
  · obtain ⟨rfl, rfl⟩ := (gives_pure _ _ _ _).mp made
    exact reads_bind (reads_missed (rejects_operator_closed (by decide) missing)) (reads_pure _ _)

theorem ends_item_of_end {item : Node} {turn : Turn Node} (read : (itemEnd item).Reads c turn d)
    (closing : (∀ value, turn ≠ .more value) → ∃ e, (keyword "esac").Reads d () e) : EndsItem c := by
  rcases (gives_attempt_bind _ _ _ _ _).mp read with ⟨_, e, ended, -⟩ | ⟨-, made⟩
  · exact Or.inl ((gives_operator _ _ _ _).mp ended).1
  · obtain ⟨rfl, rfl⟩ := (gives_pure _ _ _ _).mp made
    exact Or.inr (closing nofun)

theorem reads_patterns_closed {others : List Node} (known : Known c) (ends : ¬ Stuck d)
    (stops : nextPattern.Rejects d → nextPattern.Rejects (closed d))
    (items : Items (reading grammar) nextPattern c others d) :
    Items (reading grammar) nextPattern (closed c) (others.map Node.shifted) (closed d) ∧ ¬ Stuck c := by
  refine items_closed (P := fun e => ¬ Stuck e) ?_ stops ends items
  intro e pattern f suffix read free
  obtain ⟨_, g, bar, word⟩ := (gives_bind _ _ _ _ _).mp read
  have here := known.behind suffix
  have wordClosed := word_carried (here.past bar) pattern f word free
  refine ⟨reads_bind (reads_lone_closed here.uncommented (by decide) bar) wordClosed, ?_⟩
  exact not_stuck_of_head ((gives_lone_operator _ _ _ _).mp bar).1.1 (by decide)

abbrev itemBody (patterns : Forest) : Parser (Turn Node) := do
  let body ← attempt compoundList
  if body.isNone then lineBreak
  itemEnd ⟨.caseItem, .list patterns (.ofNodes body.toList), none⟩

theorem item_body_reads (patterns : Forest) (c : Cursor) :
    ∃ turn d, (itemBody patterns).Reads c turn d := by
  have ended : ∀ item d, ¬ (itemEnd item).Rejects d := by simp [itemEnd, Rejects]
  rcases gives_or_fails (reading grammar) (itemBody patterns) c with given | failed
  · exact given
  · rcases (fails_attempt_bind _ _ _).mp failed with ⟨inner, d, -, later⟩ | ⟨-, later⟩
    · exact absurd later (ended _ d)
    · simp only [Option.isNone_none, if_true, fails_bind, fails_line_break, false_or] at later
      obtain ⟨_, d, -, later⟩ := later
      exact absurd ((fails_bind _ _ _).mpr later) (ended _ d)

theorem reads_item_body_closed {patterns : Forest} {turn : Turn Node} (known : Known c)
    (moved : d.left < c.left) (behind : d.rest <:+ c.rest)
    (closing : (∀ value, turn ≠ .more value) → ∃ f, (keyword "esac").Reads e () f)
    (read : (itemBody patterns).Reads d turn e) :
    (itemBody patterns.shifted).Reads (closed d) (mapTurn Node.shifted turn) (closed e) := by
  have atBody := known.behind behind
  have wrapped : ∀ bodies : List Node,
      (⟨.caseItem, .list patterns (.ofNodes bodies), none⟩ : Node).shifted =
        ⟨.caseItem, .list patterns.shifted (.ofNodes (bodies.map Node.shifted)), none⟩ := by
    simp [Node.shifted, Forest.shifted]
  rcases (gives_attempt_bind _ _ _ _ _).mp read with ⟨inner, f, list, later⟩ | ⟨noList, later⟩
  · simp only [Option.isNone_some, Bool.false_eq_true, if_false] at later
    have ends := ends_item_of_end later closing
    have listClosed := reads_compound_list_closed atBody.uncommented (known.chains moved behind) ends.list list
    have endClosed := reads_item_end_closed (atBody.past list).uncommented later
    rw [wrapped] at endClosed
    exact reads_bind (reads_tried listClosed) endClosed
  · simp only [Option.isNone_none, if_true] at later
    obtain ⟨_, f, broken, later⟩ := (gives_bind _ _ _ _ _).mp later
    have ends := ends_item_of_end later closing
    have noListClosed : compoundList.Rejects (closed d) := by
      apply rejects_compound_list_at_halt
      rw [past_break_closed atBody.uncommented, (gives_line_break _ _ _).mp broken]
      have listEnds : EndsList true f.rest := ends.list
      exact halts_closed listEnds.halts
    have endClosed := reads_item_end_closed (atBody.past broken).uncommented later
    rw [wrapped] at endClosed
    refine reads_bind (reads_missed noListClosed) ?_
    exact reads_bind (reads_line_break_closed atBody.uncommented broken) endClosed

theorem reads_case_item_closed {turn : Turn Node} (known : Known c)
    (closing : (∀ value, turn ≠ .more value) → ∃ e, (keyword "esac").Reads d () e)
    (read : caseItem.Reads c turn d) : caseItem.Reads (closed c) (mapTurn Node.shifted turn) (closed d) := by
  rw [caseItem, Reads, gives_atomic] at read ⊢
  obtain ⟨_, e, opened, read⟩ := (gives_bind _ _ _ _ _).mp read
  obtain ⟨first, f, word, read⟩ := (gives_bind _ _ _ _ _).mp read
  obtain ⟨others, g, patterns, read⟩ := (gives_bind _ _ _ _ _).mp read
  obtain ⟨_, h, ended, body⟩ := (gives_bind _ _ _ _ _).mp read
  have items := (gives_many _ _ _ _).mp patterns
  have atWord := known.past opened
  have atPatterns := atWord.past word
  have atEnd := atPatterns.past patterns
  have paren : g.rest.head? = some ')' := head_of_start ((gives_operator _ _ _ _).mp ended).1 (by decide)
  have openedClosed : (optional (operator "(")).Reads (closed c) () (closed e) := by
    rcases (gives_optional _ _ _ _).mp opened with ⟨_, given⟩ | ⟨missing, rfl⟩
    · exact (gives_optional _ _ _ _).mpr (Or.inl ⟨_, reads_operator_closed known.uncommented given⟩)
    · exact (gives_optional _ _ _ _).mpr (Or.inr ⟨rejects_operator_closed (by decide) missing, rfl⟩)
  have stops : nextPattern.Rejects (closed g) := by
    refine (fails_bind _ _ _).mpr (Or.inl ((fails_lone_operator _ _).mpr fun bar => ?_))
    rw [closed_rest] at bar
    cases ((head_closed (by decide)).mp bar.1).symm.trans paren
  obtain ⟨patternsClosed, free⟩ :=
    reads_patterns_closed atPatterns (not_stuck_of_head paren (by decide)) (fun _ => stops) items
  refine reads_bind openedClosed (reads_bind (word_carried atWord first f word free) ?_)
  refine reads_bind (reads_many patternsClosed) ?_
  refine reads_bind (reads_operator_closed atEnd.uncommented ended) ?_
  have moved := operator_text_moves (by decide) _ _ _ ended
  have bodyClosed := reads_item_body_closed atEnd moved (reads_forward ended) closing body
  rwa [shifted_row, List.map_cons] at bodyClosed

theorem rejects_case_item {first : Node} {others : List Node} (noOpening : (operator "(").Rejects c)
    (word : (call .word).Reads c first d) (patterns : Items (reading grammar) nextPattern d others e)
    (noEnd : (operator ")").Rejects e) : caseItem.Rejects c := by
  rw [caseItem, Rejects, fails_atomic]
  refine (fails_bind _ _ _).mpr (Or.inr ⟨(), c, (gives_optional _ _ _ _).mpr (Or.inr ⟨noOpening, rfl⟩), ?_⟩)
  refine (fails_bind _ _ _).mpr (Or.inr ⟨_, d, word, ?_⟩)
  exact (fails_bind _ _ _).mpr (Or.inr ⟨_, e, reads_many patterns, (fails_bind _ _ _).mpr (Or.inl noEnd)⟩)

-- The word that ends a choice is a word too, and patterns may stand behind it, but no parenthesis ends them.
theorem patterns_at_closing (rejected : caseItem.Rejects c) (closing : (keyword "esac").Reads c () d) :
    ∃ word others e, (call .word).Reads c word d ∧ Items (reading grammar) nextPattern d others e ∧
      (operator "(").Rejects c ∧ (operator ")").Rejects e := by
  obtain ⟨word, wordRead⟩ := reads_word_at_keyword (by decide) closing
  obtain ⟨others, e, patterns⟩ := items_exist (reading grammar) nextPattern d
  have head : c.rest.head? = some 'e' := head_of_keyword (by decide) closing
  have noOpening : (operator "(").Rejects c := by
    rw [Rejects, fails_operator]
    exact fun here => by cases (head_of_start here (by decide)).symm.trans head
  refine ⟨word, others, e, wordRead, patterns, noOpening, (fails_operator _ _).mpr fun here => ?_⟩
  have ended : (operator ")").Reads e () (e.advance 1).pastBlanks := (gives_operator _ _ _ _).mpr ⟨here, rfl⟩
  obtain ⟨turn, f, body⟩ := item_body_reads (.ofNodes (word :: others)) (e.advance 1).pastBlanks
  refine not_fails_of_gives (c := c) (d := f) (a := turn) ?_ rejected
  rw [caseItem, gives_atomic]
  refine reads_bind ((gives_optional _ _ _ ()).mpr (Or.inr ⟨noOpening, rfl⟩)) ?_
  exact reads_bind wordRead (reads_bind (reads_many patterns) (reads_bind ended body))

theorem rejects_case_item_closed (known : Known c) (rejected : caseItem.Rejects c)
    (closing : (keyword "esac").Reads c () d) (whole : PatternsWhole d) (leave : PatternsLeave d) :
    caseItem.Rejects (closed c) := by
  obtain ⟨word, others, e, wordRead, patterns, noOpening, noEnd⟩ := patterns_at_closing rejected closing
  have remains := leave others e patterns
  obtain ⟨free, noBar⟩ := whole others e patterns
  have atPatterns := known.past closing
  have stops : nextPattern.Rejects e → nextPattern.Rejects (closed e) := by
    intro failed
    rcases (fails_bind _ _ _).mp failed with missing | ⟨_, f, bar, noWord⟩
    · exact (fails_bind _ _ _).mpr (Or.inl (rejects_lone_closed (by decide) missing))
    · have atEnd := atPatterns.past ((gives_many _ _ _ _).mpr patterns)
      refine (fails_bind _ _ _).mpr (Or.inr ⟨(), _, reads_lone_closed atEnd.uncommented (by decide) bar, ?_⟩)
      exact rejects_word_closed noWord (noBar f bar)
  obtain ⟨patternsClosed, wordFree⟩ := reads_patterns_closed atPatterns free stops patterns
  have noEndClosed : (operator ")").Rejects (closed e) := by
    rw [Rejects, fails_operator] at noEnd ⊢
    rw [closed_rest]
    intro here
    have start := head_of_start here (by decide)
    rw [head_of_nonempty remains] at start
    obtain ⟨rest, whole⟩ := List.head?_eq_some_iff.mp start
    exact noEnd ⟨rest, whole.symm⟩
  exact rejects_case_item (rejects_operator_closed (by decide) noOpening) (word_carried known word d wordRead wordFree)
    patternsClosed noEndClosed

theorem case_turn_form {turn : Turn Node} (read : caseTurn.Reads c turn d) :
    caseItem.Reads c turn d ∨ turn = .stop ∧ caseItem.Rejects c ∧ c = d := by
  rcases (gives_attempt_bind _ _ _ _ _).mp read with ⟨_, e, given, made⟩ | ⟨failed, made⟩
  · obtain ⟨rfl, rfl⟩ := (gives_pure _ _ _ _).mp made
    exact Or.inl given
  · obtain ⟨rfl, rfl⟩ := (gives_pure _ _ _ _).mp made
    exact Or.inr ⟨rfl, failed, rfl⟩

theorem reads_case_turn {turn : Turn Node} (read : caseItem.Reads c turn d) : caseTurn.Reads c turn d :=
  reads_bind (reads_tried read) (reads_pure _ _)

theorem reads_case_stop (rejected : caseItem.Rejects c) : caseTurn.Reads c .stop c :=
  reads_bind (reads_missed rejected) (reads_pure _ _)

theorem reads_more_item {item : Node} (read : caseTurn.Reads c (.more item) d) : caseItem.Reads c (.more item) d :=
  (case_turn_form read).resolve_right fun stopped => nomatch stopped.1

theorem case_turns_closed {items : List Node} (known : Known c) (closing : (keyword "esac").Reads d () e)
    (whole : PatternsWhole e)
    (leave : Items (reading grammar) endedItem c items d → caseItem.Rejects d → PatternsLeave e)
    (turns : Turns (reading grammar) caseTurn c items d) :
    Turns (reading grammar) caseTurn (closed c) (items.map Node.shifted) (closed d) := by
  induction turns with
  | stop given =>
      rcases case_turn_form given with read | ⟨-, failed, rfl⟩
      · exact .stop (reads_case_turn (reads_case_item_closed known (fun _ => ⟨e, closing⟩) read))
      · have none := leave (.stop ((fails_bind _ _ _).mpr (Or.inl failed))) failed
        exact .stop (reads_case_stop (rejects_case_item_closed known failed closing whole none))
  | last given =>
      have read := (case_turn_form given).resolve_right fun stopped => nomatch stopped.1
      exact .last (reads_case_turn (reads_case_item_closed known (fun _ => ⟨e, closing⟩) read))
  | halt given stays => exact absurd (case_item_moves _ _ _ (reads_more_item given)) stays
  | @more c f d value others given progress _ ih =>
      have read := reads_more_item given
      have ended : endedItem.Reads c value f := reads_bind read (reads_pure _ _)
      have later := ih (known.past given) closing fun items => leave (.more ended progress items)
      have readClosed := reads_case_item_closed known (fun last => absurd rfl (last value)) read
      exact .more (reads_case_turn readClosed) (closed_left_lt.mpr progress) later

theorem choice_of_open (opens : OpenChoice c d) : ∃ choice, caseClause.Reads c choice d := by
  obtain ⟨subject, e, items, f, start, ended, failed, closing⟩ := opens
  have turns : Turns (reading grammar) caseTurn e items f := by
    clear start closing
    have item : ∀ {g value h}, endedItem.Reads g value h → caseItem.Reads g (.more value) h := by
      intro g value h read
      obtain ⟨turn, i, given, made⟩ := (gives_bind _ _ _ _ _).mp read
      cases turn with
      | more inner =>
          obtain ⟨rfl, rfl⟩ := (gives_pure _ _ _ _).mp made
          exact given
      | last | stop => exact absurd made (gives_fail _ _ _)
    induction ended with
    | stop _ => exact .stop (reads_case_stop failed)
    | halt given stays => exact absurd (case_item_moves _ _ _ (item given)) stays
    | more given progress _ ih => exact .more (reads_case_turn (item given)) progress (ih failed)
  simp only [choiceStart, gives_bind, gives_pure] at start
  obtain ⟨_, _, opened, _, _, word, _, _, broken, _, _, inside, _, _, brokenBehind, rfl, rfl⟩ := start
  exact ⟨_, reads_atomic (reads_bind opened (reads_bind word (reads_bind broken (reads_bind inside
    (reads_bind brokenBehind (reads_bind (reads_rounds turns) (reads_bind closing (reads_pure _ _))))))))⟩

theorem reads_case_clause_closed (known : Known c) (whole : PatternsWhole d) (leave : ChoiceLeaves c)
    (read : caseClause.Reads c node d) : caseClause.Reads (closed c) node.shifted (closed d) := by
  simp only [caseClause, gives_atomic, gives_bind, gives_pure] at read
  obtain ⟨_, e, opened, subject, f, word, _, g, broken, _, h, inside, _, i, brokenBehind, items, j, listed,
    _, _, closing, rfl, rfl⟩ := read
  have start : choiceStart.Reads c subject i := reads_bind opened (reads_bind word (reads_bind broken
    (reads_bind inside (reads_bind brokenBehind (reads_pure _ _)))))
  have atWord := known.past opened
  have atBreak := atWord.past word
  have atIn := atBreak.past broken
  have behindIn := atIn.past inside
  have atItems := behindIn.past brokenBehind
  have free : ¬ Stuck f := by
    intro stuck
    rw [(gives_line_break _ _ _).mp broken |>.symm.trans (past_break_of_stuck stuck)] at inside
    exact not_stuck_of_keyword (by decide) inside stuck
  have turns := case_turns_closed atItems closing whole
    (fun items failed => leave _ ⟨subject, i, _, j, start, items, failed, closing⟩)
    ((gives_rounds _ _ _ _).mp listed)
  rw [shifted_of_nodes, List.map_cons]
  refine reads_atomic (reads_bind (reads_keyword_closed known.uncommented (by decide) opened) ?_)
  refine reads_bind (word_carried atWord subject f word free) ?_
  refine reads_bind (reads_line_break_closed atBreak.uncommented broken) ?_
  refine reads_bind (reads_keyword_closed atIn.uncommented (by decide) inside) ?_
  refine reads_bind (reads_line_break_closed behindIn.uncommented brokenBehind) ?_
  refine reads_bind (reads_rounds turns) ?_
  exact reads_bind (reads_keyword_closed (atItems.past listed).uncommented (by decide) closing) (reads_pure _ _)

end Choices

section Conditionals

theorem reads_keyword_of_start {word : String} (reserved : word ∈ reservedWords)
    (start : String.ofList (solidStart c.rest) = word) : ∃ d, (keyword word).Reads c () d :=
  ⟨_, (gives_keyword _ _ _ _).mpr
    ⟨(starts_reserved_iff (reserved_words_solid word reserved)).mpr start, rfl⟩⟩

theorem start_of_keyword {word : String} (reserved : word ∈ reservedWords) (read : (keyword word).Reads c () d) :
    String.ofList (solidStart c.rest) = word :=
  (starts_reserved_iff (reserved_words_solid word reserved)).mp ((gives_keyword _ _ _ _).mp read).1

theorem reads_else_part_closed (known : Known c) (closing : (keyword "fi").Reads d () e)
    (read : elsePart.Reads c node d) : elsePart.Reads (closed c) node.shifted (closed d) := by
  rw [elsePart, Reads, gives_atomic] at read ⊢
  rcases (gives_attempt_bind _ _ _ _ _).mp read with ⟨_, f, opened, later⟩ | ⟨noChoice, later⟩
  · obtain ⟨inner, g, choice, made⟩ := (gives_bind _ _ _ _ _).mp later
    obtain ⟨rfl, rfl⟩ := (gives_pure _ _ _ _).mp made
    have moved := keyword_text_moves (by decide) _ _ _ opened
    have choiceClosed := known.carried .conditional f (reads_forward opened) moved inner g choice
      (start_of_keyword (by decide) closing)
    rw [shifted_wrap]
    refine reads_bind (reads_tried (reads_keyword_closed known.uncommented (by decide) opened)) ?_
    exact reads_bind choiceClosed (reads_pure _ _)
  · obtain ⟨_, f, opened, later⟩ := (gives_bind _ _ _ _ _).mp later
    obtain ⟨inner, g, list, made⟩ := (gives_bind _ _ _ _ _).mp later
    obtain ⟨rfl, rfl⟩ := (gives_pure _ _ _ _).mp made
    have ends : EndsList true g.rest := ends_list_of_keyword (by decide) closing
    rw [shifted_wrap]
    refine reads_bind (reads_missed (rejects_keyword_closed (by decide) noChoice)) ?_
    refine reads_bind (reads_keyword_closed known.uncommented (by decide) opened) ?_
    exact reads_bind (known.list (keyword_text_moves (by decide)) opened ends list) (reads_pure _ _)

theorem rejects_else_part (start : String.ofList (solidStart c.rest) = "fi") : elsePart.Rejects c := by
  have none : ∀ word ∈ ["elif", "else"], (keyword word).Rejects c := by
    intro word listed
    obtain ⟨reserved, other⟩ := (by decide : ∀ word ∈ ["elif", "else"],
      word ∈ reservedWords ∧ "fi" ≠ word) word listed
    exact rejects_keyword reserved (by rw [start]; exact other)
  rw [elsePart, Rejects, fails_atomic, fails_attempt_bind]
  exact Or.inr ⟨none _ (by decide), (fails_bind _ _ _).mpr (Or.inl (none _ (by decide)))⟩

theorem ends_list_of_else_part (read : elsePart.Reads c node d) : EndsList true c.rest := by
  cases else_part_form read with
  | choice opened | list opened => exact ends_list_of_keyword (by decide) opened

theorem conditional_carried (known : Known c) (chains : ChainsCarried c) : Carried .conditional c := by
  intro node d read start
  obtain ⟨e, closing⟩ := reads_keyword_of_start (by decide) start
  rw [reads_call] at read ⊢
  simp only [grammar, conditional, gives_bind, gives_pure] at read
  obtain ⟨condition, f, tested, _, g, chosen, consequent, h, list, alternative, i, tried, rfl, rfl⟩ := read
  have atThen := known.past tested
  have atList := atThen.past chosen
  have atElse := atList.past list
  have ends : EndsList true h.rest := by
    rcases (gives_attempt _ _ _ _).mp tried with ⟨inner, -, given⟩ | ⟨-, -, rfl⟩
    · exact ends_list_of_else_part given
    · exact ends_list_of_keyword (by decide) closing
  have triedClosed : (attempt elsePart).Reads (closed h) (alternative.map Node.shifted) (closed i) := by
    rcases (gives_attempt _ _ _ _).mp tried with ⟨inner, rfl, given⟩ | ⟨rfl, -, rfl⟩
    · exact reads_tried (reads_else_part_closed atElse closing given)
    · refine reads_missed (rejects_else_part ?_)
      rwa [closed_rest, solid_start_closed]
  have thenEnds : EndsList true f.rest := ends_list_of_keyword (by decide) chosen
  have wrapped : (Node.ofNodes .ifChoice ([.wrap .condition condition, .wrap .consequent consequent] ++
      alternative.toList)).shifted = .ofNodes .ifChoice ([.wrap .condition condition.shifted,
        .wrap .consequent consequent.shifted] ++ (alternative.map Node.shifted).toList) := by
    cases alternative <;> simp
  rw [wrapped]
  refine reads_bind (reads_compound_list_closed known.uncommented chains thenEnds tested) ?_
  refine reads_bind (reads_keyword_closed atThen.uncommented (by decide) chosen) ?_
  refine reads_bind (atThen.list (keyword_text_moves (by decide)) chosen ends list) ?_
  exact reads_bind triedClosed (reads_pure _ _)

theorem reads_if_clause_closed (known : Known c) (read : ifClause.Reads c node d) :
    ifClause.Reads (closed c) node.shifted (closed d) := by
  simp only [ifClause, gives_atomic, gives_bind, gives_pure] at read
  obtain ⟨_, e, opened, choice, f, chosen, _, _, closing, rfl, rfl⟩ := read
  have atChoice := known.past opened
  have moved := keyword_text_moves (by decide) _ _ _ opened
  have choiceClosed := known.carried .conditional e (reads_forward opened) moved choice f chosen
    (start_of_keyword (by decide) closing)
  refine reads_atomic (reads_bind (reads_keyword_closed known.uncommented (by decide) opened) ?_)
  refine reads_bind choiceClosed ?_
  exact reads_bind (reads_keyword_closed (atChoice.past chosen).uncommented (by decide) closing) (reads_pure _ _)

end Conditionals

theorem reads_compound_command_closed (known : Known c) (whole : PatternsWhole d) (leave : ChoiceLeaves c)
    (read : compoundCommand.Reads c node d) :
    compoundCommand.Reads (closed c) node.shifted (closed d) := by
  have remains : c.rest ≠ [] := by
    intro empty
    rw [compoundCommand, Reads, gives_look_bind, empty] at read
    exact absurd read (gives_fail _ _ _)
  rw [compoundCommand, Reads, gives_look_bind] at read ⊢
  rw [closed_rest, head_of_nonempty remains]
  split at read
  · exact reads_enclosed_closed known (by decide : "\x7b" ∈ reservedWords) (by decide : "\x7d" ∈ closingWords) read
  · exact reads_subshell_closed known read
  · exact reads_for_clause_closed known read
  · exact reads_case_clause_closed known whole leave read
  · exact reads_if_clause_closed known read
  · exact reads_loop_clause_closed known (by decide) read
  · exact reads_loop_clause_closed known (by decide) read
  · exact absurd read (gives_fail _ _ _)

end ShellLine.Closure
