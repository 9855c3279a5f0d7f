import ShellLine.Proofs.Closure.Detour
import ShellLine.Proofs.Closure.Extent
import ShellLine.Proofs.Closure.Lists
import ShellLine.Proofs.Closure.Quotes

set_option autoImplicit false

namespace ShellLine.Closure

open ShellLine.Parser Grammar

variable {c d : Cursor} {node : Node}

section Parameters

theorem reads_braced_parameter_closed {chars : List Char} (read : bracedParameter.Reads c chars d) :
    bracedParameter.Reads (closed c) chars (closed d) := by
  rw [bracedParameter, Reads, gives_look_bind] at read ⊢
  have named : (name <|> refuse (.token .parameter)).Reads c chars d →
      (name <|> refuse (.token .parameter)).Reads (closed c) chars (closed d) := by
    intro read
    rcases (gives_or_else _ _ _ _ _).mp read with given | ⟨-, refused⟩
    · exact reads_first (reads_name_closed given)
    · exact absurd refused (gives_refuse _ _ _ _)
  cases rest : c.rest with
  | nil =>
      rw [rest] at read
      rcases (gives_or_else _ _ _ _ _).mp read with given | ⟨-, refused⟩
      · simp [rest] at given
      · exact absurd refused (gives_refuse _ _ _ _)
  | cons ch others =>
      rw [rest] at read
      rw [closed_rest, rest, List.cons_append]
      dsimp only at read ⊢
      split
      · rename_i digit
        rw [if_pos digit] at read
        exact reads_take_while_closed (by decide) read
      · rename_i digit
        rw [if_neg digit] at read
        split
        · rename_i special
          rw [if_pos special, gives_take] at read
          obtain ⟨rfl, rfl⟩ := read
          refine (gives_take _ _ _ _).mpr ⟨?_, closed_advance (by simp [rest])⟩
          rw [closed_rest, rest]
          rfl
        · rename_i special
          rw [if_neg special] at read
          exact named read

theorem reads_named_parameter_closed (read : namedParameter.Reads c node d) :
    namedParameter.Reads (closed c) node.shifted (closed d) := by
  rcases (gives_attempt_bind _ _ _ _ _).mp read with ⟨chars, e, named, made⟩ | ⟨-, missing⟩
  · obtain ⟨rfl, rfl⟩ := (gives_pure _ _ _ _).mp made
    rw [shifted_leaf]
    exact reads_bind (reads_tried (reads_name_closed named)) (reads_pure _ _)
  · simp at missing

theorem reads_plain_parameter_closed (remains : c.rest ≠ []) (read : plainParameter.Reads c node d) :
    plainParameter.Reads (closed c) node.shifted (closed d) := by
  have within := List.length_pos_iff.mpr remains
  simp only [plainParameter, Reads, gives_atomic, gives_bind, gives_skip, gives_look] at read ⊢
  obtain ⟨_, _, rfl, text, _, ⟨rfl, rfl⟩, read⟩ := read
  refine ⟨(), _, closed_advance within, _, _, ⟨rfl, rfl⟩, ?_⟩
  rw [closed_rest]
  cases rest : (c.advance 1).rest with
  | nil =>
      rw [rest] at read
      rcases (gives_attempt_bind _ _ _ _ _).mp read with ⟨chars, e, named, -⟩ | ⟨-, missing⟩
      · simp [rest] at named
      · simp at missing
  | cons ch others =>
      have inner : 1 ≤ (c.advance 1).rest.length := by simp [rest]
      rw [rest] at read
      rw [List.cons_append]
      dsimp only at read ⊢
      by_cases special : isSpecialParameter ch = true
      · rw [if_pos special, gives_bind] at read
        obtain ⟨_, _, skipped, made⟩ := read
        obtain rfl := (gives_skip _ _ _ _).mp skipped
        obtain ⟨rfl, rfl⟩ := (gives_pure _ _ _ _).mp made
        rw [if_pos special, shifted_leaf]
        exact reads_bind (reads_skip_closed inner) (reads_pure _ _)
      · rw [if_neg special] at read ⊢
        by_cases digit : ch.isDigit = true
        · rw [if_pos digit, gives_bind] at read
          obtain ⟨_, _, skipped, made⟩ := read
          obtain rfl := (gives_skip _ _ _ _).mp skipped
          obtain ⟨rfl, rfl⟩ := (gives_pure _ _ _ _).mp made
          rw [if_pos digit, shifted_leaf]
          exact reads_bind (reads_skip_closed inner) (reads_pure _ _)
        · rw [if_neg digit] at read ⊢
          exact reads_named_parameter_closed read

end Parameters

section Expansions

theorem rejects_string_length (uncommented : '#' ∉ c.rest) : stringLength.Rejects c := by
  simp only [stringLength, Rejects, fails_atomic, fails_bind, fails_skip, gives_skip, fails_literal,
    false_or]
  refine ⟨(), _, rfl, Or.inl fun here => ?_⟩
  have member : '#' ∈ (c.advance 2).rest := here.subset (by decide)
  exact uncommented ((c.advance_suffix 2).subset member)

theorem expansion_ahead {e : Cursor} (long : 2 ≤ c.rest.length) (within : e.rest <:+ (c.advance 2).rest) :
    e.rest <:+ c.rest ∧ e.left < c.left := by
  have remains : c.rest ≠ [] := List.length_pos_iff.mp (Nat.lt_of_lt_of_le Nat.zero_lt_two long)
  exact ⟨within.trans (c.advance_suffix 2),
    Nat.lt_of_le_of_lt (Cursor.left_le_of_suffix _ _ within) (c.advance_left_lt 2 remains Nat.two_pos)⟩

theorem reads_parameter_operation_closed (known : Known c) (long : 2 ≤ c.rest.length)
    (read : parameterOperation.Reads c node d) :
    parameterOperation.Reads (closed c) node.shifted (closed d) := by
  simp only [parameterOperation, gives_atomic, gives_bind, gives_skip, gives_nested, gives_pure] at read
  obtain ⟨_, _, rfl, parameter, e, named, kind, f, found, operand, g, inside, _, _, closing, rfl, rfl⟩ := read
  obtain ⟨behind, moved⟩ := expansion_ahead long ((reads_forward found).trans (reads_forward named))
  have ends : g.rest.head? = some '\x7d' := head_of_start ((gives_literal _ _ _ _).mp closing).1 (by decide)
  have operandClosed := known.carried .operand f behind moved operand g inside ends
  simp only [parameterOperation, Reads, gives_atomic]
  refine reads_bind (reads_skip_closed long) (reads_bind (reads_braced_parameter_closed named) ?_)
  refine reads_bind (reads_literal_among_closed (by decide) found) ?_
  refine reads_bind ((gives_nested _ _ _ _).mpr operandClosed) (reads_bind (reads_literal_closed closing) ?_)
  have same : (⟨kind, .ofList [.text parameter, .node operand], none⟩ : Node).shifted =
      ⟨kind, .ofList [.text parameter, .node operand.shifted], none⟩ := by
    simp [Node.shifted, Child.shifted]
  rw [same]
  exact reads_pure _ _

theorem rejects_operation_at_brace {chars : List Char} {e : Cursor}
    (named : bracedParameter.Reads (c.advance 2) chars e)
    (brace : e.rest.head? = some '\x7d') : parameterOperation.Rejects c := by
  have none : (literalAmong parameterOperators).Rejects e := by
    refine rejects_literal_among fun pair member here => ?_
    obtain ⟨nonempty, other⟩ := (by decide : ∀ pair ∈ parameterOperators,
      pair.1.toList ≠ [] ∧ pair.1.toList.head? ≠ some '\x7d') pair member
    exact other ((head_of_start here nonempty).symm.trans brace)
  simp only [parameterOperation, Rejects, fails_atomic]
  refine (fails_bind _ _ _).mpr (Or.inr ⟨(), _, rfl, (fails_bind _ _ _).mpr (Or.inr ⟨chars, e, named, ?_⟩)⟩)
  exact (fails_bind _ _ _).mpr (Or.inl none)

theorem reads_bare_parameter_closed (long : 2 ≤ c.rest.length) (read : bareBracedParameter.Reads c node d) :
    bareBracedParameter.Reads (closed c) node.shifted (closed d) ∧ parameterOperation.Rejects (closed c) := by
  simp only [bareBracedParameter, gives_atomic, gives_bind, gives_skip, gives_pure] at read
  obtain ⟨_, _, rfl, parameter, e, named, _, _, closing, rfl, rfl⟩ := read
  have namedClosed := reads_braced_parameter_closed named
  rw [shifted_leaf]
  constructor
  · simp only [bareBracedParameter, Reads, gives_atomic]
    refine reads_bind (reads_skip_closed long) (reads_bind namedClosed ?_)
    exact reads_bind (reads_literal_closed closing) (reads_pure _ _)
  · have head : e.rest.head? = some '\x7d' := head_of_start ((gives_literal _ _ _ _).mp closing).1 (by decide)
    rw [← closed_advance long] at namedClosed
    exact rejects_operation_at_brace namedClosed ((head_closed (by decide)).mpr head)

theorem reads_braced_expansion_closed (known : Known c) (long : 2 ≤ c.rest.length)
    (read : bracedExpansion.Reads c node d) : bracedExpansion.Reads (closed c) node.shifted (closed d) := by
  have noLength : stringLength.Rejects (closed c) := by
    refine rejects_string_length ?_
    rw [closed_rest, List.mem_append]
    exact fun member => member.elim known.uncommented (by decide)
  rcases (gives_or_else _ _ _ _ _).mp read with length | ⟨-, read⟩
  · exact absurd (rejects_string_length known.uncommented) (not_fails_of_gives length)
  · refine reads_second noLength ?_
    rcases (gives_or_else _ _ _ _ _).mp read with operation | ⟨-, bare⟩
    · exact reads_first (reads_parameter_operation_closed known long operation)
    · obtain ⟨bareClosed, noOperation⟩ := reads_bare_parameter_closed long bare
      exact reads_second noOperation bareClosed

theorem reads_command_expansion_closed (known : Known c) (long : 2 ≤ c.rest.length)
    (read : commandExpansion.Reads c node d) :
    commandExpansion.Reads (closed c) node.shifted (closed d) := by
  simp only [commandExpansion, gives_nested, gives_atomic, gives_bind, gives_skip] at read
  obtain ⟨_, _, rfl, _, e, blank, _, f, broken, commands, g, list, _, h, ended, _, i, closing, made⟩ := read
  obtain ⟨rfl, rfl⟩ := (gives_pure _ _ _ _).mp made
  have atE : e.rest <:+ c.rest := (reads_forward blank).trans (c.advance_suffix 2)
  obtain ⟨atF, moved⟩ := expansion_ahead long ((reads_forward broken).trans (reads_forward blank))
  have atG : g.rest <:+ c.rest := (reads_forward list).trans atF
  have here : ")".toList <+: g.pastBreak.rest := by
    rw [(gives_line_break _ _ _).mp ended]
    exact ((gives_literal _ _ _ _).mp closing).1
  have uncommented := known.uncommented
  rw [shifted_of_nodes]
  simp only [commandExpansion, Reads, gives_nested, gives_atomic]
  refine reads_bind (reads_skip_closed long) ?_
  refine reads_bind (reads_blanks_closed (uncommented_behind uncommented (c.advance_suffix 2)) blank) ?_
  refine reads_bind (reads_line_break_closed (uncommented_behind uncommented atE) broken) ?_
  refine reads_bind (reads_complete_commands_closed (uncommented_behind uncommented atF)
    (known.chains moved atF) here list) ?_
  refine reads_bind (reads_line_break_closed (uncommented_behind uncommented atG) ended) ?_
  exact reads_bind (reads_literal_closed closing) (reads_pure _ _)

theorem delimited_of_rejects_part (noPart : (wordPart false).Rejects c) (free : ¬ Stuck c) :
    c.rest.head?.all isDelimiter = true := by
  cases head : c.rest.head? with
  | none => rfl
  | some ch =>
      rw [Option.all_some]
      by_contra inside
      have notQuoting : ¬ isQuoting ch = true := fun quoting => free ⟨by rw [head]; exact quoting, noPart⟩
      have plain : isPlain ch = true := by simp_all [isPlain, isWordBreak, isQuoting]
      exact not_fails_of_gives (reads_plain_run head plain) noPart

theorem rejects_part_of_word (noWord : (call .word).Rejects c) : (wordPart false).Rejects c := by
  rcases gives_or_fails (reading grammar) (wordPart false) c with ⟨part, d, read⟩ | rejected
  · obtain ⟨parts, e, items⟩ := items_exist (reading grammar) (wordPart false) d
    have whole : Items (reading grammar) (wordPart false) c (part :: parts) e :=
      .more read (word_part_moves read) items
    have given : (call .word).Reads c (.ofNodes .word (part :: parts)) e.pastBlanks := by
      rw [reads_call]
      exact reads_bind (reads_many whole) (reads_bind ((gives_blanks _ _ ()).mpr rfl) (reads_pure _ _))
    exact absurd noWord (not_fails_of_gives given)
  · exact rejected

theorem rejects_part_closed (free : ¬ Stuck c) (noPart : (wordPart false).Rejects c) :
    (wordPart false).Rejects (closed c) := by
  apply rejects_part_at_delimiter
  have delimited := delimited_of_rejects_part noPart free
  cases rest : c.rest with
  | nil => rw [closed_rest, rest]; rfl
  | cons ch others =>
      rw [rest] at delimited
      rw [closed_rest, rest]
      exact delimited

theorem rejects_word_closed (noWord : (call .word).Rejects c) (free : ¬ Stuck c) :
    (call .word).Rejects (closed c) :=
  (rejects_call .word _).mpr (rejects_word (rejects_part_closed free (rejects_part_of_word noWord)))

theorem words_closed {words : List Node} (carried : ∀ e, e.rest <:+ c.rest → Carried .word e)
    (free : ¬ Stuck d) (items : Items (reading grammar) (call .word) c words d) :
    Items (reading grammar) (call .word) (closed c) (words.map Node.shifted) (closed d) := by
  refine (items_closed (P := fun e => ¬ Stuck e) ?_ (fun failed => rejects_word_closed failed free) free items).1
  intro e word f suffix read behind
  exact ⟨carried e suffix word f read behind, not_stuck_of_word ((reads_call _ _ _ _).mp read)⟩

theorem arithmetic_start {rest : List Char} (here : c.rest = '$' :: '(' :: '(' :: rest) :
    3 ≤ c.rest.length ∧ (c.advance 3).pastBlanks.left < c.left ∧
      (c.advance 3).pastBlanks.rest <:+ c.rest := by
  refine ⟨by simp [here], ?_, (Cursor.advance_suffix _ _).trans (c.advance_suffix 3)⟩
  have moved := c.advance_left_lt 3 (by simp [here]) (by decide)
  have passed := past_blanks_left_le (c.advance 3)
  omega

theorem Known.words (known : Known c) (moved : d.left < c.left) (behind : d.rest <:+ c.rest) :
    ∀ e, e.rest <:+ d.rest → Carried .word e :=
  fun e suffix => known.carried .word e (suffix.trans behind)
    (Nat.lt_of_le_of_lt (Cursor.left_le_of_suffix e d suffix) moved)

theorem reads_arithmetic_expansion_closed {rest : List Char} (known : Known c)
    (here : c.rest = '$' :: '(' :: '(' :: rest) (read : arithmeticExpansion.Reads c node d) :
    arithmeticExpansion.Reads (closed c) node.shifted (closed d) := by
  obtain ⟨long, moved, behind⟩ := arithmetic_start here
  simp only [arithmeticExpansion, gives_nested, gives_atomic, gives_bind, gives_skip, gives_many,
    gives_pure] at read
  obtain ⟨_, _, rfl, _, e, blank, words, f, items, _, g, closing, rfl, rfl⟩ := read
  obtain rfl := (gives_blanks _ _ _).mp blank
  have paren : f.rest.head? = some ')' := head_of_start ((gives_literal _ _ _ _).mp closing).1 (by decide)
  have closedWords := words_closed (known.words moved behind) (not_stuck_of_head paren (by decide)) items
  have uncommented := uncommented_behind known.uncommented (c.advance_suffix 3)
  rw [shifted_of_nodes]
  simp only [arithmeticExpansion, Reads, gives_nested, gives_atomic]
  refine reads_bind (reads_skip_closed long) (reads_bind (reads_blanks_closed uncommented blank) ?_)
  exact reads_bind (reads_many closedWords) (reads_bind (reads_literal_closed closing) (reads_pure _ _))

theorem rejects_arithmetic_expansion_closed {rest : List Char} (known : Known c)
    (here : c.rest = '$' :: '(' :: '(' :: rest) (rejected : arithmeticExpansion.Rejects c)
    (read : commandExpansion.Reads c node d) : arithmeticExpansion.Rejects (closed c) := by
  obtain ⟨long, moved, behind⟩ := arithmetic_start here
  have uncommented := uncommented_behind known.uncommented (c.advance_suffix 3)
  obtain ⟨words, f, items⟩ := items_exist (reading grammar) (call .word) (c.advance 3).pastBlanks
  have noEnd : ¬ "))".toList <+: f.rest := by
    intro ends
    refine not_fails_of_gives (d := f.advance 2) (a := .ofNodes .arithmeticExpansion words) ?_ rejected
    simp only [arithmeticExpansion, gives_nested, gives_atomic, gives_bind, gives_skip, gives_many,
      gives_blanks, gives_literal, gives_pure]
    exact ⟨(), _, rfl, (), _, rfl, words, f, items, (), _, ⟨ends, rfl⟩, rfl, rfl⟩
  have alive : ¬ DeadEnd f := fun dead =>
    not_fails_of_gives read (rejects_command_expansion_at_words dead known.uncommented here
      (toward_of_words (uncommented_behind known.uncommented behind) items))
  rw [DeadEnd, not_or] at alive
  have closedWords := words_closed (known.words moved behind) alive.1 items
  have blank : blanks.Reads (c.advance 3) () (c.advance 3).pastBlanks := (gives_blanks _ _ _).mpr rfl
  simp only [arithmeticExpansion, Rejects, fails_nested, fails_atomic]
  refine (fails_bind _ _ _).mpr (Or.inr ⟨(), _, reads_skip_closed long, ?_⟩)
  refine (fails_bind _ _ _).mpr (Or.inr ⟨(), _, reads_blanks_closed uncommented blank, ?_⟩)
  refine (fails_bind _ _ _).mpr (Or.inr ⟨_, _, reads_many closedWords, ?_⟩)
  refine (fails_bind _ _ _).mpr (Or.inl ((fails_literal _ _).mpr fun ends => ?_))
  rw [closed_rest] at ends
  rcases List.prefix_concat_iff.mp ends with whole | inside
  · have sameEnd : _ ++ [')'] = [')'] ++ [')'] := whole.symm
    exact alive.2 (List.append_inj_left' sameEnd rfl)
  · exact noEnd inside

theorem dollar_expansion_at (c : Cursor) (node : Node) (d : Cursor) : dollarExpansion.Reads c node d ↔
    (if ['$', '(', '('] <+: c.rest then arithmeticExpansion <|> commandExpansion
      else if ['$', '('] <+: c.rest then commandExpansion
      else if ['$', '\x7b'] <+: c.rest then bracedExpansion else plainParameter).Reads c node d := by
  rw [dollarExpansion, Reads, gives_look_bind]
  split
  · rename_i rest here
    rw [here, if_pos ⟨rest, rfl⟩]
  · rename_i rest noDouble here
    rw [if_neg, if_pos ⟨rest, here.symm⟩]
    rintro ⟨others, double⟩
    exact noDouble others (List.cons.inj (List.cons.inj (here.symm.trans double.symm)).2).2
  · rename_i rest here
    rw [here, if_neg, if_neg, if_pos ⟨rest, rfl⟩] <;> simp [List.cons_prefix_cons]
  · rename_i noDouble noSingle noBrace
    rw [if_neg, if_neg, if_neg]
    · rintro ⟨rest, here⟩
      exact noBrace rest here.symm
    · rintro ⟨rest, here⟩
      exact noSingle rest here.symm
    · rintro ⟨rest, here⟩
      exact noDouble rest here.symm

theorem reads_dollar_expansion_closed (known : Known c) (head : c.rest.head? = some '$')
    (read : dollarExpansion.Reads c node d) : dollarExpansion.Reads (closed c) node.shifted (closed d) := by
  have same : ∀ {part : List Char}, ')' ∉ part → (part <+: (closed c).rest ↔ part <+: c.rest) :=
    fun noParen => by rw [closed_rest, prefix_closed noParen]
  have long : ∀ {part : List Char}, part <+: c.rest → part.length ≤ c.rest.length := fun here => here.length_le
  rw [dollar_expansion_at] at read ⊢
  simp only [same (by decide : ')' ∉ ['$', '(', '(']), same (by decide : ')' ∉ ['$', '(']),
    same (by decide : ')' ∉ ['$', '\x7b'])]
  split
  · rename_i double
    rw [if_pos double] at read
    obtain ⟨rest, here⟩ := double
    rcases (gives_or_else _ _ _ _ _).mp read with arithmetic | ⟨noArithmetic, command⟩
    · exact reads_first (reads_arithmetic_expansion_closed known here.symm arithmetic)
    · refine reads_second (rejects_arithmetic_expansion_closed known here.symm noArithmetic command) ?_
      exact reads_command_expansion_closed known (Nat.le_of_succ_le (long ⟨rest, here⟩)) command
  · rename_i noDouble
    rw [if_neg noDouble] at read
    split
    · rename_i single
      rw [if_pos single] at read
      exact reads_command_expansion_closed known (long single) read
    · rename_i noSingle
      rw [if_neg noSingle] at read
      split
      · rename_i brace
        rw [if_pos brace] at read
        exact reads_braced_expansion_closed known (long brace) read
      · rename_i noBrace
        rw [if_neg noBrace] at read
        exact reads_plain_parameter_closed (ne_nil_of_head head) read

end Expansions

section Parts

variable {braced : Bool}

theorem reads_part_at {ch : Char} {part : Parser Node} (head : c.rest.head? = some ch)
    (same : (match some ch with
      | some '\'' => singleQuote
      | some '"' => doubleQuote
      | some '\x60' => backquote false
      | some '$' => dollarExpansion
      | some '\\' => bareEscape
      | _ => unquotedLiteral braced) = part)
    (read : part.Reads c node d) : (wordPart braced).Reads c node d := by
  rw [wordPart, Reads, gives_look_bind, head]
  rwa [← same] at read

theorem reads_part_closed (known : Known c) (read : (wordPart braced).Reads c node d) :
    (wordPart braced).Reads (closed c) node.shifted (closed d) := by
  cases word_part_form read with
  | @singleQuote _ chars single here =>
      rw [shifted_leaf]
      have passed := @reads_single braced chars single (d.rest ++ [')'])
      have whole : (closed c).rest = '\'' :: chars ++ '\'' :: (d.rest ++ [')']) := by
        rw [closed_rest, here, List.append_assoc]
        rfl
      rwa [← Cursor.eq_start whole] at passed
  | @bareEscape _ ch here =>
      rw [shifted_leaf]
      have passed := @reads_bare_escape braced ch (d.rest ++ [')'])
      have whole : (closed c).rest = '\\' :: ch :: (d.rest ++ [')']) := by
        rw [closed_rest, here, List.cons_append, List.cons_append]
      rwa [← Cursor.eq_start whole] at passed
  | @unquoted _ chars nonempty plain ends here =>
      rw [shifted_leaf]
      have stops : ∀ ch, (d.rest ++ [')']).head? = some ch → isWordBreak braced ch = true := by
        intro ch head
        cases rest : d.rest with
        | nil =>
            rw [rest] at head
            obtain rfl : ')' = ch := by simpa using head
            rfl
        | cons first others =>
            rw [rest] at head
            exact ends ch (by rw [rest]; exact head)
      have passed := reads_plain nonempty plain stops
      have whole : (closed c).rest = chars ++ (d.rest ++ [')']) := by
        rw [closed_rest, here, List.append_assoc]
      rwa [← Cursor.eq_start whole] at passed
  | @doubleQuote _ parts head turns =>
      refine reads_part_at ((head_closed (by decide)).mpr head) rfl ?_
      refine reads_double_quote_closed (ne_nil_of_head head) ?_ (reads_double_quote turns)
      intro e f inner suffix dollar given
      exact reads_dollar_expansion_closed (known.behind (suffix.trans (c.advance_suffix 1))) dollar given
  | dollar head given =>
      exact reads_part_at ((head_closed (by decide)).mpr head) rfl
        (reads_dollar_expansion_closed known head given)
  | tick head given =>
      exact reads_part_at ((head_closed (by decide)).mpr head) rfl
        (reads_backquote_closed (ne_nil_of_head head) given)

theorem reads_parts_closed {parts : List Node} (known : Known c)
    (stops : (wordPart braced).Rejects d → (wordPart braced).Rejects (closed d))
    (items : Items (reading grammar) (wordPart braced) c parts d) :
    Items (reading grammar) (wordPart braced) (closed c) (parts.map Node.shifted) (closed d) := by
  refine (items_closed (P := fun _ => True) ?_ stops trivial items).1
  intro e part f suffix read _
  exact ⟨reads_part_closed (known.behind suffix) read, trivial⟩

theorem word_carried (known : Known c) : Carried .word c := by
  intro node d read free
  obtain ⟨parts, e, items, nonempty, rfl, rfl⟩ := word_form ((reads_call .word c d node).mp read)
  -- A word that stops in front of a part cut short takes no blanks.
  have parted : ¬ Stuck e := by
    intro stuck
    rw [past_blanks_of_stuck stuck] at free
    exact free stuck
  have behind := uncommented_behind known.uncommented (reads_forward ((gives_many _ _ _ _).mpr items))
  have closedItems := reads_parts_closed known (rejects_part_closed parted) items
  rw [shifted_of_nodes]
  apply (reads_call .word _ _ _).mpr
  refine reads_bind (reads_many closedItems) ?_
  obtain ⟨first, others, rfl⟩ := List.exists_cons_of_ne_nil nonempty
  exact reads_bind (reads_blanks_closed behind ((gives_blanks _ _ _).mpr rfl)) (reads_pure _ _)

theorem rejects_part_at_brace (brace : c.rest.head? = some '\x7d') : (wordPart true).Rejects c := by
  obtain ⟨rest, here⟩ := List.head?_eq_some_iff.mp brace
  have none : c.rest.takeWhile (fun ch => !isWordBreak true ch) = [] := by
    rw [here]
    rfl
  rw [wordPart, Rejects, fails_look_bind, brace]
  simp [unquotedLiteral, none]

theorem operand_carried (known : Known c) : Carried .operand c := by
  intro node d read brace
  obtain ⟨parts, items, rfl⟩ := operand_form ((reads_call .operand c d node).mp read)
  have stops : (wordPart true).Rejects (closed d) :=
    rejects_part_at_brace ((head_closed (by decide)).mpr brace)
  rw [shifted_of_nodes]
  apply (reads_call .operand _ _ _).mpr
  exact reads_bind (reads_many (reads_parts_closed known (fun _ => stops) items)) (reads_pure _ _)

end Parts

end ShellLine.Closure
