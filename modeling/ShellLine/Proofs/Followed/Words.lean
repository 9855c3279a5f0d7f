import ShellLine.Proofs.Followed.Quotes

set_option autoImplicit false

namespace ShellLine.Followed

open ShellLine.Parser Grammar Closure

variable {T : Tails} {c d : Cursor} {node : Node}

section Commands

theorem carry_closing_paren {kind : Kind} {commands : List Node} :
    T.Carry (fun d => T.Ends true d ∧ nextCommand.Rejects (T.there d)) (fun _ => True)
      (do lineBreak; literal ")"; return Node.ofNodes kind commands)
      (do lineBreak; literal ")"; return Node.ofNodes kind (commands.map T.node)) T.node c := by
  have closing : ∀ e, T.Carry (T.Open true) (fun _ => True) (do literal ")"; return Node.ofNodes kind commands)
      (do literal ")"; return Node.ofNodes kind (commands.map T.node)) T.node e := by
    intro e
    have carry : T.Carry (fun _ => True) (fun _ => True) (do literal ")"; return Node.ofNodes kind commands)
        (do literal ")"; return Node.ofNodes kind (commands.map T.node)) T.node e :=
      carry_then (carry_literal (by decide)) fun _ _ _ => carry_pure (node_of_nodes _ _)
    refine carry.start fun node f read inside _ _ => ?_
    have paren := read
    obtain ⟨_, _, here, -⟩ := (gives_bind _ _ _ _ _).mp paren
    have head := head_of_start ((gives_literal _ _ _ _).mp here).1 (by decide)
    exact open_of_moves (not_stuck_of_head head (by decide))
      (first_moves (moves_of_advances (literal_advances (by decide)))) read inside
  have carry : T.Carry (T.Open true) (fun _ => True) (do lineBreak; literal ")"; return Node.ofNodes kind commands)
      (do lineBreak; literal ")"; return Node.ofNodes kind (commands.map T.node)) T.node c :=
    carry_then carry_line_break fun _ e _ => closing e
  refine carry.start fun node f read inside _ solid => ?_
  obtain ⟨_, e, broken, later⟩ := (gives_bind _ _ _ _ _).mp read
  obtain ⟨_, _, here, -⟩ := (gives_bind _ _ _ _ _).mp later
  obtain rfl := (gives_line_break _ _ _).mp broken
  have paren := ((gives_literal _ _ _ _).mp here).1
  have atParen := inside_before inside (reads_forward later)
  have opened := (closing c.pastBreak node f later inside trivial).2
  have halts : Halts c.pastBreak.rest := halts_of_head (head_of_start paren (by decide)) (by decide)
  refine ⟨⟨?_, solid.2⟩, rejects_next_command_there halts atParen opened⟩
  by_cases newline : c.rest.head? = some '\n'
  · exact ends_chain_at_break newline
  · rw [Cursor.pastBreak, if_neg newline] at paren
    exact (ends_list_of_paren paren : EndsList true _).chain

theorem carry_command_expansion (ahead : Ahead T c) (long : 2 ≤ c.rest.length) :
    T.Carry (fun _ => True) (fun _ => True) commandExpansion commandExpansion T.node c := by
  refine carry_nested (carry_atomic (carry_bind (S := fun d => ¬ Stuck d) (carry_skip long) (fun _ _ => trivial)
    fun _ d skipped => ?_))
  obtain rfl := (gives_skip _ _ _ _).mp skipped
  refine carry_bind (S := T.Open true) carry_blanks (fun _ here => here.1) fun _ e blank => ?_
  refine carry_then (S := T.Open true) carry_line_break fun _ f broken => ?_
  obtain ⟨behind, moved⟩ := expansion_ahead long ((reads_forward broken).trans (reads_forward blank))
  refine carry_then (carry_complete_commands (ahead.rule moved behind .andOr)) fun _ _ _ => ?_
  exact carry_closing_paren

end Commands

section Arithmetic

theorem miss_part {braced : Bool} :
    T.Miss (fun c => c.rest.head?.all isDelimiter = true) (wordPart braced) (wordPart braced) c :=
  fun _ inside delimited => rejects_part_at_delimiter (((head_all_is_local (by decide)).there inside).mpr delimited)

theorem miss_word : T.Miss (fun c => ¬ Stuck c) (call .word) (call .word) c := by
  intro rejected inside free
  have noPart := rejects_part_of_word rejected
  refine (rejects_call .word _).mpr (rejects_word ?_)
  exact miss_part noPart inside (delimited_of_rejects_part noPart free)

theorem carry_free_word (word : CarriesOver T .word c) :
    T.Carry (fun c => ¬ Stuck c) (fun d => ¬ Stuck d) (call .word) (call .word) T.node c :=
  word.start fun _ _ read _ _ _ => not_stuck_of_word ((reads_call _ _ _ _).mp read)

theorem carry_words (words : ∀ e, e.rest <:+ c.rest → CarriesOver T .word e) :
    T.Carry (fun c => ¬ Stuck c) (fun d => ¬ Stuck d) (many (call .word)) (many (call .word)) (List.map T.node) c :=
  carry_many call_word_moves (fun e suffix => carry_free_word (words e suffix)) (fun _ _ => miss_word)
    (fun _ free => free)

abbrev arithmeticWords : Parser (List Node) := do
  skip 3
  blanks
  many (call .word)

theorem reads_arithmetic_iff : arithmeticExpansion.Reads c node d ↔ ∃ words e, arithmeticWords.Reads c words e ∧
    (literal "))").Reads e () d ∧ node = .ofNodes .arithmeticExpansion words := by
  rw [arithmeticExpansion, Reads, gives_nested, gives_atomic]
  constructor
  · intro read
    obtain ⟨_, e, skipped, read⟩ := (gives_bind _ _ _ _ _).mp read
    obtain ⟨_, f, blank, read⟩ := (gives_bind _ _ _ _ _).mp read
    obtain ⟨words, g, listed, read⟩ := (gives_bind _ _ _ _ _).mp read
    obtain ⟨_, h, closing, made⟩ := (gives_bind _ _ _ _ _).mp read
    obtain ⟨rfl, rfl⟩ := (gives_pure _ _ _ _).mp made
    exact ⟨words, g, reads_bind skipped (reads_bind blank listed), closing, rfl⟩
  · rintro ⟨words, g, read, closing, rfl⟩
    obtain ⟨_, e, skipped, read⟩ := (gives_bind _ _ _ _ _).mp read
    obtain ⟨_, f, blank, listed⟩ := (gives_bind _ _ _ _ _).mp read
    exact reads_bind skipped (reads_bind blank (reads_bind listed (reads_bind closing (reads_pure _ _))))

theorem carry_arithmetic_words (long : 3 ≤ c.rest.length)
    (words : ∀ e, e.rest <:+ (c.advance 3).pastBlanks.rest → CarriesOver T .word e) :
    T.Carry (fun _ => True) (fun d => ¬ Stuck d) arithmeticWords arithmeticWords (List.map T.node) c := by
  refine carry_bind (S := fun d => ¬ Stuck d) (carry_skip long) (fun _ _ => trivial) fun _ d skipped => ?_
  obtain rfl := (gives_skip _ _ _ _).mp skipped
  refine carry_then carry_blanks fun _ e blank => ?_
  obtain rfl := (gives_blanks _ _ _).mp blank
  exact carry_words words

theorem carry_arithmetic_expansion (long : 3 ≤ c.rest.length)
    (words : ∀ e, e.rest <:+ (c.advance 3).pastBlanks.rest → CarriesOver T .word e) :
    T.Carry (fun _ => True) (fun _ => True) arithmeticExpansion arithmeticExpansion T.node c := by
  intro node d read inside _
  obtain ⟨items, e, front, closing, rfl⟩ := reads_arithmetic_iff.mp read
  have head : e.rest.head? = some ')' := head_of_start ((gives_literal _ _ _ _).mp closing).1 (by decide)
  have closingThere := (carry_literal (by decide) () d closing inside trivial).1
  have frontThere := (carry_arithmetic_words long words items e front
    (inside_before inside (reads_forward closing)) (not_stuck_of_head head (by decide))).1
  exact ⟨reads_arithmetic_iff.mpr ⟨_, _, frontThere, closingThere, node_of_nodes _ _⟩, trivial⟩

theorem Ahead.words_back {e : Cursor} (ahead : Ahead T c) (inside : T.Inside c) (behind : e.rest <:+ (T.there c).rest)
    (moved : e.left < (T.there c).left) : CarriesOver T.swap .word e := by
  intro word f read atEnd
  have place := inside_before atEnd (reads_forward read)
  have back : T.there (T.swap.there e) = e := there_and_back (T := T.swap) place
  have within : T.Inside (T.swap.there e) := inside_there (T := T.swap) place
  have suffix := suffix_there (T := T.swap) place behind
  have less := (left_there_lt (T := T.swap) (inside_there inside) place).mpr moved
  rw [there_and_back inside] at suffix less
  have carries := ahead.back _ suffix less within
  rw [back] at carries
  exact carries word f read atEnd

theorem rejects_arithmetic_there (ahead : Ahead T c) (double : ['$', '(', '('] <+: c.rest)
    (rejected : arithmeticExpansion.Rejects c) (read : commandExpansion.Reads c node d) (inside : T.Inside d) :
    arithmeticExpansion.Rejects (T.there c) := by
  rcases gives_or_fails (reading grammar) arithmeticExpansion (T.there c) with ⟨other, e, given⟩ | failed
  · have atStart := inside_before inside (reads_forward read)
    have ended : T.swap.Inside e := T.sheltered c d e node other ahead.within double read inside given
    have doubleThere : ['$', '(', '('] <+: (T.there c).rest :=
      ((prefix_is_local (by decide)).there atStart).mpr double
    obtain ⟨rest, here⟩ := doubleThere
    obtain ⟨long, moved, behind⟩ := arithmetic_start here.symm
    have words : ∀ f, f.rest <:+ ((T.there c).advance 3).pastBlanks.rest → CarriesOver T.swap .word f :=
      fun f suffix => ahead.words_back atStart (suffix.trans behind)
        (Nat.lt_of_le_of_lt (Cursor.left_le_of_suffix _ _ suffix) moved)
    have back := (carry_arithmetic_expansion (T := T.swap) long words other e given ended trivial).1
    rw [there_and_back atStart] at back
    exact absurd rejected (not_fails_of_gives back)
  · exact failed

end Arithmetic

section Dollars

theorem carry_dollar_expansion (ahead : Ahead T c) (head : c.rest.head? = some '$') :
    T.Carry (fun _ => True) (fun _ => True) dollarExpansion dollarExpansion T.node c := by
  intro node d read inside _
  refine ⟨?_, trivial⟩
  have atStart := inside_before inside (reads_forward read)
  have same : ∀ {part : List Char}, '\n' ∉ part → (part <+: (T.there c).rest ↔ part <+: c.rest) :=
    fun noNewline => (prefix_is_local noNewline).there atStart
  have long : ∀ {part : List Char}, part <+: c.rest → part.length ≤ c.rest.length := fun here => here.length_le
  rw [dollar_expansion_at] at read ⊢
  simp only [same (by decide : '\n' ∉ ['$', '(', '(']), same (by decide : '\n' ∉ ['$', '(']),
    same (by decide : '\n' ∉ ['$', '\x7b'])]
  split
  · rename_i double
    rw [if_pos double] at read
    rcases (gives_or_else _ _ _ _ _).mp read with arithmetic | ⟨noArithmetic, command⟩
    · obtain ⟨rest, here⟩ := double
      obtain ⟨within, moved, behind⟩ := arithmetic_start here.symm
      exact reads_first (carry_arithmetic_expansion within (ahead.rule moved behind .word) node d arithmetic
        inside trivial).1
    · refine reads_second (rejects_arithmetic_there ahead double noArithmetic command inside) ?_
      exact (carry_command_expansion ahead (Nat.le_of_succ_le (long double)) node d command inside trivial).1
  · rename_i noDouble
    rw [if_neg noDouble] at read
    split
    · rename_i single
      rw [if_pos single] at read
      exact (carry_command_expansion ahead (long single) node d read inside trivial).1
    · rename_i noSingle
      rw [if_neg noSingle] at read
      split
      · rename_i brace
        rw [if_pos brace] at read
        exact (carry_braced_expansion ahead (long brace) node d read inside trivial).1
      · rename_i noBrace
        rw [if_neg noBrace] at read
        exact (carry_plain_parameter (ne_nil_of_head head) node d read inside trivial).1

end Dollars

section Parts

variable {braced : Bool}

theorem carry_part (ahead : Ahead T c) :
    T.Carry (fun _ => True) (fun _ => True) (wordPart braced) (wordPart braced) T.node c := by
  intro node d read inside _
  refine ⟨?_, trivial⟩
  have start : ∀ {ch : Char}, ch ≠ '\n' → c.rest.head? = some ch → (T.there c).rest.head? = some ch :=
    fun other => ((head_is_local other).there (inside_before inside (reads_forward read))).mpr
  cases word_part_form read with
  | @singleQuote _ chars single here =>
      have whole := passed_there ('\'' :: chars ++ ['\'']) inside (by rw [here]; simp)
      have passed := @reads_single braced chars single (T.there d).rest
      rw [node_leaf]
      rwa [← Cursor.eq_start (whole.trans (by simp)), ← Cursor.eq_start rfl] at passed
  | @bareEscape _ ch here =>
      have whole : (T.there c).rest = '\\' :: ch :: (T.there d).rest := passed_there ['\\', ch] inside here
      have passed := @reads_bare_escape braced ch (T.there d).rest
      rw [node_leaf]
      rwa [← Cursor.eq_start whole, ← Cursor.eq_start rfl] at passed
  | @unquoted _ chars nonempty plain ends here =>
      have stops : (T.there d).rest.head?.all (isWordBreak braced) = true := by
        refine ((head_all_is_local (by cases braced <;> rfl)).there inside).mpr ?_
        cases head : d.rest.head? with
        | none => rfl
        | some ch => exact ends ch head
      have passed := reads_plain nonempty plain fun ch head => by rwa [head] at stops
      rw [node_leaf]
      rwa [← Cursor.eq_start (passed_there chars inside here), ← Cursor.eq_start rfl] at passed
  | @doubleQuote _ parts head turns =>
      refine reads_part_at (start (by decide) head) rfl ?_
      refine (carry_double_quote (ne_nil_of_head head) ?_ _ d (reads_double_quote turns) inside trivial).1
      exact fun e suffix => carry_dollar_expansion (ahead.behind (suffix.trans (c.advance_suffix 1)))
  | dollar head given =>
      exact reads_part_at (start (by decide) head) rfl (carry_dollar_expansion ahead head _ d given inside trivial).1
  | tick head given =>
      exact reads_part_at (start (by decide) head) rfl
        (carry_backquote (ne_nil_of_head head) _ d given inside trivial).1

theorem part_moves : (wordPart braced).Moves := fun _ _ _ read => word_part_moves read

theorem carry_parts {Q : Cursor → Prop} (ahead : Ahead T c)
    (stops : ∀ d, T.Miss Q (wordPart braced) (wordPart braced) d) :
    T.Carry (fun _ => True) Q (wordParts braced) (wordParts braced) (List.map T.node) c :=
  carry_many part_moves (fun _ suffix => carry_part (ahead.behind suffix)) (fun d _ => stops d) (fun _ _ => trivial)

theorem carry_call {P Q : Cursor → Prop} {rule : Rule} (inner : T.Carry P Q (grammar rule) (grammar rule) T.node c) :
    T.Carry P Q (call rule) (call rule) T.node c := by
  intro node d read inside ends
  rw [reads_call] at read ⊢
  exact inner node d read inside ends

theorem miss_free_part : T.Miss (fun c => ¬ Stuck c) (wordPart false) (wordPart false) c :=
  fun rejected inside free => miss_part rejected inside (delimited_of_rejects_part rejected free)

theorem word_carries_over (ahead : Ahead T c) : CarriesOver T .word c := by
  refine carry_call (carry_then (S := fun d => ¬ Stuck d) (carry_parts ahead fun _ => miss_free_part)
    fun parts d _ => ?_)
  match parts with
  | [] => exact carry_fail
  | first :: others =>
      exact carry_then carry_blanks fun _ _ _ => carry_pure (node_of_nodes _ _)

theorem operand_carries_over (ahead : Ahead T c) : CarriesOver T .operand c := by
  have stops : ∀ d, T.Miss (fun d => d.rest.head? = some '\x7d') (wordPart true) (wordPart true) d :=
    fun d _ inside brace => rejects_part_at_brace (((head_is_local (by decide)).there inside).mpr brace)
  exact carry_call (carry_then (carry_parts ahead stops) fun _ _ _ =>
    carry_pure (by simp))

end Parts

end ShellLine.Followed
