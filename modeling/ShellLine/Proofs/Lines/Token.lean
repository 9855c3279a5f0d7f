import ShellLine.Proofs.Grammar.Progress
import ShellLine.Proofs.Lines.Lockstep
import ShellLine.Proofs.Reading.Level

set_option autoImplicit false

namespace ShellLine.Lines

open ShellLine.Parser Grammar

section Places

variable {p q : Position} {fresh behind : Bool} {role : Role} {c d e f : Cursor}

theorem along_behind (along : Along p fresh c d) (suffix : e.rest <:+ c.rest)
    (rest : f.rest = joinLines .none e.rest) (uncut : Uncut q behind e.rest) : Along q behind e f where
  rest := rest
  uncut := uncut
  unexpanded := unexpanded_of_suffix along.unexpanded suffix
  uncommented member := along.uncommented (suffix.subset member)

theorem along_again (along : Along p fresh c d) (uncut : Uncut q behind c.rest) : Along q behind c d :=
  along_behind along (List.suffix_refl _) along.rest uncut

theorem along_past_text {text : List Char} (along : Along p fresh c d)
    (bare : ∀ ch ∈ text, isQuote ch = false) (here : text <+: c.rest)
    (uncut : Uncut q behind (c.rest.drop text.length)) :
    text <+: d.rest ∧ Along q behind (c.advance text.length) (d.advance text.length) := by
  obtain ⟨rest, whole⟩ := here
  have joined : d.rest = text ++ joinLines .none rest := by
    rw [along.rest, ← whole, join_bare_append bare]
  have restC := c.rest_advance_append _ _ whole.symm
  have restD := d.rest_advance_append _ _ joined
  refine ⟨⟨_, joined.symm⟩, along_behind along (c.advance_suffix _) (by rw [restC, restD]) ?_⟩
  rwa [c.rest_advance]

-- A run at the start of both texts, if joining does not make it longer.
theorem take_while_along {accepts : Char → Bool} (along : Along p fresh c d)
    (bare : ∀ ch, accepts ch = true → isQuote ch = false)
    (stops : ∀ ch, (joinLines .none (c.rest.dropWhile accepts)).head? = some ch → accepts ch = false) :
    d.rest.takeWhile accepts = c.rest.takeWhile accepts := by
  have accepted : ∀ ch ∈ c.rest.takeWhile accepts, accepts ch = true := fun ch =>
    List.all_eq_true.mp List.all_takeWhile ch
  rw [along.rest]
  conv_lhs => rw [← List.takeWhile_append_dropWhile (p := accepts) (l := c.rest)]
  rw [join_bare_append fun ch member => bare ch (accepted ch member), take_while_stops accepted stops]

theorem along_past_run {accepts : Char → Bool} (along : Along p true c d)
    (plain : ∀ ch, accepts ch = true → isQuote ch = false ∧ isDelimiter ch = false)
    (nonempty : c.rest.takeWhile accepts ≠ []) :
    Along (p.behindWord c.rest) false (c.advance (c.rest.takeWhile accepts).length)
      (d.advance (c.rest.takeWhile accepts).length) := by
  have accepted : ∀ ch ∈ c.rest.takeWhile accepts, isQuote ch = false ∧ isDelimiter ch = false :=
    fun ch member => plain ch (List.all_eq_true.mp List.all_takeWhile ch member)
  have whole : c.rest = c.rest.takeWhile accepts ++ c.rest.dropWhile accepts :=
    List.takeWhile_append_dropWhile.symm
  have uncut := along.uncut
  rw [whole] at uncut
  have past := uncut_past_text nonempty accepted uncut
  rw [← whole] at past
  refine (along_past_text along (fun ch member => (accepted ch member).1) (List.takeWhile_prefix accepts) ?_).2
  rwa [← c.rest_advance, rest_advance_take_while]

theorem along_behind_layout (lines : Bool) (settled : lines = true → p = .start) (along : Along p fresh c d) :
    layoutLength false false (c.advance (layoutLength lines false c.rest)).rest = 0 ∧
      (Along p true (c.advance (layoutLength lines false c.rest))
          (d.advance (layoutLength lines false d.rest)) ∨
        Along p fresh (c.advance (layoutLength lines false c.rest))
            (d.advance (layoutLength lines false d.rest)) ∧
          joinLines .none (c.advance (layoutLength lines false c.rest)).rest = joinLines .none c.rest) := by
  have rest := join_behind_layout lines along.uncommented
  rw [← along.rest, ← c.rest_advance, ← d.rest_advance] at rest
  have suffix := c.advance_suffix (layoutLength lines false c.rest)
  have clean : '#' ∉ (c.advance (layoutLength lines false c.rest)).rest := fun member =>
    along.uncommented (suffix.subset member)
  constructor
  · have idle : layoutLength lines false (c.advance (layoutLength lines false c.rest)).rest = 0 := by
      rw [c.rest_advance]
      exact layout_length_drop lines false c.rest
    obtain ⟨noPair, noBlank⟩ := (idle_iff clean).mp idle
    refine (idle_iff clean).mpr ⟨noPair, fun ch head => ?_⟩
    have blank := noBlank ch head
    simp_all [isBlank]
  · rcases uncut_behind_layout settled along.uncommented along.uncut with free | ⟨uncut, same⟩
    · rw [← c.rest_advance] at free
      exact Or.inl (along_behind along suffix rest free)
    · rw [← c.rest_advance] at uncut same
      exact Or.inr ⟨along_behind along suffix rest uncut, same⟩

theorem along_behind_blanks (along : Along p fresh c d) :
    layoutLength false false c.pastBlanks.rest = 0 ∧
      (Along p true c.pastBlanks d.pastBlanks ∨
        Along p fresh c.pastBlanks d.pastBlanks ∧
          joinLines .none c.pastBlanks.rest = joinLines .none c.rest) :=
  along_behind_layout false (fun crossed => by cases crossed) along

theorem abreast_past_blanks (along : Along ⟨role, false⟩ true c d) :
    Abreast role c.pastBlanks d.pastBlanks := by
  obtain ⟨idle, free | ⟨free, -⟩⟩ := along_behind_blanks along
  · exact ⟨free, idle⟩
  · exact ⟨free, idle⟩

theorem abreast_past_lines (along : Along .start true c d) : Abreast .command c.pastLines d.pastLines := by
  obtain ⟨idle, free | ⟨free, -⟩⟩ := along_behind_layout true (fun _ => rfl) along
  · exact ⟨free, idle⟩
  · exact ⟨free, idle⟩

end Places

section Abreast

variable {role : Role} {c d : Cursor}

theorem abreast_no_pair (here : Abreast role c d) : ¬ ['\\', '\n'] <+: c.rest :=
  ((idle_iff here.uncommented).mp here.idle).1

theorem abreast_head (here : Abreast role c d) : d.rest.head? = c.rest.head? := by
  rw [here.rest, head_join (abreast_no_pair here)]

theorem abreast_asks (here : Abreast role c d) :
    (Position.mk role false).asks (opening d.rest) = (Position.mk role false).asks (opening c.rest) := by
  rw [here.rest]
  cases start : c.rest with
  | nil => rfl
  | cons ch others =>
      cases quoting : isQuote ch with
      | false => exact uncut_here quoting (start ▸ here.uncut)
      | true =>
          obtain ⟨more, joined⟩ := List.head?_eq_some_iff.mp
            ((head_join (abreast_no_pair here)).trans (by rw [start]; rfl))
          rw [← start, joined, start, opening_quoting quoting, opening_quoting quoting]

theorem asks_operators {p : Position} {o o' : Opening} (same : p.asks o = p.asks o') :
    o.operators = o'.operators := by
  have every : ∀ o, (p.asks o).operators = o.operators := by
    intro o
    rw [Position.asks]
    split <;> rfl
  rw [← every, same, every]

theorem abreast_operators (here : Abreast role c d) :
    (opening d.rest).operators = (opening c.rest).operators :=
  asks_operators (abreast_asks here)

theorem abreast_describes (here : Abreast role c d) :
    (opening d.rest).describes = (opening c.rest).describes := by
  have every : ∀ o, ((Position.mk role false).asks o).describes = o.describes := by
    intro o
    rw [Position.asks]
    split
    · rfl
    · rfl
  rw [← every, abreast_asks here, every]

theorem abreast_opening (asked : role ≠ .argument) (here : Abreast role c d) :
    opening d.rest = opening c.rest := by
  have every : ∀ o, (Position.mk role false).asks o = o := fun o => if_neg (by simpa using asked)
  rw [← every (opening d.rest), abreast_asks here, every]

theorem abreast_argument (here : Abreast role c d) : Abreast .argument c d :=
  ⟨along_again here.toAlong (uncut_within (argument_within role) here.uncut), here.idle⟩

theorem abreast_at_separator {ch : Char} (separates : ch ∈ separators) (head : c.rest.head? = some ch)
    (here : Abreast role c d) : Abreast .command c d := by
  obtain ⟨rest, whole⟩ := List.head?_eq_some_iff.mp head
  refine ⟨along_again here.toAlong ?_, here.idle⟩
  rw [whole]
  exact uncut_at_separator separates (whole ▸ here.uncut)

theorem abreast_past_operator {text : List Char} (nonempty : text ≠ [])
    (separate : ∀ ch ∈ text, ch ∈ separators) (here : Abreast role c d) (stands : text <+: c.rest) :
    Abreast .command (c.advance text.length).pastBlanks (d.advance text.length).pastBlanks := by
  refine abreast_past_blanks (along_past_text here.toAlong (fun ch member =>
    bare_of_delimiter (delimiter_of_separator (separate ch member))) stands ?_).2
  obtain ⟨rest, whole⟩ := stands
  have uncut := here.uncut
  rw [← whole] at uncut
  rw [← whole, List.drop_left]
  clear whole here
  induction text generalizing role with
  | nil => exact absurd rfl nonempty
  | cons ch others ih =>
      obtain ⟨first, later⟩ := List.forall_mem_cons.mp separate
      have behind := uncut_behind_separator first uncut
      cases others with
      | nil => exact behind
      | cons next more => exact ih (List.cons_ne_nil _ _) later behind

end Abreast

section Twin

variable {role : Role} {c d : Cursor}

theorem Twin.argument (twin : Twin c d) : Abreast .argument c d := by
  cases twin with
  | free _ here => exact abreast_argument here
  | halted here => exact here

theorem twin_of_command (here : Abreast .command c d) : Twin c d := .free (by decide) here

theorem twin_head (twin : Twin c d) : d.rest.head? = c.rest.head? := abreast_head twin.argument

theorem twin_opening (twin : Twin c d) : opening d.rest = opening c.rest := by
  cases twin with
  | free asked here => exact abreast_opening asked here
  | halted here sign =>
      have delimiter : ∀ ch, c.rest.head? = some ch → isDelimiter ch = true := by
        intro ch head
        rcases sign with sign | sign <;> cases head.symm.trans sign <;> rfl
      rw [here.rest]
      cases whole : c.rest with
      | nil => rfl
      | cons ch rest => exact opening_at_delimiter (delimiter ch (by rw [whole]; rfl)) (whole ▸ here.uncut)

end Twin

section Level

variable {calls : Rule → Cursor → Reading Node} (c : Cursor)

@[simp] theorem level_blanks : blanks.StaysLevel calls c := by simp [blanks]

@[simp] theorem level_newlines : newlines.StaysLevel calls c := by
  by_cases newline : c.rest.head? = some '\n' <;> simp [newlines, newline]

@[simp] theorem level_line_break : lineBreak.StaysLevel calls c := by simp [lineBreak]

@[simp] theorem level_literal (text : String) : (literal text).StaysLevel calls c := by
  by_cases here : text.toList <+: c.rest <;> simp [literal, here]

@[simp] theorem level_operator (text : String) : (operator text).StaysLevel calls c := by
  simp [operator]

@[simp] theorem level_lone_operator (ch : Char) : (loneOperator ch).StaysLevel calls c := by
  rw [loneOperator, level_look_bind]
  cases c.rest with
  | nil => simp
  | cons first others => by_cases alone : first = ch ∧ others.head? ≠ some ch <;> simp [alone]

@[simp] theorem level_keyword (word : String) : (keyword word).StaysLevel calls c := by
  by_cases here : startsReserved word.toList c.rest = true <;> simp [keyword, here]

@[simp] theorem level_name : name.StaysLevel calls c := by
  by_cases starts : c.rest.head?.any startsName = true <;> simp [name, starts]

@[simp] theorem level_literal_among (operators : List (String × Kind)) :
    (literalAmong operators).StaysLevel calls c := by
  induction operators with
  | nil => trivial
  | cons first others ih => simp [literalAmong, ih]

end Level

section Tokens

variable {bound : Nat} {role : Role} {c d : Cursor}

theorem agrees_newlines (here : Abreast role c d) : Agrees bound Twin Eq newlines newlines c d := by
  by_cases newline : c.rest.head? = some '\n'
  · have other := abreast_head here ▸ newline
    have start := abreast_at_separator (by decide) newline here
    exact agrees_of_reads ((gives_newlines _ _ ()).mpr ⟨newline, rfl⟩)
      ((gives_newlines _ _ ()).mpr ⟨other, rfl⟩) (by simp) rfl
      (twin_of_command (abreast_past_lines start.toAlong))
  · have other := abreast_head here ▸ newline
    exact agrees_of_rejects ((fails_newlines _).mpr newline) ((fails_newlines _).mpr other) (by simp)

theorem agrees_line_break (twin : Twin c d) : Agrees bound Twin Eq lineBreak lineBreak c d :=
  agrees_optional twin (agrees_newlines twin.argument)

theorem lone_start_iff {ch : Char} {text : List Char} : [ch] <+: text ↔ text.head? = some ch := by
  cases text with
  | nil => simp
  | cons first others => simp [eq_comm]

theorem lone_abreast (ch : Char) (here : Abreast role c d) : [ch] <+: d.rest ↔ [ch] <+: c.rest := by
  rw [lone_start_iff, lone_start_iff, abreast_head here]

theorem long_operator_abreast {text : String} (long : text ∈ longOperators) (here : Abreast role c d) :
    text.toList <+: d.rest ↔ text.toList <+: c.rest := by
  have same : text ∈ (opening d.rest).operators ↔ text ∈ (opening c.rest).operators := by
    rw [abreast_operators here]
  simpa [opening, long] using same

theorem agrees_operator {text : String} (known : text ∈ ["(", ")", "&&", "||", ";;"])
    (here : Abreast role c d) : Agrees bound Twin Eq (operator text) (operator text) c d := by
  have same : text.toList <+: d.rest ↔ text.toList <+: c.rest := by
    simp only [List.mem_cons, List.not_mem_nil, or_false] at known
    rcases known with rfl | rfl | rfl | rfl | rfl
    · exact lone_abreast '(' here
    · exact lone_abreast ')' here
    · exact long_operator_abreast (by decide) here
    · exact long_operator_abreast (by decide) here
    · exact long_operator_abreast (by decide) here
  have separate : ∀ text ∈ ["(", ")", "&&", "||", ";;"],
      text.toList ≠ [] ∧ ∀ ch ∈ text.toList, ch ∈ separators := by decide
  by_cases stands : text.toList <+: c.rest
  · have behind := abreast_past_operator (separate text known).1 (separate text known).2 here stands
    rw [String.length_toList] at behind
    exact agrees_of_reads ((gives_operator text c _ ()).mpr ⟨stands, rfl⟩)
      ((gives_operator text d _ ()).mpr ⟨same.mpr stands, rfl⟩) (level_operator d text) rfl
      (twin_of_command behind)
  · exact agrees_of_rejects ((fails_operator text c).mpr stands)
      ((fails_operator text d).mpr fun other => stands (same.mp other)) (level_operator d text)

theorem stands_alone_iff {ch : Char} {text : List Char} :
    standsAlone ch text ↔ [ch] <+: text ∧ ¬ [ch, ch] <+: text := by
  rw [standsAlone, lone_start_iff]
  refine and_congr_right fun head => ?_
  obtain ⟨others, rfl⟩ := List.head?_eq_some_iff.mp head
  cases others with
  | nil => simp
  | cons next more => simp [eq_comm]

theorem agrees_lone_operator {ch : Char} (known : ch ∈ ['&', '|', ';']) (here : Abreast role c d) :
    Agrees bound Twin Eq (loneOperator ch) (loneOperator ch) c d := by
  have double : [ch, ch] <+: d.rest ↔ [ch, ch] <+: c.rest := by
    simp only [List.mem_cons, List.not_mem_nil, or_false] at known
    rcases known with rfl | rfl | rfl
    · exact long_operator_abreast (show "&&" ∈ longOperators by decide) here
    · exact long_operator_abreast (show "||" ∈ longOperators by decide) here
    · exact long_operator_abreast (show ";;" ∈ longOperators by decide) here
  have same : standsAlone ch d.rest ↔ standsAlone ch c.rest := by
    rw [stands_alone_iff, stands_alone_iff, lone_abreast ch here, double]
  have separates : ∀ ch ∈ ['&', '|', ';'], ch ∈ separators := by decide
  by_cases stands : standsAlone ch c.rest
  · have behind := abreast_past_operator (List.cons_ne_nil ch []) (by simp [separates ch known]) here
      (stands_alone_iff.mp stands).1
    exact agrees_of_reads ((gives_lone_operator ch c _ ()).mpr ⟨stands, rfl⟩)
      ((gives_lone_operator ch d _ ()).mpr ⟨same.mpr stands, rfl⟩) (level_lone_operator d ch) rfl
      (twin_of_command behind)
  · exact agrees_of_rejects ((fails_lone_operator ch c).mpr stands)
      ((fails_lone_operator ch d).mpr fun other => stands (same.mp other)) (level_lone_operator d ch)

theorem starts_reserved_twin {word : String} (reserved : word ∈ reservedWords) (twin : Twin c d) :
    startsReserved word.toList d.rest = startsReserved word.toList c.rest := by
  have same : word ∈ (opening d.rest).words ↔ word ∈ (opening c.rest).words := by
    rw [twin_opening twin]
  rw [Bool.eq_iff_iff]
  simpa [opening, reserved] using same

theorem reserved_ahead_twin (twin : Twin c d) : reservedAhead d.rest = reservedAhead c.rest := by
  rw [Bool.eq_iff_iff, reservedAhead, reservedAhead, List.any_eq_true, List.any_eq_true]
  refine exists_congr fun word => and_congr_right fun reserved => ?_
  rw [starts_reserved_twin reserved twin]

-- Behind a word that may stand in front of a command, or in the head of a loop or choice, a command
-- may follow.
theorem behind_leading_word (asked : role ≠ .argument) (place : List Char)
    (leads : role = .head ∨ (opening place).words ≠ [] ∨ (opening place).assigns = true ∨
      (opening place).describes = true) :
    ∃ next, next ≠ .argument ∧ (Position.mk role false).behindWord place = ⟨next, false⟩ := by
  rw [Position.behindWord, if_neg Bool.false_ne_true, if_neg asked]
  split
  · exact ⟨.head, by decide, rfl⟩
  · split
    · exact ⟨.command, by decide, rfl⟩
    · rename_i noWord
      refine ⟨role, asked, if_pos ?_⟩
      exact leads.imp_right fun others => others.resolve_left noWord

theorem behind_head_word (place : List Char) :
    ∃ next, next ≠ .argument ∧ (Position.mk .head false).behindWord place = ⟨next, false⟩ :=
  behind_leading_word (by decide) place (Or.inl rfl)

theorem reserved_word_plain {word : String} (reserved : word ∈ reservedWords) :
    word.toList ≠ [] ∧ ∀ ch ∈ word.toList, isQuote ch = false ∧ isDelimiter ch = false := by
  have every : ∀ word ∈ reservedWords,
      word.toList ≠ [] ∧ ∀ ch ∈ word.toList, isQuote ch = false ∧ isDelimiter ch = false := by decide
  exact every word reserved

theorem abreast_past_keyword {word : String} (reserved : word ∈ reservedWords) {next : Role}
    (past : (Position.mk role false).behindWord c.rest = ⟨next, false⟩) (here : Abreast role c d)
    (starts : startsReserved word.toList c.rest = true) :
    Abreast next (c.advance word.length).pastBlanks (d.advance word.length).pastBlanks := by
  obtain ⟨nonempty, plain⟩ := reserved_word_plain reserved
  have stands := starts_of_starts_reserved _ _ starts
  have inside : Uncut ⟨next, false⟩ false (c.rest.drop word.toList.length) := by
    obtain ⟨rest, whole⟩ := stands
    have uncut := here.uncut
    rw [← whole] at uncut
    have behind := uncut_past_text nonempty plain uncut
    rw [whole, past] at behind
    rwa [← whole, List.drop_left]
  obtain ⟨-, behind⟩ := along_past_text here.toAlong (fun ch member => (plain ch member).1) stands inside
  rw [String.length_toList] at behind
  rw [startsReserved, Bool.and_eq_true, String.length_toList, ← c.rest_advance] at starts
  refine abreast_past_blanks (along_again behind ?_)
  cases rest : (c.advance word.length).rest with
  | nil => exact fun _ member => absurd member List.not_mem_nil
  | cons ch others =>
      have delimiter : isDelimiter ch = true := by simpa [rest] using starts.2
      exact uncut_at_delimiter delimiter (rest ▸ behind.uncut)

theorem not_reserved_at_sign {word : String} (reserved : word ∈ reservedWords)
    (sign : c.rest.head? = some '<' ∨ c.rest.head? = some '>') : startsReserved word.toList c.rest = false := by
  have every : ∀ word ∈ reservedWords, word.toList.head?.any (· ≠ '<') = true ∧
      word.toList.head?.any (· ≠ '>') = true := by decide
  rw [startsReserved]
  rcases sign with sign | sign <;> obtain ⟨rest, whole⟩ := List.head?_eq_some_iff.mp sign <;> rw [whole]
  · rw [no_text_here (fun word member => (every word member).1) rest word reserved, Bool.false_and]
  · rw [no_text_here (fun word member => (every word member).2) rest word reserved, Bool.false_and]

theorem keyword_agrees {M : Cursor → Cursor → Prop} {word : String} (reserved : word ∈ reservedWords)
    (twin : Twin c d)
    (behind : ∀ {role}, role ≠ .argument → Abreast role c d → startsReserved word.toList c.rest = true →
      M (c.advance word.length).pastBlanks (d.advance word.length).pastBlanks) :
    Agrees bound M Eq (keyword word) (keyword word) c d := by
  have same := starts_reserved_twin reserved twin
  cases starts : startsReserved word.toList c.rest with
  | true =>
      refine agrees_of_reads ((gives_keyword word c _ ()).mpr ⟨starts, rfl⟩)
        ((gives_keyword word d _ ()).mpr ⟨same.trans starts, rfl⟩) (level_keyword d word) rfl ?_
      cases twin with
      | free asked here => exact behind asked here starts
      | halted _ sign => cases starts.symm.trans (not_reserved_at_sign reserved sign)
  | false =>
      exact agrees_of_rejects ((fails_keyword word c).mpr starts)
        ((fails_keyword word d).mpr (same.trans starts)) (level_keyword d word)

theorem mem_opening_words {word : String} (reserved : word ∈ reservedWords) {text : List Char}
    (starts : startsReserved word.toList text = true) : word ∈ (opening text).words :=
  List.mem_filter.mpr ⟨reserved, starts⟩

theorem agrees_keyword {word : String} (reserved : word ∈ reservedWords) (twin : Twin c d) :
    Agrees bound Twin Eq (keyword word) (keyword word) c d := by
  refine keyword_agrees reserved twin fun asked here starts => ?_
  obtain ⟨next, asks, past⟩ := behind_leading_word asked c.rest
    (Or.inr (Or.inl (List.ne_nil_of_mem (mem_opening_words reserved starts))))
  exact .free asks (abreast_past_keyword reserved past here starts)

-- Behind `for` and `case` no word is an argument.
theorem agrees_head_keyword {word : String} (opens : word = "for" ∨ word = "case") (twin : Twin c d) :
    Agrees bound (Abreast .head) Eq (keyword word) (keyword word) c d := by
  have reserved : word ∈ reservedWords := by rcases opens with rfl | rfl <;> decide
  refine keyword_agrees reserved twin fun {role} asked here starts => ?_
  have found : "for" ∈ (opening c.rest).words ∨ "case" ∈ (opening c.rest).words := by
    rcases opens with rfl | rfl
    · exact Or.inl (mem_opening_words reserved starts)
    · exact Or.inr (mem_opening_words reserved starts)
  have past : (Position.mk role false).behindWord c.rest = ⟨.head, false⟩ := by
    rw [Position.behindWord, if_neg Bool.false_ne_true, if_neg asked, if_pos found]
  exact abreast_past_keyword reserved past here starts

theorem agrees_blanks {α β : Type} {M : Cursor → Cursor → Prop} {R : α → β → Prop}
    {next : Unit → Parser α} {next' : Unit → Parser β}
    (later : Agrees bound M R (next ()) (next' ()) c.pastBlanks d.pastBlanks) :
    Agrees bound M R (blanks >>= next) (blanks >>= next') c d :=
  agrees_after ((gives_blanks _ _ ()).mpr rfl) ((gives_blanks _ _ ()).mpr rfl) (level_blanks d) later

theorem agrees_name {α β : Type} {M : Cursor → Cursor → Prop} {R : α → β → Prop}
    {next : List Char → Parser α} {next' : List Char → Parser β} (head : d.rest.head? = c.rest.head?)
    (later : c.rest.head?.any startsName = true →
      Agrees bound M R (next (c.rest.takeWhile continuesName)) (next' (d.rest.takeWhile continuesName))
        (c.advance (c.rest.takeWhile continuesName).length)
        (d.advance (d.rest.takeWhile continuesName).length)) :
    Agrees bound M R (name >>= next) (name >>= next') c d := by
  have same := congrArg (Option.any startsName) head
  cases starts : c.rest.head?.any startsName with
  | false =>
      exact agrees_stop ((fails_name c).mpr starts) ((fails_name d).mpr (same.trans starts)) (level_name d)
  | true =>
      exact agrees_after ((gives_name _ _ _).mpr ⟨starts, rfl, rfl⟩)
        ((gives_name _ _ _).mpr ⟨same.trans starts, rfl, rfl⟩) (level_name d) (later starts)

theorem plain_of_name (ch : Char) (continues : continuesName ch = true) :
    isQuote ch = false ∧ isDelimiter ch = false := plain_of_accepts (by decide) continues

theorem take_while_ne_nil {accepts : Char → Bool} {text : List Char}
    (first : text.head?.any accepts = true) : text.takeWhile accepts ≠ [] := by
  cases text with
  | nil => cases first
  | cons ch others =>
      rw [List.takeWhile_cons_of_pos (by simpa using first)]
      exact List.cons_ne_nil _ _

theorem name_ne_nil {text : List Char} (starts : text.head?.any startsName = true) :
    text.takeWhile continuesName ≠ [] := by
  apply take_while_ne_nil
  cases text with
  | nil => cases starts
  | cons ch others => exact continues_of_starts ch starts

end Tokens

end ShellLine.Lines
