import ShellLine.Proofs.Lines.Spelling

set_option autoImplicit false

namespace ShellLine.Lines

open ShellLine.Parser Grammar Operators

def Unexpanded (text : List Char) : Prop := ∀ c ∈ text, c ≠ '$' ∧ c ≠ backtick

theorem unexpanded_of_suffix {text rest : List Char} (unexpanded : Unexpanded text)
    (behind : rest <:+ text) : Unexpanded rest :=
  fun c member => unexpanded c (behind.subset member)

section Double

theorem double_text_run {chars : List Char} (plain : ∀ ch ∈ chars, isDoubleQuotedText ch = true)
    (rest : List Char) :
    doubleText (chars ++ rest) = (doubleText rest).map (Prod.map (chars ++ ·) id) := by
  induction chars with
  | nil => exact Option.map_id'.symm
  | cons ch others ih =>
      obtain ⟨first, later⟩ := List.forall_mem_cons.mp plain
      have noQuote : ch ≠ '"' ∧ ch ≠ '\\' := by
        constructor <;> rintro rfl <;> exact absurd first (by decide)
      rw [List.cons_append, doubleText.eq_5 _ _ noQuote.1 (fun _ same => absurd same noQuote.2)
        (fun _ _ same => absurd same noQuote.2), ih later, Option.map_map]
      rfl

theorem double_text_kept {rest : List Char}
    (other : ∀ ch, rest.head? = some ch → isDoubleQuotedEscape ch = false ∧ ch ≠ '\n') :
    doubleText ('\\' :: rest) = (doubleText rest).map (Prod.map ('\\' :: ·) id) := by
  cases rest with
  | nil => rfl
  | cons ch others =>
      obtain ⟨kept, sameLine⟩ := other ch rfl
      have plain : ∀ c ∈ [ch], isDoubleQuotedText c = true := by simp [double_quoted_text_iff, kept]
      have run := double_text_run plain others
      rw [List.singleton_append] at run
      rw [doubleText.eq_4 _ _ sameLine, run, Option.map_map, kept]
      rfl

theorem double_text_turn {c d : Cursor} {child : Child} (unexpanded : Unexpanded c.rest)
    (turn : QuotedForm (reading grammar) c (.more child) d) (others : List Child) :
    ∃ more, unquoteDouble? (child :: others) = (unquoteDouble? others).map (more ++ ·) ∧
      doubleText c.rest = (doubleText d.rest).map (Prod.map (more ++ ·) id) := by
  have noExpansion : ∀ ch, c.rest.head? = some ch → ch ≠ '$' ∧ ch ≠ backtick := fun ch head =>
    unexpanded ch (List.mem_of_head? head)
  cases turn with
  | @run _ chars nonempty plain ends here =>
      exact ⟨chars, rfl, by rw [here, double_text_run plain]⟩
  | kept here other => exact ⟨['\\'], rfl, by rw [here, double_text_kept other]; rfl⟩
  | @escape _ ch escaped here =>
      have sameLine : ch ≠ '\n' := by
        rintro rfl
        exact absurd escaped (by decide)
      refine ⟨[ch], ?_, ?_⟩
      · cases told : unquoteDouble? others <;>
          simp [unquoteDouble?, Node.leaf, Node.soleText?, Forest.soleText?, told]
      · rw [here, doubleText.eq_4 _ _ sameLine, escaped]
        rfl
  | joined here =>
      refine ⟨[], ?_, by rw [here]; exact Option.map_id'.symm⟩
      cases told : unquoteDouble? others <;>
        simp [unquoteDouble?, Node.leaf, Node.soleText?, Forest.soleText?, told]
  | dollar head => exact absurd rfl (noExpansion _ head).1
  | tick head => exact absurd rfl (noExpansion _ head).2

theorem rejects_quoted_part {c : Cursor} (unexpanded : Unexpanded c.rest)
    (rejected : doubleQuotedPart.Rejects c) : c.rest = [] := by
  rw [doubleQuotedPart, Rejects, fails_look_bind] at rejected
  split at rejected
  · assumption
  · simp at rejected
  · rename_i here
    exact absurd rfl (unexpanded '$' (by simp [here])).1
  · rename_i rest here
    cases rest with
    | nil => simp at rejected
    | cons ch others =>
        simp only [List.head?_cons] at rejected
        split at rejected
        · simp at rejected
        · split at rejected <;> simp at rejected
  · rename_i ch rest _ _ _ here
    have plain := (unexpanded ch (by simp [here])).2
    simp [plain] at rejected

theorem double_text_of_turns {c d : Cursor} {parts : List Child} (unexpanded : Unexpanded c.rest)
    (turns : Turns (reading grammar) doubleQuotedPart c parts d) :
    ∃ text, unquoteDouble? parts = some text ∧ doubleText c.rest = some (text, d.rest) := by
  induction turns with
  | stop given =>
      cases double_quoted_part_form given with
      | close here => exact ⟨[], rfl, by rw [here]; rfl⟩
  | last given => cases double_quoted_part_form given
  | halt given stays => exact absurd (quoted_turn_moves (reads_double_quoted_part given)) stays
  | @more c d e child parts given progress others ih =>
      obtain ⟨text, told, found⟩ := ih (unexpanded_of_suffix unexpanded (reads_forward given))
      obtain ⟨more, adds, here⟩ := double_text_turn unexpanded (double_quoted_part_form given) parts
      exact ⟨more ++ text, by rw [adds, told]; rfl, by rw [here, found]; rfl⟩

theorem turns_of_double_text {c : Cursor} {text rest : List Char} (unexpanded : Unexpanded c.rest)
    (found : doubleText c.rest = some (text, rest)) :
    ∃ parts d, Turns (reading grammar) doubleQuotedPart c parts d := by
  rcases gives_or_fails (reading grammar) doubleQuotedPart c with ⟨turn, d, given⟩ | rejected
  · cases turn with
    | stop => exact ⟨[], d, .stop given⟩
    | last child => exact ⟨[child], d, .last given⟩
    | more child =>
        have moves := quoted_turn_moves (reads_double_quoted_part given)
        obtain ⟨_, -, here⟩ := double_text_turn unexpanded (double_quoted_part_form given) []
        rw [here] at found
        obtain ⟨⟨inner, after⟩, inside, -⟩ := Option.map_eq_some_iff.mp found
        obtain ⟨parts, e, turns⟩ :=
          turns_of_double_text (unexpanded_of_suffix unexpanded (reads_forward given)) inside
        exact ⟨child :: parts, e, .more given moves turns⟩
  · rw [rejects_quoted_part unexpanded rejected] at found
    cases found
termination_by c.left

theorem rejects_double_quote {c : Cursor} {rest : List Char} (unexpanded : Unexpanded c.rest)
    (here : c.rest = '"' :: rest) (rejected : doubleQuote.Rejects c) : doubleText rest = none := by
  have opened := rest_skip_cons here
  cases found : doubleText rest with
  | none => rfl
  | some pair =>
      obtain ⟨text, after⟩ := pair
      have inside : Unexpanded (c.advance 1).rest := unexpanded_of_suffix unexpanded (c.advance_suffix 1)
      rw [← opened] at found
      obtain ⟨parts, d, turns⟩ := turns_of_double_text inside found
      have given : doubleQuote.Reads c (quotedNode .doubleQuote parts) d := by
        simp only [doubleQuote, Reads, gives_atomic, gives_bind, gives_skip, gives_rounds, gives_pure]
        exact ⟨(), _, rfl, parts, d, turns, rfl, rfl⟩
      exact absurd rejected (not_fails_of_gives given)

end Double

section Word

theorem single_text_closed {chars : List Char} (closed : '\'' ∉ chars) (rest : List Char) :
    singleText (chars ++ '\'' :: rest) = some (chars, rest) := by
  induction chars with
  | nil => rfl
  | cons ch others ih =>
      obtain ⟨first, later⟩ := List.ne_and_not_mem_of_not_mem_cons closed
      rw [List.cons_append, singleText, if_neg (Ne.symm first), ih later]
      rfl

theorem single_text_found {chars text rest : List Char} (found : singleText chars = some (text, rest)) :
    '\'' ∉ text ∧ chars = text ++ '\'' :: rest := by
  fun_induction singleText chars generalizing text with
  | case1 => cases found
  | case2 =>
      cases found
      exact ⟨List.not_mem_nil, rfl⟩
  | case3 c others other ih =>
      obtain ⟨⟨inner, after⟩, inside, same⟩ := Option.map_eq_some_iff.mp found
      cases same
      obtain ⟨closed, rfl⟩ := ih inside
      exact ⟨by simp [Ne.symm other, closed], rfl⟩

theorem word_text_run {chars : List Char} (plain : ∀ ch ∈ chars, isWordBreak false ch = false)
    (rest : List Char) : wordText (chars ++ rest) = Prod.map (chars ++ ·) id (wordText rest) := by
  induction chars with
  | nil => rfl
  | cons ch others ih =>
      obtain ⟨first, later⟩ := List.forall_mem_cons.mp plain
      rw [List.cons_append, word_text_bare (not_quoting_of_plain first), if_neg (by simp [first]),
        ih later]
      rfl

-- Whether a part of a word stands at the start of a text.
def startsWord : List Char → Bool
  | '\\' :: rest => rest ≠ []
  | '\'' :: rest => (singleText rest).isSome
  | '"' :: rest => (doubleText rest).isSome
  | c :: _ => !isWordBreak false c
  | [] => false

theorem starts_word_bare {c : Char} (bare : isQuote c = false) (rest : List Char) :
    startsWord (c :: rest) = !isWordBreak false c := by
  unfold startsWord
  split <;> simp_all [isQuote]

theorem starts_word_join {text : List Char} (noPair : ¬ ['\\', '\n'] <+: text) :
    startsWord (joinLines .none text) = startsWord text := by
  fun_cases startsWord text with
  | case1 rest =>
      cases rest with
      | nil => rfl
      | cons ch others =>
          have sameLine : ch ≠ '\n' := by
            rintro rfl
            exact noPair ⟨others, rfl⟩
          rw [join_escape (by decide) sameLine]
          rfl
  | case2 rest =>
      rw [join_open_single, startsWord, single_text_join, Option.isSome_map]
  | case3 rest =>
      rw [join_open_double, startsWord, double_text_join, Option.isSome_map]
  | case4 c rest noBackslash noSingle noDouble =>
      have bare := bare_of_ne noBackslash noDouble noSingle
      rw [join_bare bare, starts_word_bare bare]
  | case5 => rfl

theorem word_text_stuck {text : List Char} (stuck : startsWord text = false) :
    wordText text = ([], text) := by
  fun_cases startsWord text with
  | case1 rest =>
      obtain rfl : rest = [] := by simpa [startsWord] using stuck
      exact word_text_lone_backslash
  | case2 rest =>
      exact word_text_unclosed_single (Option.isNone_iff_eq_none.mp (Option.isSome_eq_false_iff.mp stuck))
  | case3 rest =>
      exact word_text_unclosed_double (Option.isNone_iff_eq_none.mp (Option.isSome_eq_false_iff.mp stuck))
  | case4 c rest noBackslash noSingle noDouble =>
      have bare := bare_of_ne noBackslash noDouble noSingle
      rw [starts_word_bare bare, Bool.not_eq_false'] at stuck
      rw [word_text_bare bare, if_pos stuck]
  | case5 => simp [wordText]

section Stops

variable {p : Position} {fresh : Bool} {text : List Char}

theorem starts_word_behind (text : List Char) : startsWord (wordText text).2 = false := by
  fun_induction wordText text with
  | case1 => rfl
  | case2 _ ih | case3 _ _ _ ih | case4 _ _ _ _ ih | case6 _ _ _ _ ih | case9 _ _ _ _ _ _ _ ih => exact ih
  | case5 rest unclosed | case7 rest unclosed => simp [startsWord, unclosed]
  | case8 c rest _ noEscape noSingle noDouble ends =>
      by_cases backslash : c = '\\'
      · subst backslash
        cases rest with
        | nil => rfl
        | cons next others => exact absurd rfl (noEscape next others rfl)
      · rw [starts_word_bare (bare_of_ne backslash noDouble noSingle), ends]
        rfl

theorem uncut_word (starts : startsWord text = true) (noPair : ¬ ['\\', '\n'] <+: text)
    (uncut : Uncut p true text) : Uncut (p.behindWord text) false (wordText text).2 := by
  fun_cases startsWord text with
  | case1 rest =>
      cases rest with
      | nil => cases starts
      | cons ch others =>
          have sameLine : ch ≠ '\n' := by
            rintro rfl
            exact noPair ⟨others, rfl⟩
          rw [wordText.eq_3 _ _ sameLine]
          exact uncut_word_inside (uncut_escape sameLine uncut)
  | case2 rest =>
      obtain ⟨pair, found⟩ := Option.isSome_iff_exists.mp starts
      rw [word_text_single found]
      exact uncut_word_inside
        (uncut_quote (by decide) (by decide) uncut fun _ => starts_single_text found)
  | case3 rest =>
      obtain ⟨pair, found⟩ := Option.isSome_iff_exists.mp starts
      rw [word_text_double found]
      exact uncut_word_inside (uncut_quote (by decide) (by decide) uncut fun _ => starts_double found)
  | case4 c rest noBackslash noSingle noDouble =>
      have bare := bare_of_ne noBackslash noDouble noSingle
      rw [starts_word_bare bare, Bool.not_eq_true'] at starts
      rw [word_text_bare bare, if_neg (by simp [starts])]
      exact uncut_word_inside (uncut_char bare (inside_of_plain starts) uncut)
  | case5 => cases starts

theorem uncut_unclosed {quote : Char} {rest : List Char} (quoting : isQuote quote = true)
    (opens : quote ≠ '\\') (inside : isDelimiter quote = false)
    (unclosed : ∀ p, tokenStarts (Quote.none.after quote) p false rest = []) :
    Uncut p fresh (quote :: rest) := by
  intro start member
  rw [starts_quote opens inside, unclosed, List.append_nil] at member
  split at member
  · obtain rfl := List.mem_singleton.mp member
    rw [join_text (by decide) opens, opening_quoting quoting, opening_quoting quoting]
  · cases member

-- Where no word starts, a delimiter stands or nothing of any interest follows.
theorem uncut_or_delimiter (unexpanded : Unexpanded text) (stuck : startsWord text = false) :
    (∀ p fresh, Uncut p fresh text) ∨ ∃ c rest, text = c :: rest ∧ isDelimiter c = true := by
  fun_cases startsWord text with
  | case1 rest =>
      obtain rfl : rest = [] := by simpa [startsWord] using stuck
      left
      intro p fresh start member
      cases fresh with
      | false => cases member
      | true =>
          obtain rfl := List.mem_singleton.mp member
          rfl
  | case2 rest =>
      have unclosed := Option.isNone_iff_eq_none.mp (Option.isSome_eq_false_iff.mp stuck)
      exact Or.inl fun p fresh =>
        uncut_unclosed (by decide) (by decide) (by decide) fun _ => starts_unclosed_single unclosed
  | case3 rest =>
      have unclosed := Option.isNone_iff_eq_none.mp (Option.isSome_eq_false_iff.mp stuck)
      exact Or.inl fun p fresh =>
        uncut_unclosed (by decide) (by decide) (by decide) fun _ => starts_unclosed_double unclosed
  | case4 c rest noBackslash noSingle noDouble =>
      rw [starts_word_bare (bare_of_ne noBackslash noDouble noSingle), Bool.not_eq_false'] at stuck
      have plain := unexpanded c (List.mem_cons_self ..)
      have ends : isDelimiter c = true ∨ c = '\\' ∨ c = '"' ∨ c = '\'' := by
        simpa [isWordBreak, plain] using stuck
      refine Or.inr ⟨c, rest, rfl, ends.resolve_right ?_⟩
      rintro (same | same | same)
      exacts [noBackslash same, noDouble same, noSingle same]
  | case5 => exact Or.inl fun _ _ _ member => absurd member List.not_mem_nil

-- A place where a word has ended is one where a token may start.
theorem uncut_at_stop (unexpanded : Unexpanded text) (stuck : startsWord text = false)
    (uncut : Uncut p fresh text) : Uncut p true text := by
  rcases uncut_or_delimiter unexpanded stuck with free | ⟨c, rest, rfl, delimiter⟩
  · exact free p true
  · exact uncut_at_delimiter delimiter uncut

end Stops

theorem word_text_part {c d : Cursor} {part : Node} (unexpanded : Unexpanded c.rest)
    (given : (wordPart false).Reads c part d) :
    startsWord c.rest = true ∧ ∃ text, unquotePart? (.node part) = some text ∧
      wordText c.rest = Prod.map (text ++ ·) id (wordText d.rest) := by
  have noExpansion : ∀ ch, c.rest.head? = some ch → ch ≠ '$' ∧ ch ≠ backtick := fun ch head =>
    unexpanded ch (List.mem_of_head? head)
  cases word_part_form given with
  | @singleQuote _ chars closed here =>
      have found := single_text_closed closed d.rest
      rw [List.cons_append] at here
      refine ⟨by rw [here, startsWord, found]; rfl, chars, rfl, ?_⟩
      rw [here, word_text_single found]
  | @doubleQuote _ parts opened turns =>
      obtain ⟨rest, here⟩ := List.head?_eq_some_iff.mp opened
      obtain ⟨text, told, found⟩ := double_text_of_turns
        (unexpanded_of_suffix unexpanded (c.advance_suffix 1)) turns
      rw [rest_skip_cons here] at found
      refine ⟨by rw [here, startsWord, found]; rfl, text, ?_, ?_⟩
      · change unquoteDouble? (joinTexts parts).toList = some text
        rw [unquote_double_join, told]
      · rw [here, word_text_double found]
  | @bareEscape _ ch here =>
      refine ⟨by rw [here]; rfl, _, rfl, ?_⟩
      by_cases newline : ch = '\n'
      · subst newline
        rw [here, wordText]
        rfl
      · rw [here, wordText.eq_3 _ _ newline, if_neg newline]
        rfl
  | @unquoted _ chars nonempty plain ends here =>
      refine ⟨?_, chars, rfl, by rw [here, word_text_run plain]⟩
      obtain ⟨ch, others, rfl⟩ := List.exists_cons_of_ne_nil nonempty
      have first := plain ch (List.mem_cons_self ..)
      rw [here, List.cons_append, starts_word_bare (not_quoting_of_plain first), first]
      rfl
  | dollar head => exact absurd rfl (noExpansion _ head).1
  | tick head => exact absurd rfl (noExpansion _ head).2

theorem rejects_word_part {c : Cursor} (unexpanded : Unexpanded c.rest)
    (rejected : (wordPart false).Rejects c) : startsWord c.rest = false := by
  have whole := rejected
  rw [wordPart, Rejects, fails_look_bind] at rejected
  split at rejected
  · rename_i head
    obtain ⟨rest, here⟩ := List.head?_eq_some_iff.mp head
    rw [here, startsWord]
    cases found : singleText rest with
    | none => rfl
    | some pair =>
        obtain ⟨closed, rfl⟩ := single_text_found found
        obtain rfl : c = .start ('\'' :: pair.1 ++ '\'' :: pair.2) := c.ext_rest _ here
        exact absurd whole (not_fails_of_gives (reads_single closed pair.2))
  · rename_i head
    obtain ⟨rest, here⟩ := List.head?_eq_some_iff.mp head
    rw [here, startsWord, rejects_double_quote unexpanded here rejected]
    rfl
  · rename_i head
    exact absurd rfl (unexpanded _ (List.mem_of_head? head)).2
  · rename_i head
    exact absurd rfl (unexpanded _ (List.mem_of_head? head)).1
  · rename_i head
    obtain ⟨rest, here⟩ := List.head?_eq_some_iff.mp head
    cases rest with
    | nil => rw [here]; rfl
    | cons ch others => simp [bareEscape, rest_skip_cons here] at rejected
  · rename_i noSingle noDouble _ _ noBackslash
    cases here : c.rest with
    | nil => rfl
    | cons ch others =>
        simp only [here, List.head?_cons, Option.some.injEq] at noSingle noDouble noBackslash
        rw [starts_word_bare (bare_of_ne noBackslash noDouble noSingle)]
        cases ends : isWordBreak false ch with
        | true => rfl
        | false => simp [unquotedLiteral, here, ends] at rejected

theorem word_parts_spell {c d : Cursor} {parts : List Node} (unexpanded : Unexpanded c.rest)
    (items : Items (reading grammar) (wordPart false) c parts d) :
    ∃ texts, List.Forall₂ (fun part text => unquotePart? (.node part) = some text) parts texts ∧
      wordText c.rest = (texts.flatten, d.rest) := by
  induction items with
  | stop rejected => exact ⟨[], .nil, word_text_stuck (rejects_word_part unexpanded rejected)⟩
  | halt given stays => exact absurd (word_part_moves given) stays
  | @more c d e part parts given progress others ih =>
      obtain ⟨texts, each, rest⟩ := ih (unexpanded_of_suffix unexpanded (reads_forward given))
      obtain ⟨-, text, told, here⟩ := word_text_part unexpanded given
      exact ⟨text :: texts, .cons told each, by rw [here, rest]; rfl⟩

end Word

end ShellLine.Lines
