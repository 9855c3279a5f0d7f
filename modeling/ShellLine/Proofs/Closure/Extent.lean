import ShellLine.Proofs.Closure.Region

set_option autoImplicit false

namespace ShellLine.Closure

open ShellLine.Parser Grammar

variable {c d e : Cursor}

-- The parts of words that can be read at a place come to an end at another.
def PartsEnd (c d : Cursor) : Prop := ∃ parts, Items (reading grammar) (wordPart false) c parts d

section Parts

theorem parts_end_unique (first : PartsEnd c d) (second : PartsEnd c e) : d = e := by
  obtain ⟨parts, items⟩ := first
  obtain ⟨others, otherItems⟩ := second
  exact (gives_unique ((gives_many _ _ _ _).mpr items) ((gives_many _ _ _ _).mpr otherItems)).2

theorem parts_end_at_delimiter (delimited : c.rest.head?.all isDelimiter = true) : PartsEnd c c :=
  ⟨[], .stop (rejects_part_at_delimiter delimited)⟩

theorem parts_end_of_part {part : Node} (read : (wordPart false).Reads c part d) (ends : PartsEnd d e) :
    PartsEnd c e := by
  obtain ⟨parts, items⟩ := ends
  exact ⟨part :: parts, .more read (word_part_moves read) items⟩

theorem parts_end_behind_part {part : Node} (read : (wordPart false).Reads c part d)
    (ends : PartsEnd c e) : PartsEnd d e := by
  obtain ⟨parts, f, items⟩ := items_exist (reading grammar) (wordPart false) d
  rw [parts_end_unique ends (parts_end_of_part read ⟨parts, items⟩)]
  exact ⟨parts, items⟩

theorem reads_plain_run {ch : Char} (head : c.rest.head? = some ch) (plain : isPlain ch = true) :
    (wordPart false).Reads c (.leaf .unquotedLiteral (c.rest.takeWhile isPlain))
      (.start (c.rest.dropWhile isPlain)) := by
  obtain ⟨others, here⟩ := List.head?_eq_some_iff.mp head
  have passed := @reads_plain false (c.rest.takeWhile isPlain) ?_ ?_ (c.rest.dropWhile isPlain) ?_
  · rwa [List.takeWhile_append_dropWhile, ← Cursor.eq_start rfl] at passed
  · rw [here, List.takeWhile_cons_of_pos plain]
    exact List.cons_ne_nil _ _
  · exact fun ch member => by simpa [isPlain] using List.all_eq_true.mp List.all_takeWhile ch member
  · exact fun ch head => by simpa [isPlain] using head_drop_while head

theorem parts_end_past_plain {ch : Char} (head : c.rest.head? = some ch) (plain : isPlain ch = true)
    (ends : PartsEnd (c.advance 1) e) : PartsEnd c e := by
  obtain ⟨others, here⟩ := List.head?_eq_some_iff.mp head
  have behind : (c.advance 1).rest = others := rest_skip_cons here
  have run := reads_plain_run head plain
  have same : c.rest.dropWhile isPlain = others.dropWhile isPlain := by
    rw [here, List.dropWhile_cons_of_pos plain]
  rw [same] at run
  refine parts_end_of_part run ?_
  cases next : others.head?.any isPlain with
  | true =>
      obtain ⟨second, secondHead, secondPlain⟩ := (Option.any_eq_true _ _).mp next
      have rest := @reads_plain_run (c.advance 1) second (by rw [behind]; exact secondHead) secondPlain
      rw [behind] at rest
      exact parts_end_behind_part rest ends
  | false =>
      have none : others.dropWhile isPlain = others := by
        cases others with
        | nil => rfl
        | cons second more => exact List.dropWhile_cons_of_neg (by simpa using next)
      rwa [none, ← Cursor.eq_start behind]

theorem parts_end_past_text {chars : List Char} (plain : ∀ ch ∈ chars, isPlain ch = true)
    (here : c.rest = chars ++ d.rest) (ends : PartsEnd d e) : PartsEnd c e := by
  induction chars generalizing c with
  | nil => rwa [Cursor.ext_rest c d here]
  | cons ch others ih =>
      obtain ⟨first, later⟩ := List.forall_mem_cons.mp plain
      exact parts_end_past_plain (congrArg List.head? here) first (ih later (rest_skip_cons here))

-- In front of the blanks before a parenthesis parts end, though a joined line is a part and a blank too.
theorem parts_end_at_blanks (c : Cursor) (paren : c.pastBlanks.rest.head? = some '(') :
    ∃ d, PartsEnd c d ∧ d.pastBlanks = c.pastBlanks := by
  by_cases idle : layoutLength false false c.rest = 0
  · have same : c.pastBlanks = c := by rw [Cursor.pastBlanks, idle, advance_none]
    rw [same] at paren
    exact ⟨c, parts_end_at_delimiter (by rw [paren]; rfl), rfl⟩
  · obtain ⟨rest, here | here | here | here⟩ := blanks_start idle
    · exact ⟨c, parts_end_at_delimiter (by rw [here]; rfl), rfl⟩
    · exact ⟨c, parts_end_at_delimiter (by rw [here]; rfl), rfl⟩
    · -- No parenthesis stands right behind a comment.
      have stops := comment_stops rest
      rw [← rest_past_comment here, paren] at stops
      cases stops
    · have step : c.pastBlanks = (c.advance 2).pastBlanks :=
        past_blanks_step (by rw [rest_skip_pair here, here, layoutLength])
      have moved := c.advance_left_lt 2 (remains_of_layout idle) Nat.two_pos
      rw [step] at paren ⊢
      obtain ⟨d, ends, same⟩ := parts_end_at_blanks (c.advance 2) paren
      exact ⟨d, parts_end_of_part (reads_joined_line here) ends, same⟩
termination_by c.left

theorem word_ends {node : Node} (read : (call .word).Reads c node d) (ends : PartsEnd c e) :
    d = e.pastBlanks := by
  obtain ⟨parts, f, items, -, rfl, -⟩ := reads_word ((reads_call _ _ _ _).mp read)
  rw [parts_end_unique ends ⟨parts, items⟩]

theorem past_blanks_at {ch : Char} (head : c.rest.head? = some ch) (solid : ch ∉ [' ', '\t', '#', '\\']) :
    c.pastBlanks = c := by
  have idle : layoutLength false false c.rest = 0 := by
    refine Decidable.byContradiction fun blanks => solid ?_
    obtain ⟨rest, here | here | here | here⟩ := blanks_start blanks
    all_goals
      rw [here] at head
      obtain rfl := Option.some.inj head
      simp
  rw [Cursor.pastBlanks, idle, advance_none]

theorem reads_word_at_keyword {word : String} (reserved : word ∈ reservedWords)
    (read : (keyword word).Reads c () d) : ∃ node, (call .word).Reads c node d := by
  obtain ⟨nonempty, plain⟩ := reserved_words_plain word reserved
  obtain ⟨starts, rfl⟩ := (gives_keyword _ _ _ _).mp read
  have here := starts_of_starts_reserved _ _ starts
  obtain ⟨rest, whole⟩ := here
  have behind : (c.advance word.length).rest = rest := by
    rw [← String.length_toList]
    exact c.rest_advance_append _ _ whole.symm
  have delimited : (c.advance word.length).rest.head?.all isDelimiter = true := by
    rw [startsReserved, Bool.and_eq_true, ← whole, List.drop_left] at starts
    rw [behind]
    exact starts.2
  have same : c.rest = word.toList ++ (c.advance word.length).rest := by rw [behind, whole]
  obtain ⟨parts, items⟩ := parts_end_past_text plain same (parts_end_at_delimiter delimited)
  refine ⟨.ofNodes .word parts, (reads_call _ _ _ _).mpr (reads_bind (reads_many items) ?_)⟩
  cases parts with
  | nil =>
      -- The parts do not stop in front of the reserved word.
      have moved := advance_text_left_lt _ c nonempty ⟨rest, whole⟩
      rw [String.length_toList, ← items_nil items] at moved
      exact absurd moved (Nat.lt_irrefl _)
  | cons first others => exact reads_bind ((gives_blanks _ _ ()).mpr rfl) (reads_pure _ _)

end Parts

section Bars

-- A place where a command can only end: the end of the text, a bar, or a part cut short.
def Barred (c : Cursor) : Prop := c.rest = [] ∨ c.rest.head? = some '|' ∨ Stuck c

theorem Barred.listed (barred : Barred c) {ch : Char} (head : c.rest.head? = some ch) :
    ch ∈ ['|', '$', backtick, '\\', '"', '\''] := by
  rcases barred with empty | bar | stuck
  · simp [empty] at head
  · cases head.symm.trans bar
    decide
  · have quoting := stuck.quoting
    rw [head] at quoting
    exact List.mem_cons_of_mem _ (by simpa [isQuoting] using quoting)

theorem Barred.other {ch : Char} (barred : Barred c) (different : ch ∉ ['|', '$', backtick, '\\', '"', '\'']) :
    c.rest.head? ≠ some ch := fun same => different (barred.listed same)

theorem Barred.rejects_word (barred : Barred c) : (call .word).Rejects c := by
  rcases barred with empty | bar | stuck
  · exact rejects_word_at_delimiter (by rw [empty]; rfl)
  · exact rejects_word_at_delimiter (by rw [bar]; rfl)
  · exact (rejects_call _ _).mpr (Grammar.rejects_word stuck.noPart)

theorem Barred.rejects_redirection (barred : Barred c) : (call .redirection).Rejects c := by
  cases head : c.rest.head? with
  | none =>
      rw [List.head?_eq_none_iff] at head
      exact (rejects_call _ _).mpr (Grammar.rejects_redirection (by simp [head]))
  | some ch =>
      obtain ⟨noDigit, noInput, noOutput⟩ := (by decide : ∀ ch ∈ ['|', '$', backtick, '\\', '"', '\''],
        ch.isDigit = false ∧ ch ≠ '<' ∧ ch ≠ '>') ch (barred.listed head)
      exact rejects_redirection_at head noDigit noInput noOutput

theorem Barred.no_name (barred : Barred c) : c.rest.head?.any startsName = false := by
  cases head : c.rest.head? with
  | none => rfl
  | some ch =>
      exact (by decide : ∀ ch ∈ ['|', '$', backtick, '\\', '"', '\''], startsName ch = false) ch
        (barred.listed head)

theorem Barred.rejects_assignment (barred : Barred c) : assignment.Rejects c := by
  simp only [assignment, Rejects, fails_atomic, fails_bind, fails_name]
  exact Or.inl barred.no_name

theorem Barred.no_reserved_word (barred : Barred c) :
    ∀ word ∈ reservedWords, String.ofList (solidStart c.rest) ≠ word := by
  intro word reserved same
  obtain ⟨ch, head, other⟩ := head_of_solid_word (· ∉ ['|', '$', backtick, '\\', '"', '\''])
    (by decide +kernel) (same ▸ reserved)
  exact barred.other (by simpa using other) head

theorem Barred.rejects_command (barred : Barred c) : (call .command).Rejects c := by
  refine Grammar.rejects_command (rejects_function_definition barred.no_name) ?_ ?_
  · refine rejects_compound (barred.other (by decide)) fun opening => ?_
    exact barred.no_reserved_word _ (opening_words_reserved _ opening) rfl
  · refine rejects_simple barred.rejects_redirection barred.rejects_assignment ?_
    rw [commandWord, Rejects, fails_look_bind]
    split
    · exact fails_refuse _ c
    · exact barred.rejects_word

theorem Barred.rejects_chain (barred : Barred c) : (call .andOr).Rejects c :=
  Grammar.rejects_chain (rejects_keyword (by decide) (barred.no_reserved_word _ (by decide)))
    barred.rejects_command

theorem Barred.rejects_list (barred : Barred c) : compoundList.Rejects c := by
  have idle : c.pastBreak = c := by rw [Cursor.pastBreak, if_neg (barred.other (by decide))]
  have stop : (term true).Reads c .stop c :=
    reads_bind (reads_missed barred.rejects_chain) (reads_pure _ _)
  rw [compoundList, Rejects, fails_nested, fails_atomic, fails_bind]
  refine Or.inr ⟨(), c, (gives_line_break _ _ _).mpr idle, ?_⟩
  rw [termList, fails_bind]
  exact Or.inr ⟨[], c, reads_rounds (.stop stop), fails_fail c⟩

end Bars

section Commands

variable {word node : Node}

theorem head_of_name {chars : List Char} (read : name.Reads c chars d) :
    ∃ ch, c.rest.head? = some ch ∧ ch.isDigit = false ∧ ch ≠ '<' ∧ ch ≠ '>' := by
  obtain ⟨ch, head, starts⟩ := (Option.any_eq_true _ _).mp ((gives_name _ _ _).mp read).1
  refine ⟨ch, head, Bool.eq_false_iff.mpr fun digit => ?_, ?_, ?_⟩
  · by_cases underscore : ch = '_'
    · subst underscore
      exact absurd digit (by decide)
    · simp only [startsName, Bool.or_eq_true, is_alpha_iff, Char.isDigit] at starts digit
      grind
  · rintro rfl
    exact absurd starts (by decide)
  · rintro rfl
    exact absurd starts (by decide)

theorem rejects_redirection_at_name {chars : List Char} (read : name.Reads c chars d) :
    (call .redirection).Rejects c := by
  obtain ⟨ch, head, noDigit, noInput, noOutput⟩ := head_of_name read
  exact rejects_redirection_at head noDigit noInput noOutput

theorem word_at_function_name {chars : List Char} (named : name.Reads c chars d)
    (opened : (operator "(").Reads d.pastBlanks () e) {f : Cursor} (read : (call .word).Reads c word f) :
    f = d.pastBlanks := by
  obtain ⟨plain, here⟩ := name_is_plain named
  have paren : d.pastBlanks.rest.head? = some '(' :=
    head_of_start ((gives_operator _ _ _ _).mp opened).1 (by decide)
  obtain ⟨g, ends, same⟩ := parts_end_at_blanks d paren
  rw [word_ends read (parts_end_past_text plain here ends), same]

theorem word_at_assignment (assigned : assignment.Reads c node d) (read : (call .word).Reads c word e) :
    e = d := by
  cases assignment_form assigned with
  | @value f g _ parts named equals items =>
      obtain ⟨plain, here⟩ := name_is_plain named
      have sign : f.rest.head? = some '=' := head_of_start equals (by decide)
      have ends := parts_end_past_plain sign (by decide) ⟨parts, items⟩
      exact word_ends read (parts_end_past_text plain here ends)

theorem digit_is_plain {ch : Char} (digit : ch.isDigit = true) : isPlain ch = true :=
  plain_of_continues (by simp [continuesName, Char.isAlphanum, digit])

-- A word in front of a redirection is its descriptor.
theorem word_at_redirection (redirected : (call .redirection).Reads c node d)
    (read : (call .word).Reads c word e) :
    (e.rest.head? = some '<' ∨ e.rest.head? = some '>') ∧ d.rest <:+ e.rest := by
  cases redirection_form ((reads_call _ _ _ _).mp redirected) with
  | @operation f _ descriptor text kind mark target described operators here _ targetGiven =>
      have starts : f.rest.head? = some '<' ∨ f.rest.head? = some '>' := by
        obtain ⟨behind, whole⟩ := here
        rw [← whole, List.head?_append]
        rcases redirection_operator_starts text kind operators with start | start
        · exact Or.inl (by rw [start]; rfl)
        · exact Or.inr (by rw [start]; rfl)
      have delimited : f.rest.head?.all isDelimiter = true := by rcases starts with head | head <;> rw [head] <;> rfl
      have idle : f.pastBlanks = f := by
        rcases starts with head | head <;> exact past_blanks_at head (by decide)
      have plain : ∃ chars : List Char, (∀ ch ∈ chars, isPlain ch = true) ∧ c.rest = chars ++ f.rest := by
        rcases described with ⟨-, rfl⟩ | ⟨digits, -, isDigit, whole⟩
        · exact ⟨[], nofun, rfl⟩
        · exact ⟨digits, fun ch member => digit_is_plain (isDigit ch member), whole⟩
      obtain ⟨chars, plain, whole⟩ := plain
      rw [word_ends read (parts_end_past_text plain whole (parts_end_at_delimiter delimited)), idle]
      have behind : (f.advance text.length).pastBlanks.rest <:+ f.rest :=
        (Cursor.advance_suffix _ _).trans (f.advance_suffix _)
      exact ⟨starts, (reads_forward targetGiven).trans behind⟩

theorem compound_goes_on (compound : CompoundForm (reading grammar) c node d) (read : (call .word).Reads c word e) :
    ¬ Barred e := by
  intro barred
  have behind : ∀ {kind : String} {f : Cursor}, kind ∈ reservedWords → (keyword kind).Reads c () f → f = e := by
    intro kind f reserved opened
    obtain ⟨other, same⟩ := reads_word_at_keyword reserved opened
    exact (gives_unique same read).2
  have noList : ∀ {inner f}, ¬ compoundList.Reads e inner f := fun list =>
    not_fails_of_gives list barred.rejects_list
  cases compound with
  | braceGroup opened list =>
      obtain rfl := behind (by decide) opened
      exact noList list
  | subshell opened =>
      have paren := head_of_start ((gives_operator _ _ _ _).mp opened).1 (by decide)
      exact absurd (rejects_word_at_delimiter (by rw [paren]; rfl)) (not_fails_of_gives read)
  | forLoop opened named =>
      obtain rfl := behind (by decide) opened
      have starts := ((gives_name _ _ _).mp named).1
      cases starts.symm.trans barred.no_name
  | caseChoice opened chosen =>
      obtain rfl := behind (by decide) opened
      exact not_fails_of_gives chosen barred.rejects_word
  | ifChoice opened chosen =>
      obtain rfl := behind (by decide) opened
      cases conditional_form ((reads_call _ _ _ _).mp chosen) with
      | choice tested => exact noList tested
  | @loop _ _ _ repeater kind _ _ repeated opened list =>
      have reserved := (by decide : ∀ pair ∈ [("while", Kind.whileLoop), ("until", .untilLoop)],
        pair.1 ∈ reservedWords) _ repeated
      obtain rfl := behind reserved opened
      exact noList list

theorem simple_ends_with_word (simple : SimpleForm (reading grammar) c node d)
    (read : (call .word).Reads c word e) (barred : Barred e) : d = e := by
  have noLead : leadItem.Rejects e := (fails_or_else _ _ _).mpr ⟨barred.rejects_redirection, barred.rejects_assignment⟩
  have noArgument : argumentItem.Rejects e :=
    (fails_or_else _ _ _).mpr ⟨barred.rejects_redirection, barred.rejects_word⟩
  -- Nothing is read behind the word.
  have stays : ∀ {α : Type} {item : Parser α} {values : List α} {f : Cursor}, item.Rejects e →
      Items (reading grammar) item e values f → f = e := by
    intro α item values f rejected items
    cases items with
    | stop _ => rfl
    | halt given _ | more given _ _ => exact absurd rejected (not_fails_of_gives given)
  have lead : ∀ {first f}, leadItem.Reads c first f → f = e := by
    intro first f given
    rcases (gives_or_else _ _ _ _ _).mp given with redirected | ⟨-, assigned⟩
    · rcases (word_at_redirection redirected read).1 with head | head
      · exact absurd head (barred.other (by decide))
      · exact absurd head (barred.other (by decide))
    · exact (word_at_assignment assigned read).symm
  have place : ∀ {items f}, Items (reading grammar) leadItem c items f → items ≠ [] → f = e := by
    intro items f leads nonempty
    cases leads with
    | stop _ => exact absurd rfl nonempty
    | halt given stays => exact absurd (lead_item_moves _ _ _ given) stays
    | more given _ others =>
        obtain rfl := lead given
        exact stays noLead others
  cases simple with
  | bare leads nonempty => exact place leads nonempty
  | @named f g _ items others first leads _ nameGiven arguments =>
      by_cases empty : items = []
      · subst empty
        obtain rfl := items_nil leads
        obtain ⟨-, rfl⟩ := gives_unique read nameGiven
        exact stays noArgument arguments
      · obtain rfl := place leads empty
        exact absurd barred.rejects_word (not_fails_of_gives nameGiven)

-- Where the name and the first parenthesis of a function stand, a simple command ends in front of it.
theorem simple_ends_at_paren {chars : List Char} {f : Cursor} (named : name.Reads c chars e)
    (opened : (operator "(").Reads e.pastBlanks () f) (simple : SimpleForm (reading grammar) c node d) :
    d.rest.head? = some '(' := by
  have paren : e.pastBlanks.rest.head? = some '(' :=
    head_of_start ((gives_operator _ _ _ _).mp opened).1 (by decide)
  have noRedirection := rejects_redirection_at_name named
  have noLead : leadItem.Rejects c := by
    rcases gives_or_fails (reading grammar) assignment c with ⟨assigned, g, read⟩ | noAssignment
    · cases assignment_form read with
      | value otherName equals _ =>
          obtain ⟨-, rfl⟩ := gives_unique named otherName
          have sign : e.rest.head? = some '=' := head_of_start equals (by decide)
          rw [past_blanks_at sign (by decide)] at paren
          cases sign.symm.trans paren
    · exact (fails_or_else _ _ _).mpr ⟨noRedirection, noAssignment⟩
  have leads : ∀ {items g}, Items (reading grammar) leadItem c items g → items = [] ∧ c = g := by
    intro items g leads
    cases leads with
    | stop _ => exact ⟨rfl, rfl⟩
    | halt given _ | more given _ _ => exact absurd noLead (not_fails_of_gives given)
  cases simple with
  | bare items nonempty => exact absurd (leads items).1 nonempty
  | named items _ nameGiven arguments =>
      obtain ⟨rfl, rfl⟩ := leads items
      have head := paren
      rw [← word_at_function_name named opened nameGiven] at head
      cases arguments with
      | stop _ => exact head
      | halt given _ | more given _ _ =>
          refine absurd ((fails_or_else _ _ _).mpr ⟨?_, ?_⟩) (not_fails_of_gives given)
          · exact rejects_redirection_at head (by decide) (by decide) (by decide)
          · exact rejects_word_at_delimiter (by rw [head]; rfl)

theorem command_ends_with_word (command : (call .command).Reads c node d) (read : (call .word).Reads c word e)
    (barred : Barred e) : d = e := by
  cases command_form ((reads_call .command c d node).mp command) with
  | function named opened =>
      have paren := head_of_start ((gives_operator _ _ _ _).mp opened).1 (by decide)
      rw [← word_at_function_name named opened read] at paren
      exact absurd paren (barred.other (by decide))
  | compound given _ => exact absurd barred (compound_goes_on given read)
  | simple given => exact simple_ends_with_word given read barred

theorem compound_opening (read : compoundCommand.Reads c node d) : c.rest.head? = some '(' ∨
    ∃ word ∈ reservedWords, ∃ e, (keyword word).Reads c () e ∧ d.rest <:+ e.rest := by
  have opening : ∀ {word : String} {next : Unit → Parser Node}, word ∈ reservedWords →
      (atomic (keyword word >>= next)).Reads c node d →
      ∃ word ∈ reservedWords, ∃ e, (keyword word).Reads c () e ∧ d.rest <:+ e.rest := by
    intro word next reserved read
    obtain ⟨_, e, opened, later⟩ := (gives_bind _ _ _ _ _).mp ((gives_atomic _ _ _ _).mp read)
    exact ⟨word, reserved, e, opened, reads_forward later⟩
  rw [compoundCommand, Reads, gives_look_bind] at read
  split at read
  · exact Or.inr (opening (by decide : "\x7b" ∈ reservedWords) read)
  · rename_i head
    exact Or.inl head
  · exact Or.inr (opening (by decide : "for" ∈ reservedWords) read)
  · exact Or.inr (opening (by decide : "case" ∈ reservedWords) read)
  · exact Or.inr (opening (by decide : "if" ∈ reservedWords) read)
  · exact Or.inr (opening (by decide : "while" ∈ reservedWords) read)
  · exact Or.inr (opening (by decide : "until" ∈ reservedWords) read)
  · exact absurd read (gives_fail _ _ _)

theorem word_within_simple (simple : simpleCommand.Reads c node d) (read : (call .word).Reads c word e) :
    d.rest <:+ e.rest := by
  obtain ⟨items, f, leads, later⟩ := (gives_bind _ _ _ _ _).mp simple
  cases (gives_many _ _ _ _).mp leads with
  | stop _ =>
      rcases (gives_attempt_bind _ _ _ _ _).mp later with ⟨first, g, named, others⟩ | ⟨-, failed⟩
      · obtain ⟨-, rfl⟩ := gives_unique read (command_word_form named).2
        exact reads_forward others
      · simp at failed
  | halt given stays => exact absurd (lead_item_moves _ _ _ given) stays
  | @more _ g _ first others given _ rest =>
      have behind := (reads_forward later).trans (reads_forward ((gives_many _ _ _ _).mpr rest))
      rcases (gives_or_else _ _ _ _ _).mp given with redirected | ⟨-, assigned⟩
      · exact behind.trans (word_at_redirection redirected read).2
      · rwa [word_at_assignment assigned read]

theorem word_within_command (command : (call .command).Reads c node d) (read : (call .word).Reads c word e) :
    d.rest <:+ e.rest := by
  rw [reads_call] at command
  rcases (gives_or_else _ _ _ _ _).mp command with function | ⟨-, command⟩
  · rw [functionDefinition, gives_look_bind] at function
    split at function
    · exact absurd function (gives_fail _ _ _)
    · obtain ⟨chars, f, named, later⟩ := (gives_bind _ _ _ _ _).mp ((gives_atomic _ _ _ _).mp function)
      obtain ⟨_, g, blank, later⟩ := (gives_bind _ _ _ _ _).mp later
      obtain rfl := (gives_blanks _ _ _).mp blank
      obtain ⟨_, _, opened, -⟩ := (gives_bind _ _ _ _ _).mp later
      rw [word_at_function_name named opened read]
      exact reads_forward later
  · rcases (gives_or_else _ _ _ _ _).mp command with grouped | ⟨-, simple⟩
    · obtain ⟨compound, f, given, redirected⟩ := (gives_bind _ _ _ _ _).mp grouped
      rcases compound_opening given with paren | ⟨opening, reserved, g, opened, behind⟩
      · exact absurd (rejects_word_at_delimiter (by rw [paren]; rfl)) (not_fails_of_gives read)
      · obtain ⟨other, same⟩ := reads_word_at_keyword reserved opened
        obtain ⟨-, rfl⟩ := gives_unique same read
        exact (reads_forward redirected).trans behind
    · exact word_within_simple simple read

end Commands

end ShellLine.Closure
