import ShellLine.Proofs.Grammar.Halt
import ShellLine.Proofs.Grammar.Progress
import ShellLine.Proofs.Shape.Stuck

set_option autoImplicit false

namespace ShellLine.Closure

open ShellLine.Parser Grammar

-- A place at which no word goes on: a part that cannot be read, or the last parenthesis of a text.
def DeadEnd (c : Cursor) : Prop := Stuck c ∨ c.rest = [')']

def isPlain (ch : Char) : Bool := !isWordBreak false ch

-- Only plain characters, blanks and whole parts of words lie between a place and a dead end.
inductive Toward (goal : Cursor) : Cursor → Prop
  | here : Toward goal goal
  | plain {c : Cursor} {ch : Char} (head : c.rest.head? = some ch) (plain : isPlain ch = true)
      (next : Toward goal (c.advance 1)) : Toward goal c
  | blank {c : Cursor} {ch : Char} (head : c.rest.head? = some ch) (blank : ch ∈ [' ', '\t'])
      (next : Toward goal (c.advance 1)) : Toward goal c
  | part {c d : Cursor} {part : Node} (quoting : c.rest.head?.any isQuoting = true)
      (read : (wordPart false).Reads c part d) (next : Toward goal d) : Toward goal c

-- The places in front of a dead end, and the end of the text.
structure Region (goal c : Cursor) : Prop where
  uncommented : '#' ∉ c.rest
  place : Toward goal c ∨ c.rest = []

variable {goal c d : Cursor}

section Places

theorem head_dead_end {ch : Char} (dead : DeadEnd goal) (head : goal.rest.head? = some ch) :
    isQuoting ch = true ∨ ch = ')' := by
  rcases dead with stuck | last
  · have quoting := stuck.quoting
    rw [head] at quoting
    exact Or.inl (by simpa using quoting)
  · rw [last] at head
    exact Or.inr (Option.some.inj head).symm

theorem plain_facts {ch : Char} (plain : isPlain ch = true) :
    isDelimiter ch = false ∧ isQuoting ch = false := by
  simpa [isPlain, isWordBreak, isQuoting] using plain

theorem plain_of_continues {ch : Char} (continues : continuesName ch = true) : isPlain ch = true := by
  have notQuoting := not_quoting_of_continues continues
  simp_all [isPlain, isWordBreak, isQuoting, continues_solid]

theorem quoting_not_delimiter {ch : Char} (quoting : isQuoting ch = true) : isDelimiter ch = false :=
  (by decide : ∀ ch ∈ ['$', backtick, '\\', '"', '\''], isDelimiter ch = false) ch
    (by simpa [isQuoting] using quoting)

theorem toward_head {ch : Char} (dead : DeadEnd goal) (toward : Toward goal c)
    (head : c.rest.head? = some ch) :
    (isPlain ch = true ∧ Toward goal (c.advance 1)) ∨ (ch ∈ [' ', '\t'] ∧ Toward goal (c.advance 1)) ∨
      (isQuoting ch = true ∧ ∃ part d, (wordPart false).Reads c part d ∧ Toward goal d) ∨
      (c = goal ∧ (isQuoting ch = true ∨ ch = ')')) := by
  cases toward with
  | here => exact Or.inr (Or.inr (Or.inr ⟨rfl, head_dead_end dead head⟩))
  | plain other plain next =>
      cases head.symm.trans other
      exact Or.inl ⟨plain, next⟩
  | blank other blank next =>
      cases head.symm.trans other
      exact Or.inr (Or.inl ⟨blank, next⟩)
  | @part _ d part quoting read next =>
      rw [head] at quoting
      exact Or.inr (Or.inr (Or.inl ⟨by simpa using quoting, part, d, read, next⟩))

theorem not_toward_operator {ch : Char} (dead : DeadEnd goal) (head : c.rest.head? = some ch)
    (operator : ch ∈ ['\n', ';', '&', '|', '<', '>', '(']) : ¬ Toward goal c := by
  intro toward
  obtain ⟨delimiter, noBlank, noParen⟩ := (by decide : ∀ ch ∈ ['\n', ';', '&', '|', '<', '>', '('],
    isDelimiter ch = true ∧ ch ∉ [' ', '\t'] ∧ ch ≠ ')') ch operator
  have notQuoting : isQuoting ch = false := Bool.eq_false_iff.mpr fun quoting => by
    cases delimiter.symm.trans (quoting_not_delimiter quoting)
  rcases toward_head dead toward head with ⟨plain, -⟩ | ⟨blank, -⟩ | ⟨quoting, -⟩ | ⟨-, quoting | paren⟩
  · cases delimiter.symm.trans (plain_facts plain).1
  · exact noBlank blank
  · cases notQuoting.symm.trans quoting
  · cases notQuoting.symm.trans quoting
  · exact noParen paren

theorem toward_paren (dead : DeadEnd goal) (toward : Toward goal c) (head : c.rest.head? = some ')') :
    c = goal := by
  rcases toward_head dead toward head with ⟨plain, -⟩ | ⟨blank, -⟩ | ⟨quoting, -⟩ | ⟨same, -⟩
  · exact absurd plain (by decide)
  · exact absurd blank (by decide)
  · exact absurd quoting (by decide)
  · exact same

theorem toward_past_plain {chars : List Char} (dead : DeadEnd goal)
    (plain : ∀ ch ∈ chars, isPlain ch = true) (toward : Toward goal c) (here : c.rest = chars ++ d.rest) :
    Toward goal d := by
  induction chars generalizing c with
  | nil => rwa [Cursor.ext_rest c d here] at toward
  | cons ch others ih =>
      obtain ⟨first, later⟩ := List.forall_mem_cons.mp plain
      have facts := plain_facts first
      refine ih later ?_ (rest_skip_cons here)
      rcases toward_head dead toward (congrArg List.head? here) with
        ⟨-, next⟩ | ⟨-, next⟩ | ⟨quoting, -⟩ | ⟨-, quoting | paren⟩
      · exact next
      · exact next
      · cases facts.2.symm.trans quoting
      · cases facts.2.symm.trans quoting
      · subst paren
        exact absurd first (by decide)

theorem remains_of_layout (some : layoutLength false false c.rest ≠ 0) : c.rest ≠ [] := by
  intro empty
  simp [empty, layoutLength] at some

theorem reads_joined_line {rest : List Char} (here : c.rest = '\\' :: '\n' :: rest) :
    (wordPart false).Reads c (.leaf .bareEscape []) (c.advance 2) := by
  have escape := @reads_bare_escape false '\n' rest
  rwa [← Cursor.eq_start here, ← Cursor.eq_start (rest_skip_pair here)] at escape

theorem toward_past_blanks (dead : DeadEnd goal) (c : Cursor) (uncommented : '#' ∉ c.rest)
    (toward : Toward goal c) : Toward goal c.pastBlanks := by
  by_cases idle : layoutLength false false c.rest = 0
  · rwa [Cursor.pastBlanks, idle, advance_none]
  · -- One blank or one joined line, and the layout behind it.
    have again : ∀ count, 0 < count → Toward goal (c.advance count) →
        layoutLength false false c.rest = count + layoutLength false false (c.advance count).rest →
        Toward goal c.pastBlanks := by
      intro count moves next whole
      have moved := c.advance_left_lt count (remains_of_layout idle) moves
      have behind : '#' ∉ (c.advance count).rest :=
        fun member => uncommented ((c.advance_suffix count).subset member)
      rw [past_blanks_step whole]
      exact toward_past_blanks dead (c.advance count) behind next
    have past_blank : ∀ {ch : Char}, ch ∈ [' ', '\t'] → c.rest.head? = some ch →
        Toward goal (c.advance 1) := by
      intro ch blank head
      obtain ⟨notQuoting, notParen⟩ := (by decide : ∀ ch ∈ [' ', '\t'], isQuoting ch = false ∧ ch ≠ ')') ch blank
      rcases toward_head dead toward head with ⟨-, next⟩ | ⟨-, next⟩ | ⟨quoting, -⟩ | ⟨-, quoting | paren⟩
      · exact next
      · exact next
      · cases notQuoting.symm.trans quoting
      · cases notQuoting.symm.trans quoting
      · exact absurd paren notParen
    obtain ⟨rest, here | here | here | here⟩ := blanks_start idle
    · refine again 1 Nat.one_pos (past_blank (by decide) (congrArg List.head? here)) ?_
      rw [rest_skip_cons here, here, layoutLength]
    · refine again 1 Nat.one_pos (past_blank (by decide) (congrArg List.head? here)) ?_
      rw [rest_skip_cons here, here, layoutLength]
    · simp [here] at uncommented
    · refine again 2 Nat.two_pos ?_ (by rw [rest_skip_pair here, here, layoutLength])
      have escape := reads_joined_line here
      rcases toward_head dead toward (congrArg List.head? here) with
        ⟨plain, -⟩ | ⟨blank, -⟩ | ⟨-, part, d, read, next⟩ | ⟨rfl, -⟩
      · exact absurd plain (by decide)
      · exact absurd blank (by decide)
      · rwa [← (gives_unique read escape).2]
      · rcases dead with stuck | last
        · exact absurd stuck.noPart (not_fails_of_gives escape)
        · simp [here] at last
termination_by c.left

end Places

section Ways

theorem toward_of_blanks (c : Cursor) (uncommented : '#' ∉ c.rest) (toward : Toward goal c.pastBlanks) :
    Toward goal c := by
  by_cases idle : layoutLength false false c.rest = 0
  · rwa [Cursor.pastBlanks, idle, advance_none] at toward
  · have again : ∀ count, 0 < count →
        layoutLength false false c.rest = count + layoutLength false false (c.advance count).rest →
        Toward goal (c.advance count) := by
      intro count moves whole
      have moved := c.advance_left_lt count (remains_of_layout idle) moves
      have behind : '#' ∉ (c.advance count).rest :=
        fun member => uncommented ((c.advance_suffix count).subset member)
      apply toward_of_blanks (c.advance count) behind
      rwa [← past_blanks_step whole]
    obtain ⟨rest, here | here | here | here⟩ := blanks_start idle
    · refine .blank (congrArg List.head? here) (by decide) (again 1 Nat.one_pos ?_)
      rw [rest_skip_cons here, here, layoutLength]
    · refine .blank (congrArg List.head? here) (by decide) (again 1 Nat.one_pos ?_)
      rw [rest_skip_cons here, here, layoutLength]
    · simp [here] at uncommented
    · refine .part (by rw [here]; rfl) (reads_joined_line here) (again 2 Nat.two_pos ?_)
      rw [rest_skip_pair here, here, layoutLength]
termination_by c.left

theorem toward_of_plain {chars : List Char} (plain : ∀ ch ∈ chars, isPlain ch = true)
    (here : c.rest = chars ++ d.rest) (toward : Toward goal d) : Toward goal c := by
  induction chars generalizing c with
  | nil => rwa [Cursor.ext_rest c d here]
  | cons ch others ih =>
      obtain ⟨first, later⟩ := List.forall_mem_cons.mp plain
      exact .plain (congrArg List.head? here) first (ih later (rest_skip_cons here))

theorem part_plain_or_quoting {part : Node} (read : (wordPart false).Reads c part d) :
    (∃ chars, (∀ ch ∈ chars, isPlain ch = true) ∧ c.rest = chars ++ d.rest) ∨
      ∃ ch, c.rest.head? = some ch ∧ isQuoting ch = true := by
  cases word_part_form read with
  | singleQuote _ here => exact Or.inr ⟨_, congrArg List.head? here, by decide⟩
  | doubleQuote head _ => exact Or.inr ⟨_, head, by decide⟩
  | bareEscape here => exact Or.inr ⟨_, congrArg List.head? here, by decide⟩
  | @unquoted _ chars _ plain _ here => exact Or.inl ⟨chars, by simpa [isPlain] using plain, here⟩
  | dollar head _ => exact Or.inr ⟨_, head, by decide⟩
  | tick head _ => exact Or.inr ⟨_, head, by decide⟩

theorem toward_of_part {part : Node} (read : (wordPart false).Reads c part d) (toward : Toward goal d) :
    Toward goal c := by
  rcases part_plain_or_quoting read with ⟨chars, plain, here⟩ | ⟨ch, head, quoting⟩
  · exact toward_of_plain plain here toward
  · exact .part (by rw [head]; exact quoting) read toward

theorem toward_of_word {node : Node} (uncommented : '#' ∉ c.rest) (read : (call .word).Reads c node d)
    (toward : Toward goal d) : Toward goal c := by
  obtain ⟨parts, e, items, -, rfl, -⟩ := reads_word ((reads_call .word c d node).mp read)
  have behind := reads_forward ((gives_many _ _ _ _).mpr items)
  have start := toward_of_blanks e (fun member => uncommented (behind.subset member)) toward
  clear read uncommented behind toward
  induction items with
  | stop _ => exact start
  | halt given _ => exact toward_of_part given start
  | more given _ _ ih => exact toward_of_part given (ih start)

theorem toward_of_words {words : List Node} (uncommented : '#' ∉ c.rest)
    (items : Items (reading grammar) (call .word) c words d) : Toward d c := by
  induction items with
  | stop _ => exact .here
  | halt given _ => exact toward_of_word uncommented given .here
  | more given _ _ ih =>
      exact toward_of_word uncommented given
        (ih fun member => uncommented ((reads_forward given).subset member))

end Ways

-- A parser that comes to no place outside the region from a place with less than a bound to come.
def Stays (goal : Cursor) (bound : Nat) {α : Type} (p : Parser α) : Prop :=
  ∀ c value d, c.left < bound → Region goal c → p.Reads c value d → Region goal d

variable {bound : Nat}

section Combinators

variable {α β : Type} {p q : Parser α} {next : α → Parser β}

theorem stays_of_toward (stays : ∀ c value d, '#' ∉ c.rest → Toward goal c → p.Reads c value d →
    Toward goal d ∨ d.rest = []) : Stays goal bound p := by
  intro c value d _ region read
  have behind := reads_forward read
  refine ⟨fun member => region.uncommented (behind.subset member), ?_⟩
  rcases region.place with toward | whole
  · exact stays c value d region.uncommented toward read
  · rw [whole, List.suffix_nil] at behind
    exact Or.inr behind

theorem stays_pure (a : α) : Stays goal bound (pure a) := by
  intro c value d _ region read
  rwa [← ((gives_pure _ _ _ _).mp read).2]

theorem stays_fail : Stays goal bound (fail : Parser α) :=
  fun _ _ _ _ _ read => absurd read (gives_fail _ _ _)

theorem stays_refuse (e : Expected) : Stays goal bound (refuse e : Parser α) :=
  fun _ _ _ _ _ read => absurd read (gives_refuse _ _ _ _)

theorem stays_bind (first : Stays goal bound p) (later : ∀ a, Stays goal bound (next a)) :
    Stays goal bound (p >>= next) := by
  intro c value d near region read
  obtain ⟨a, e, given, after⟩ := (gives_bind _ _ _ _ _).mp read
  exact later a e value d (Nat.lt_of_le_of_lt (reads_left_le given) near) (first c a e near region given) after

theorem stays_behind (moves : p.Moves) (first : Stays goal (bound + 1) p)
    (later : ∀ a, Stays goal bound (next a)) : Stays goal (bound + 1) (p >>= next) := by
  intro c value d near region read
  obtain ⟨a, e, given, after⟩ := (gives_bind _ _ _ _ _).mp read
  have moved := moves c a e given
  exact later a e value d (by omega) (first c a e near region given) after

theorem stays_look {next : List Char → Parser β} (later : ∀ text, Stays goal bound (next text)) :
    Stays goal bound (look >>= next) :=
  fun c value d near region read => later c.rest c value d near region ((gives_look_bind _ _ _ _).mp read)

theorem stays_or_else (first : Stays goal bound p) (second : Stays goal bound q) :
    Stays goal bound (p <|> q) := by
  intro c value d near region read
  rcases (gives_or_else _ _ _ _ _).mp read with given | ⟨-, given⟩
  · exact first c value d near region given
  · exact second c value d near region given

theorem stays_attempt (inner : Stays goal bound p) : Stays goal bound (attempt p) := by
  intro c tried d near region read
  rcases (gives_attempt _ _ _ _).mp read with ⟨a, -, given⟩ | ⟨-, -, rfl⟩
  · exact inner c a d near region given
  · exact region

theorem stays_atomic (inner : Stays goal bound p) : Stays goal bound (atomic p) :=
  fun c value d near region read => inner c value d near region ((gives_atomic _ _ _ _).mp read)

theorem stays_nested (inner : Stays goal bound p) : Stays goal bound (nested p) := inner

theorem stays_optional (inner : Stays goal bound p) : Stays goal bound (optional p) :=
  stays_bind (stays_attempt inner) fun _ => stays_pure ()

theorem stays_many (inner : Stays goal bound p) : Stays goal bound (many p) := by
  intro c values d near region read
  have items := (gives_many _ _ _ _).mp read
  clear read
  induction items with
  | stop _ => exact region
  | halt given _ => exact inner _ _ _ near region given
  | more given progress _ ih => exact ih (Nat.lt_trans progress near) (inner _ _ _ near region given)

theorem stays_rounds {turn : Parser (Turn α)} (inner : Stays goal bound turn) :
    Stays goal bound (rounds turn) := by
  intro c values d near region read
  have turns := (gives_rounds _ _ _ _).mp read
  clear read
  induction turns with
  | stop given => exact inner _ _ _ near region given
  | last given => exact inner _ _ _ near region given
  | halt given _ => exact inner _ _ _ near region given
  | more given progress _ ih => exact ih (Nat.lt_trans progress near) (inner _ _ _ near region given)

end Combinators

section Tokens

theorem stays_blanks (dead : DeadEnd goal) : Stays goal bound blanks := by
  refine stays_of_toward fun c _ d uncommented toward read => Or.inl ?_
  rw [← (gives_blanks _ _ _).mp read]
  exact toward_past_blanks dead c uncommented toward

-- No operator stands on the way but the last closing parenthesis.
theorem no_operator_toward {text : String} {ch : Char} (dead : DeadEnd goal)
    (starts : text.toList.head? = some ch) (operator : ch ∈ ['\n', ';', '&', '|', '<', '>', '('])
    (toward : Toward goal c) : ¬ text.toList <+: c.rest := by
  intro here
  have nonempty : text.toList ≠ [] := by
    intro empty
    simp [empty] at starts
  exact not_toward_operator dead ((head_of_start here nonempty).trans starts) operator toward

theorem stays_operator {text : String} {ch : Char} (dead : DeadEnd goal)
    (starts : text.toList.head? = some ch) (sign : ch ∈ ['\n', ';', '&', '|', '<', '>', '(']) :
    Stays goal bound (operator text) := by
  refine stays_of_toward fun c _ d _ toward read => ?_
  exact absurd ((gives_operator _ _ _ _).mp read).1 (no_operator_toward dead starts sign toward)

theorem stays_lone {ch : Char} (dead : DeadEnd goal) (sign : ch ∈ ['\n', ';', '&', '|', '<', '>', '(']) :
    Stays goal bound (loneOperator ch) := by
  refine stays_of_toward fun c _ d _ toward read => ?_
  exact absurd toward (not_toward_operator dead ((gives_lone_operator _ _ _ _).mp read).1.1 sign)

theorem stays_newlines (dead : DeadEnd goal) : Stays goal bound newlines := by
  refine stays_of_toward fun c _ d _ toward read => ?_
  exact absurd toward (not_toward_operator dead ((gives_newlines _ _ _).mp read).1 (by decide))

theorem stays_line_break (dead : DeadEnd goal) : Stays goal bound lineBreak :=
  stays_optional (stays_newlines dead)

theorem ends_behind_closing (dead : DeadEnd goal) (toward : Toward goal c)
    (read : (operator ")").Reads c () d) : d.rest = [] := by
  obtain ⟨here, rfl⟩ := (gives_operator _ _ _ _).mp read
  have head : c.rest.head? = some ')' := head_of_start here (by decide)
  obtain rfl := toward_paren dead toward head
  rcases dead with stuck | last
  · exact absurd stuck (not_stuck_of_head head (by decide))
  · have empty : (c.advance 1).rest = [] := rest_skip_cons last
    rw [Cursor.pastBlanks, Cursor.rest_advance]
    change ((c.advance 1).rest).drop _ = []
    rw [empty, List.drop_nil]

theorem stays_closing (dead : DeadEnd goal) : Stays goal bound (operator ")") :=
  stays_of_toward fun _ _ _ _ toward read => Or.inr (ends_behind_closing dead toward read)

theorem reserved_words_plain : ∀ word ∈ reservedWords, word.toList ≠ [] ∧
    ∀ ch ∈ word.toList, isPlain ch = true := by decide +kernel

theorem stays_keyword {word : String} (dead : DeadEnd goal) (known : word ∈ reservedWords) :
    Stays goal bound (keyword word) := by
  refine stays_of_toward fun c _ d uncommented toward read => Or.inl ?_
  obtain ⟨reserved, rfl⟩ := (gives_keyword _ _ _ _).mp read
  have here := rest_past_text (starts_of_starts_reserved _ _ reserved)
  have passed := toward_past_plain dead (reserved_words_plain word known).2 toward here
  rw [String.length_toList] at passed
  exact toward_past_blanks dead _ (fun member => uncommented ((c.advance_suffix _).subset member)) passed

theorem name_is_plain {chars : List Char} (read : name.Reads c chars d) :
    (∀ ch ∈ chars, isPlain ch = true) ∧ c.rest = chars ++ d.rest := by
  have taken : (takeWhile continuesName).Reads c chars d :=
    (gives_take_while _ _ _ _).mpr ((gives_name _ _ _).mp read).2
  obtain ⟨whole, continues, -⟩ := take_while_form taken
  exact ⟨fun ch member => plain_of_continues (continues ch member), whole⟩

theorem toward_past_name (dead : DeadEnd goal) {chars : List Char} (toward : Toward goal c)
    (read : name.Reads c chars d) : Toward goal d := by
  obtain ⟨plain, here⟩ := name_is_plain read
  exact toward_past_plain dead plain toward here

theorem stays_name (dead : DeadEnd goal) : Stays goal bound name :=
  stays_of_toward fun _ _ _ _ toward read => Or.inl (toward_past_name dead toward read)

theorem stays_part (dead : DeadEnd goal) : Stays goal bound (wordPart false) := by
  refine stays_of_toward fun c part d _ toward read => Or.inl ?_
  rcases part_plain_or_quoting read with ⟨chars, plain, here⟩ | ⟨ch, head, quoting⟩
  · exact toward_past_plain dead plain toward here
  · rcases toward_head dead toward head with ⟨plain, -⟩ | ⟨blank, -⟩ | ⟨-, other, e, found, next⟩ | ⟨rfl, -⟩
    · cases quoting.symm.trans (plain_facts plain).2
    · cases quoting.symm.trans ((by decide : ∀ ch ∈ [' ', '\t'], isQuoting ch = false) ch blank)
    · rwa [(gives_unique read found).2]
    · rcases dead with stuck | last
      · exact absurd stuck.noPart (not_fails_of_gives read)
      · rw [last] at head
        obtain rfl := Option.some.inj head
        exact absurd quoting (by decide)

theorem stays_parts (dead : DeadEnd goal) : Stays goal bound (wordParts false) := stays_many (stays_part dead)

theorem stays_redirection (dead : DeadEnd goal) : Stays goal bound redirection := by
  refine stays_of_toward fun c node d _ toward read => ?_
  cases redirection_form read with
  | @operation e _ descriptor text kind mark target described operator here _ _ =>
      obtain ⟨ch, starts, sign⟩ : ∃ ch, text.toList.head? = some ch ∧
          ch ∈ ['\n', ';', '&', '|', '<', '>', '('] := by
        rcases redirection_operator_starts text kind operator with starts | starts
        · exact ⟨_, starts, by decide⟩
        · exact ⟨_, starts, by decide⟩
      refine absurd here (no_operator_toward dead starts sign ?_)
      rcases described with ⟨-, rfl⟩ | ⟨digits, -, isDigit, whole⟩
      · exact toward
      · have plain : ∀ ch ∈ digits, isPlain ch = true := by
          intro ch member
          exact plain_of_continues (by simp [continuesName, Char.isAlphanum, isDigit ch member])
        exact toward_past_plain dead plain toward whole

theorem stays_assignment (dead : DeadEnd goal) : Stays goal bound assignment := by
  refine stays_atomic (stays_bind (stays_name dead) fun parameter => stays_bind ?_ fun _ => ?_)
  · refine stays_of_toward fun c _ d _ toward read => Or.inl ?_
    obtain ⟨here, rfl⟩ := (gives_literal _ _ _ _).mp read
    exact toward_past_plain dead (by decide) toward (rest_past_text here)
  · exact stays_bind (stays_parts dead) fun _ => stays_bind (stays_blanks dead) fun _ => stays_pure _

end Tokens

end ShellLine.Closure
