import ShellLine.Grammar.Token
import ShellLine.Proofs.Reading.Gives

set_option autoImplicit false

namespace ShellLine

def Cursor.pastBlanks (c : Cursor) : Cursor := c.advance (Grammar.layoutLength false false c.rest)

def Cursor.pastLines (c : Cursor) : Cursor := c.advance (Grammar.layoutLength true false c.rest)

def Cursor.pastBreak (c : Cursor) : Cursor :=
  if c.rest.head? = some '\n' then c.pastLines else c

namespace Grammar

open ShellLine.Parser

instance (priority := high) decidableForallChars {p : Char → Prop} [DecidablePred p]
    (chars : List Char) : Decidable (∀ ch ∈ chars, p ch) := List.decidableBAll p chars

instance (priority := high) decidableExistsChars {p : Char → Prop} [DecidablePred p]
    (chars : List Char) : Decidable (∃ ch ∈ chars, p ch) := List.decidableBEx p chars

theorem layout_length_drop (lines comment : Bool) (text : List Char) :
    layoutLength lines false (text.drop (layoutLength lines comment text)) = 0 := by
  fun_induction layoutLength lines comment text with
  | case1 => rfl
  | case2 _ rest _ ih | case4 _ rest _ ih | case5 rest ih | case6 rest ih | case7 rest ih =>
      rwa [Nat.add_comm, List.drop_succ_cons]
  | case8 rest ih => rwa [Nat.add_comm, List.drop_succ_cons, List.drop_succ_cons]
  | case3 _ rest onOneLine => simp [layoutLength, onOneLine]
  | case9 rest => simp_all [layoutLength]

theorem comment_step {lines : Bool} {ch : Char} (other : ch ≠ '\n') (rest : List Char) :
    layoutLength lines true (ch :: rest) = layoutLength lines true rest + 1 := by
  rw [layoutLength, Nat.add_comm]
  exact other

theorem comment_stops (text : List Char) :
    (text.drop (layoutLength false true text)).head?.all (· = '\n') = true := by
  induction text with
  | nil => rfl
  | cons ch others ih =>
      by_cases newline : ch = '\n'
      · subst newline
        rfl
      · rwa [comment_step newline, List.drop_succ_cons]

theorem comment_on_one_line (text : List Char) : '\n' ∉ text.take (layoutLength false true text) := by
  induction text with
  | nil => simp
  | cons ch others ih =>
      by_cases newline : ch = '\n'
      · subst newline
        simp [layoutLength]
      · rw [comment_step newline, List.take_succ_cons]
        exact List.not_mem_cons_of_ne_of_not_mem (Ne.symm newline) ih

theorem blanks_start {text : List Char} (blanks : layoutLength false false text ≠ 0) :
    ∃ rest, text = ' ' :: rest ∨ text = '\t' :: rest ∨ text = '#' :: rest ∨
      text = '\\' :: '\n' :: rest := by
  unfold layoutLength at blanks
  split at blanks <;> simp_all

theorem rest_past_comment {c : Cursor} {rest : List Char} (here : c.rest = '#' :: rest) :
    c.pastBlanks.rest = rest.drop (layoutLength false true rest) := by
  rw [Cursor.pastBlanks, Cursor.rest_advance, here, layoutLength, Nat.add_comm, List.drop_succ_cons]

theorem advance_none (c : Cursor) : c.advance 0 = c := by
  apply Cursor.ext_rest
  rw [Cursor.rest_advance, List.drop_zero]

theorem past_blanks_step {c : Cursor} {count : Nat} (whole : layoutLength false false c.rest =
    count + layoutLength false false (c.advance count).rest) :
    c.pastBlanks = (c.advance count).pastBlanks := by
  apply Cursor.ext_rest
  rw [Cursor.pastBlanks, Cursor.pastBlanks, Cursor.rest_advance, Cursor.rest_advance,
    Cursor.rest_advance, List.drop_drop, whole, Cursor.rest_advance]

theorem past_blanks_idle (c : Cursor) : layoutLength false false c.pastBlanks.rest = 0 := by
  rw [Cursor.pastBlanks, Cursor.rest_advance]
  exact layout_length_drop false false c.rest

theorem past_blanks_left_le (c : Cursor) : c.pastBlanks.left ≤ c.left :=
  Cursor.left_le_of_suffix _ _ (c.advance_suffix _)

theorem lines_behind_blanks (comment : Bool) (text : List Char) :
    text.drop (layoutLength true comment text) =
      if (text.drop (layoutLength false comment text)).head? = some '\n' then
        (text.drop (layoutLength false comment text)).drop
          (layoutLength true false (text.drop (layoutLength false comment text)))
      else text.drop (layoutLength false comment text) := by
  fun_induction layoutLength false comment text with
  | case1 comment => simp [layoutLength]
  | case2 _ rest between ih => cases between
  | case3 _ rest single => simp [layoutLength]
  | case4 ch rest noNewline ih =>
      simp only [comment_step noNewline, Nat.add_comm 1, List.drop_succ_cons]
      exact ih
  | case5 rest ih | case6 rest ih | case7 rest ih =>
      simp only [layoutLength, Nat.add_comm 1, List.drop_succ_cons]
      exact ih
  | case8 rest ih =>
      simp only [layoutLength, Nat.add_comm 2, List.drop_succ_cons]
      exact ih
  | case9 text nonempty noNewline noSpace noTab noComment noEscape =>
      obtain ⟨first, rest, rfl⟩ := List.exists_cons_of_ne_nil nonempty
      simp_all [layoutLength]

theorem past_blanks_and_break (c : Cursor) : c.pastBlanks.pastBreak = c.pastLines := by
  apply Cursor.ext_rest
  have behind : c.pastBlanks.rest = c.rest.drop (layoutLength false false c.rest) := c.rest_advance _
  have lines := lines_behind_blanks false c.rest
  rw [← behind] at lines
  rw [Cursor.pastLines, Cursor.rest_advance, lines, Cursor.pastBreak]
  split
  · rw [Cursor.pastLines, Cursor.rest_advance]
  · rfl

theorem advance_text_left_lt (text : List Char) (c : Cursor) (nonempty : text ≠ [])
    (here : text <+: c.rest) : (c.advance text.length).left < c.left := by
  refine c.advance_left_lt text.length ?_ (List.length_pos_iff.mpr nonempty)
  intro empty
  rw [empty, List.prefix_nil] at here
  exact nonempty here

theorem starts_of_starts_reserved (word text : List Char)
    (reserved : startsReserved word text = true) : word <+: text := by
  rw [startsReserved] at reserved
  exact List.isPrefixOf_iff_prefix.mp (Bool.and_eq_true _ _ ▸ reserved).1

section

variable {calls : Rule → Cursor → Reading Node}

@[simp] theorem gives_blanks (c d : Cursor) (u : Unit) :
    blanks.Gives calls c u d ↔ c.pastBlanks = d := by
  simp [blanks, Cursor.pastBlanks]

@[simp] theorem fails_blanks (c : Cursor) : ¬ blanks.Fails calls c := by
  simp [blanks]

@[simp] theorem gives_newlines (c d : Cursor) (u : Unit) :
    newlines.Gives calls c u d ↔ c.rest.head? = some '\n' ∧ c.pastLines = d := by
  by_cases newline : c.rest.head? = some '\n' <;> simp [newlines, Cursor.pastLines, newline]

@[simp] theorem fails_newlines (c : Cursor) :
    newlines.Fails calls c ↔ c.rest.head? ≠ some '\n' := by
  by_cases newline : c.rest.head? = some '\n' <;> simp [newlines, newline]

@[simp] theorem gives_line_break (c d : Cursor) (u : Unit) :
    lineBreak.Gives calls c u d ↔ c.pastBreak = d := by
  by_cases newline : c.rest.head? = some '\n' <;> simp [lineBreak, Cursor.pastBreak, newline]

@[simp] theorem fails_line_break (c : Cursor) : ¬ lineBreak.Fails calls c := by
  simp [lineBreak]

@[simp] theorem gives_literal (text : String) (c d : Cursor) (u : Unit) :
    (literal text).Gives calls c u d ↔ text.toList <+: c.rest ∧ c.advance text.length = d := by
  by_cases here : text.toList <+: c.rest <;> simp [literal, here]

@[simp] theorem fails_literal (text : String) (c : Cursor) :
    (literal text).Fails calls c ↔ ¬ text.toList <+: c.rest := by
  by_cases here : text.toList <+: c.rest <;> simp [literal, here]

@[simp] theorem gives_operator (text : String) (c d : Cursor) (u : Unit) :
    (operator text).Gives calls c u d ↔
      text.toList <+: c.rest ∧ (c.advance text.length).pastBlanks = d := by
  simp [operator, and_assoc]

@[simp] theorem fails_operator (text : String) (c : Cursor) :
    (operator text).Fails calls c ↔ ¬ text.toList <+: c.rest := by
  simp [operator]

-- Whether an operator of one character stands at the start of a text and not twice.
def standsAlone (ch : Char) (text : List Char) : Prop :=
  text.head? = some ch ∧ text.tail.head? ≠ some ch

@[simp] theorem gives_lone_operator (ch : Char) (c d : Cursor) (u : Unit) :
    (loneOperator ch).Gives calls c u d ↔
      standsAlone ch c.rest ∧ (c.advance 1).pastBlanks = d := by
  rw [loneOperator, gives_look_bind, standsAlone]
  cases c.rest with
  | nil => simp
  | cons first others =>
      change (if first = ch ∧ others.head? ≠ some ch then _ else _ : Parser Unit).Gives calls c u d ↔ _
      by_cases alone : first = ch ∧ others.head? ≠ some ch
      · simp [alone]
      · rw [if_neg alone]
        simp only [gives_refuse, false_iff, List.head?_cons, List.tail_cons, Option.some.injEq]
        exact fun both => alone both.1

@[simp] theorem fails_lone_operator (ch : Char) (c : Cursor) :
    (loneOperator ch).Fails calls c ↔ ¬ standsAlone ch c.rest := by
  constructor
  · rintro failed alone
    exact not_fails_of_gives ((gives_lone_operator ch c _ ()).mpr ⟨alone, rfl⟩) failed
  · intro notAlone
    rcases gives_or_fails calls (loneOperator ch) c with ⟨u, d, given⟩ | failed
    · exact absurd ((gives_lone_operator ch c d u).mp given).1 notAlone
    · exact failed

@[simp] theorem gives_keyword (word : String) (c d : Cursor) (u : Unit) :
    (keyword word).Gives calls c u d ↔
      startsReserved word.toList c.rest = true ∧ (c.advance word.length).pastBlanks = d := by
  by_cases here : startsReserved word.toList c.rest = true <;> simp [keyword, here]

@[simp] theorem fails_keyword (word : String) (c : Cursor) :
    (keyword word).Fails calls c ↔ startsReserved word.toList c.rest = false := by
  by_cases here : startsReserved word.toList c.rest = true <;> simp [keyword, here]

@[simp] theorem gives_name (c d : Cursor) (chars : List Char) :
    name.Gives calls c chars d ↔
      c.rest.head?.any startsName = true ∧ c.rest.takeWhile continuesName = chars ∧
        c.advance (c.rest.takeWhile continuesName).length = d := by
  by_cases starts : c.rest.head?.any startsName = true <;> simp [name, starts]

@[simp] theorem fails_name (c : Cursor) :
    name.Fails calls c ↔ c.rest.head?.any startsName = false := by
  by_cases starts : c.rest.head?.any startsName = true <;> simp [name, starts]

theorem is_alpha_iff (ch : Char) :
    ch.isAlpha = true ↔ (65 ≤ ch.val ∧ ch.val ≤ 90) ∨ (97 ≤ ch.val ∧ ch.val ≤ 122) := by
  change (decide (65 ≤ ch.val ∧ ch.val ≤ 90) || (decide (97 ≤ ch.val) && decide (ch.val ≤ 122))) = true ↔ _
  simp

theorem continues_of_starts (ch : Char) (starts : startsName ch = true) :
    continuesName ch = true := by
  rw [startsName] at starts
  rw [continuesName, Char.isAlphanum]
  simp_all only [Bool.or_eq_true]
  exact starts.imp_left Or.inl

end

end Grammar

end ShellLine
