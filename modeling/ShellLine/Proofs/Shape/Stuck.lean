import ShellLine.Proofs.Forms.Command
import ShellLine.Proofs.Grammar.Command

set_option autoImplicit false

namespace ShellLine.Grammar

open ShellLine.Parser

def isQuoting (ch : Char) : Bool := ch ∈ ['$', backtick, '\\', '"', '\'']

structure Stuck (c : Cursor) : Prop where
  quoting : c.rest.head?.any isQuoting = true
  noPart : (wordPart false).Rejects c

def isPlainStart (text : List Char) : Bool := text.head?.any fun ch => !isQuoting ch

theorem not_quoting_of_continues {ch : Char} (continues : continuesName ch = true) :
    isQuoting ch = false := by
  have every : ∀ ch ∈ ['$', backtick, '\\', '"', '\''], continuesName ch = false := by decide
  rw [Bool.eq_false_iff]
  intro quoting
  cases continues.symm.trans (every ch (by simpa [isQuoting] using quoting))

section Stuck

variable {c d : Cursor}

theorem not_stuck_of_head {ch : Char} (head : c.rest.head? = some ch)
    (plain : isQuoting ch = false) : ¬ Stuck c := by
  intro stuck
  have quoting := stuck.quoting
  rw [head] at quoting
  cases plain.symm.trans quoting

theorem not_stuck_of_text {text : List Char} (plain : isPlainStart text = true)
    (here : text <+: c.rest) : ¬ Stuck c := by
  obtain ⟨behind, whole⟩ := here
  cases text with
  | nil => cases plain
  | cons ch others =>
      have head : c.rest.head? = some ch := by
        rw [← whole]
        rfl
      exact not_stuck_of_head head (by simpa [isPlainStart] using plain)

theorem past_blanks_of_stuck (stuck : Stuck c) : c.pastBlanks = c := by
  have idle : layoutLength false false c.rest = 0 := by
    refine Decidable.byContradiction fun blanks => ?_
    obtain ⟨rest, here | here | here | here⟩ := blanks_start blanks
    · exact not_stuck_of_head (congrArg List.head? here) (by decide) stuck
    · exact not_stuck_of_head (congrArg List.head? here) (by decide) stuck
    · exact not_stuck_of_head (congrArg List.head? here) (by decide) stuck
    · -- An escaped newline is a part of a word.
      have behind : (c.advance 1).rest = '\n' :: rest := rest_skip_cons here
      have rejected := stuck.noPart
      simp [wordPart, here, bareEscape, behind] at rejected
  apply Cursor.ext_rest
  rw [Cursor.pastBlanks, idle, Cursor.rest_advance, List.drop_zero]

theorem past_break_of_stuck (stuck : Stuck c) : c.pastBreak = c := by
  rw [Cursor.pastBreak, if_neg]
  exact fun newline => not_stuck_of_head newline (by decide) stuck

theorem not_stuck_at_end (whole : c.rest = []) : ¬ Stuck c := by
  intro stuck
  have quoting := stuck.quoting
  rw [whole] at quoting
  cases quoting

variable {calls : Rule → Cursor → Reading Node}

theorem not_stuck_of_keyword {word : String} (plain : isPlainStart word.toList = true)
    (given : (keyword word).Gives calls c () d) : ¬ Stuck c :=
  not_stuck_of_text plain (starts_of_starts_reserved _ _ ((gives_keyword word c d ()).mp given).1)

theorem not_stuck_of_operator {text : String} (plain : isPlainStart text.toList = true)
    (given : (operator text).Gives calls c () d) : ¬ Stuck c :=
  not_stuck_of_text plain ((gives_operator text c d ()).mp given).1

theorem not_stuck_of_separator {lines : Bool} {kind : Separator}
    (form : SeparatorForm lines c kind d) : ¬ Stuck c := by
  cases form with
  | background alone => exact not_stuck_of_head alone.1 (by decide)
  | semicolon alone => exact not_stuck_of_head alone.1 (by decide)
  | newline _ here => exact not_stuck_of_head here (by decide)

theorem not_stuck_of_word {node : Node} (read : word.Reads c node d) : ¬ Stuck c :=
  fun stuck => no_word_at_end stuck.noPart read

theorem not_stuck_of_redirection {node : Node} (read : redirection.Reads c node d) : ¬ Stuck c := by
  cases redirection_form read with
  | @operation e _ descriptor text kind mark target described operator here _ _ =>
      have every : ∀ entry ∈ redirectionOperators, isPlainStart entry.1.toList = true := by decide
      have notThere : ¬ Stuck e := not_stuck_of_text (every (text, kind) operator) here
      rcases described with ⟨-, rfl⟩ | ⟨digits, -, isDigit, whole⟩
      · exact notThere
      · cases digits with
        | nil =>
            rw [Cursor.ext_rest c e whole]
            exact notThere
        | cons ch others =>
            have digit := isDigit ch (List.mem_cons_self ..)
            refine not_stuck_of_head (congrArg List.head? whole) (not_quoting_of_continues ?_)
            simp [continuesName, Char.isAlphanum, digit]

end Stuck

-- A reserved word that was not seen as one is cut short by a quote that cannot be read.
theorem stuck_behind_reserved {c d : Cursor} {node : Node} {chars : List Char}
    (read : word.Reads c node d) (unreserved : reservedAhead c.rest = false)
    (alone : node = .ofNodes .word [.leaf .unquotedLiteral chars])
    (reserved : String.ofList chars ∈ reservedWords) : Stuck d := by
  obtain ⟨parts, e, items, -, rfl, rfl⟩ := word_form read
  obtain ⟨-, rfl⟩ := Node.of_nodes_injective _ _ _ _ alone
  -- The word has one part, so no other could be read behind it.
  obtain ⟨partRead, rejected⟩ : (wordPart false).Reads c (.leaf .unquotedLiteral chars) e ∧
      (wordPart false).Rejects e := by
    cases items with
    | halt given stays => exact absurd (word_part_moves given) stays
    | more given _ others =>
        cases others with
        | stop failed => exact ⟨given, failed⟩
  have stuck : Stuck e := by
    refine ⟨?_, rejected⟩
    cases word_part_form partRead with
    | dollar _ given => cases (dollar_expansion_kind given)
    | tick _ given => cases (backquote_kind given)
    | unquoted nonempty plain ends here =>
        have apart : e.rest.head?.all isDelimiter = false := by
          refine Bool.eq_false_iff.mpr fun delimited => Bool.eq_false_iff.mp unreserved ?_
          rw [reservedAhead, List.any_eq_true]
          refine ⟨_, reserved, ?_⟩
          rw [String.toList_ofList, startsReserved, here, List.drop_left, delimited,
            List.isPrefixOf_iff_prefix.mpr (List.prefix_append chars e.rest)]
          rfl
        cases head : e.rest.head? with
        | none => simp [head] at apart
        | some ch =>
            have breaks := ends ch head
            rw [head] at apart
            simp_all [isWordBreak, isQuoting]
  rwa [past_blanks_of_stuck stuck]

end ShellLine.Grammar
