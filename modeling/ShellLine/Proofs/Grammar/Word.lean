import ShellLine.Grammar.Rules
import ShellLine.Proofs.Grammar.Expansion

set_option autoImplicit false

namespace ShellLine

theorem Cursor.left_lt_of_passed (c d : Cursor) (passed : List Char) (nonempty : passed ≠ [])
    (here : c.rest = passed ++ d.rest) : d.left < c.left := by
  rw [c.left_eq, d.left_eq, here, Text.byte_length_append]
  have positive := Text.length_le_byte_length passed
  have length := List.length_pos_iff.mpr nonempty
  omega

namespace Grammar

open ShellLine.Parser

inductive QuotedTurn (c : Cursor) : Turn Child → Cursor → Prop
  | close {d : Cursor} (here : c.rest = '"' :: d.rest) : QuotedTurn c .stop d
  | run {d : Cursor} {chars : List Char} (nonempty : chars ≠ [])
      (plain : ∀ ch ∈ chars, isDoubleQuotedText ch = true) (here : c.rest = chars ++ d.rest) :
      QuotedTurn c (.more (.text chars)) d
  | kept {d : Cursor} (here : c.rest = '\\' :: d.rest)
      (other : ∀ ch, d.rest.head? = some ch → isDoubleQuotedEscape ch = false ∧ ch ≠ '\n') :
      QuotedTurn c (.more (.text ['\\'])) d
  | escape {d : Cursor} {ch : Char} (escaped : isDoubleQuotedEscape ch = true)
      (here : c.rest = '\\' :: ch :: d.rest) :
      QuotedTurn c (.more (.node (.leaf .doubleQuotedEscape [ch]))) d
  | joined {d : Cursor} (here : c.rest = '\\' :: '\n' :: d.rest) :
      QuotedTurn c (.more (.node (.leaf .doubleQuotedEscape []))) d
  | expansion {d : Cursor} {inner : Node} (expands : inner.kind.isExpansion = true)
      (moves : d.left < c.left) : QuotedTurn c (.more (.node inner)) d

theorem backquote_kind {calls : Rule → Cursor → Reading Node} {inDoubleQuote : Bool} {c d : Cursor}
    {node : Node} (given : (backquote inDoubleQuote).Gives calls c node d) :
    node.kind.isExpansion = true := by
  obtain ⟨parts, -, rfl⟩ := backquote_form given
  cases inDoubleQuote <;> rfl

theorem backquote_moves {inDoubleQuote : Bool} {c d : Cursor} {node : Node} (remains : c.rest ≠ [])
    (read : (backquote inDoubleQuote).Reads c node d) : d.left < c.left := by
  simp only [backquote, gives_atomic] at read
  exact skip_first_moves remains read

theorem reads_double_quoted_part {c d : Cursor} {turn : Turn Child}
    (read : doubleQuotedPart.Reads c turn d) : QuotedTurn c turn d := by
  cases double_quoted_part_form read with
  | close here => exact .close here
  | run nonempty plain _ here => exact .run nonempty plain here
  | kept here other => exact .kept here other
  | escape escaped here => exact .escape escaped here
  | joined here => exact .joined here
  | dollar head given =>
      exact .expansion (dollar_expansion_kind given) (dollar_expansion_moves (ne_nil_of_head head) given)
  | tick head given => exact .expansion (backquote_kind given) (backquote_moves (ne_nil_of_head head) given)

inductive PartRead (braced : Bool) (c : Cursor) : Node → Cursor → Prop
  | singleQuote {d : Cursor} {chars : List Char} (closed : '\'' ∉ chars)
      (here : c.rest = '\'' :: chars ++ '\'' :: d.rest) :
      PartRead braced c (.leaf .singleQuote chars) d
  | doubleQuote {d : Cursor} {parts : List Child} (opened : c.rest.head? = some '"')
      (turns : Turns (reading grammar) doubleQuotedPart (c.advance 1) parts d) :
      PartRead braced c (quotedNode .doubleQuote parts) d
  | bareEscape {d : Cursor} {ch : Char} (here : c.rest = '\\' :: ch :: d.rest) :
      PartRead braced c (.leaf .bareEscape (if ch = '\n' then [] else [ch])) d
  | unquoted {d : Cursor} {chars : List Char} (nonempty : chars ≠ [])
      (plain : ∀ ch ∈ chars, isWordBreak braced ch = false)
      (ends : ∀ ch, d.rest.head? = some ch → isWordBreak braced ch = true)
      (here : c.rest = chars ++ d.rest) : PartRead braced c (.leaf .unquotedLiteral chars) d
  | expansion {d : Cursor} {inner : Node} (expands : inner.kind.isExpansion = true)
      (moves : d.left < c.left) : PartRead braced c inner d

theorem reads_word_part {braced : Bool} {c d : Cursor} {part : Node}
    (read : (wordPart braced).Reads c part d) : PartRead braced c part d := by
  cases word_part_form read with
  | singleQuote closed here => exact .singleQuote closed here
  | doubleQuote opened turns => exact .doubleQuote opened turns
  | bareEscape here => exact .bareEscape here
  | unquoted nonempty plain ends here => exact .unquoted nonempty plain ends here
  | dollar head given =>
      exact .expansion (dollar_expansion_kind given) (dollar_expansion_moves (ne_nil_of_head head) given)
  | tick head given => exact .expansion (backquote_kind given) (backquote_moves (ne_nil_of_head head) given)

theorem quoted_turn_moves {c d : Cursor} {child : Child} (turn : QuotedTurn c (.more child) d) :
    d.left < c.left := by
  cases turn with
  | run nonempty _ here => exact c.left_lt_of_passed d _ nonempty here
  | kept here _ => exact c.left_lt_of_passed d ['\\'] (List.cons_ne_nil _ _) here
  | @escape _ ch _ here => exact c.left_lt_of_passed d ['\\', ch] (List.cons_ne_nil _ _) here
  | joined here => exact c.left_lt_of_passed d ['\\', '\n'] (List.cons_ne_nil _ _) here
  | expansion _ moves => exact moves

theorem part_read_moves {braced : Bool} {c d : Cursor} {part : Node}
    (read : PartRead braced c part d) : d.left < c.left := by
  cases read with
  | @singleQuote _ chars _ here =>
      apply c.left_lt_of_passed d ('\'' :: chars ++ ['\'']) (List.cons_ne_nil _ _)
      rw [here, List.append_assoc]
      rfl
  | @doubleQuote _ parts opened turns =>
      have moved := c.advance_left_lt 1 (ne_nil_of_head opened) Nat.one_pos
      have passed := reads_left_le ((gives_rounds doubleQuotedPart _ d parts).mpr turns)
      omega
  | @bareEscape _ ch here => exact c.left_lt_of_passed d ['\\', ch] (List.cons_ne_nil _ _) here
  | unquoted nonempty _ _ here => exact c.left_lt_of_passed d _ nonempty here
  | expansion _ moves => exact moves

theorem word_part_moves {braced : Bool} {c d : Cursor} {part : Node}
    (read : (wordPart braced).Reads c part d) : d.left < c.left :=
  part_read_moves (reads_word_part read)

theorem reads_word {c d : Cursor} {node : Node} (read : word.Reads c node d) :
    ∃ parts e, Items (reading grammar) (wordPart false) c parts e ∧ parts ≠ [] ∧
      e.pastBlanks = d ∧ node = .ofNodes .word parts := word_form read

theorem word_kind {c d : Cursor} {node : Node} (read : word.Reads c node d) :
    node.kind = .word := by
  obtain ⟨parts, e, -, -, -, rfl⟩ := reads_word read
  rfl

theorem word_moves {c d : Cursor} {node : Node} (read : word.Reads c node d) :
    d.left < c.left := by
  obtain ⟨parts, e, items, nonempty, rfl, -⟩ := reads_word read
  have passed := past_blanks_left_le e
  cases items with
  | stop _ => exact absurd rfl nonempty
  | halt given _ =>
      have moved := word_part_moves given
      omega
  | @more _ f _ first others given progress items =>
      have rest := reads_left_le ((gives_many (wordPart false) f e others).mpr items)
      omega

theorem no_word_at_end {c d : Cursor} {node : Node} (rejected : (wordPart false).Rejects c) :
    ¬ word.Reads c node d := by
  intro read
  obtain ⟨parts, e, items, nonempty, -, -⟩ := reads_word read
  cases items with
  | stop _ => exact nonempty rfl
  | halt given _ => exact not_fails_of_gives given rejected
  | more given _ _ => exact not_fails_of_gives given rejected

end Grammar

end ShellLine
