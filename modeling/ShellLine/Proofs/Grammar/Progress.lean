import ShellLine.Proofs.Forms.Command
import ShellLine.Proofs.Grammar.Word

set_option autoImplicit false

namespace ShellLine.Parser

def Moves {α : Type} (p : Parser α) : Prop := ∀ c a d, p.Reads c a d → d.left < c.left

variable {α β : Type} {p : Parser α}

theorem moves_of_advances (advances : p.Advances attained) : p.Moves := fun c a d read =>
  advances _ c a d (read_may_give attained_covers_reading p read (Nat.le_refl _))

theorem first_moves {next : α → Parser β} (moves : p.Moves) : (p >>= next).Moves := by
  intro c b d read
  obtain ⟨a, e, first, later⟩ := (gives_bind _ _ _ _ _).mp read
  have moved := moves c a e first
  have passed := reads_left_le later
  omega

theorem call_moves {rule : Rule} (moves : (grammar rule).Moves) : (call rule).Moves :=
  fun c node d read => moves c node d ((reads_call rule c d node).mp read)

theorem items_stop {values : List α} {c d : Cursor} (moves : p.Moves)
    (items : Items (reading grammar) p c values d) : p.Rejects d := by
  induction items with
  | stop failed => exact failed
  | halt given stays => exact absurd (moves _ _ _ given) stays
  | more _ _ _ ih => exact ih

end ShellLine.Parser

namespace ShellLine.Grammar

open ShellLine.Parser

theorem lone_operator_moves (ch : Char) : (loneOperator ch).Moves :=
  moves_of_advances (lone_operator_advances attained_forward ch)

theorem next_pattern_moves : nextPattern.Moves := first_moves (lone_operator_moves '|')

theorem next_stage_moves : nextStage.Moves := first_moves (lone_operator_moves '|')

theorem operator_text_moves {text : String} (nonempty : text.toList ≠ []) : (operator text).Moves :=
  moves_of_advances (operator_advances attained_forward nonempty)

theorem keyword_text_moves {word : String} (nonempty : word.toList ≠ []) : (keyword word).Moves :=
  moves_of_advances (keyword_advances nonempty)

theorem newlines_move : newlines.Moves := moves_of_advances newlines_advance

theorem call_word_moves : (call .word).Moves :=
  moves_of_advances (call_advances attained_advance (by decide))

theorem redirection_moves : redirection.Moves :=
  moves_of_advances (redirection_advances attained_forward attained_advance)

theorem lead_item_moves : leadItem.Moves :=
  moves_of_advances (advances_or_else (call_advances attained_advance (by decide))
    (assignment_advances attained_forward))

theorem argument_item_moves : argumentItem.Moves :=
  moves_of_advances (advances_or_else (call_advances attained_advance (by decide))
    (call_advances attained_advance (by decide)))

theorem and_or_moves : andOr.Moves :=
  moves_of_advances (and_or_advances attained_forward attained_advance)

theorem and_or_link_moves : andOrLink.Moves :=
  moves_of_advances (and_or_link_advances attained_forward attained_advance)

theorem term_moves (lines : Bool) (c : Cursor) (node : Node) (d : Cursor)
    (read : (term lines).Reads c (.more node) d) : d.left < c.left :=
  term_left_lt attained_forward attained_advance
    (read_may_give attained_covers_reading (term lines) read (Nat.le_refl _)) nofun

theorem case_item_moves : caseItem.Moves :=
  moves_of_advances (case_item_advances attained_forward attained_advance)

end ShellLine.Grammar
