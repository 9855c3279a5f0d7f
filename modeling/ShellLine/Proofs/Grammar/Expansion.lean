import ShellLine.Proofs.Forms.Word
import ShellLine.Proofs.Reading.Program
import ShellLine.Proofs.Tree.Descendants

set_option autoImplicit false

namespace ShellLine.Grammar

open ShellLine.Parser

theorem skip_first_moves {α : Type} {count : Nat} {next : Unit → Parser α} {c d : Cursor}
    {value : α} (remains : c.rest ≠ []) (read : (skip (count + 1) >>= next).Reads c value d) :
    d.left < c.left := by
  obtain ⟨u, e, skipped, after⟩ := (gives_bind _ _ c d value).mp read
  have moved := c.advance_left_lt (count + 1) remains (Nat.succ_pos count)
  rw [(gives_skip _ c e u).mp skipped] at moved
  have passed := reads_left_le after
  omega

theorem dollar_form_kind {calls : Rule → Cursor → Reading Node} {c d : Cursor} {node : Node}
    (form : DollarForm calls c node d) : node.kind.isExpansion = true := by
  cases form with
  | arithmetic => rfl
  | command => rfl
  | @operation _ _ _ text kind _ _ operator _ =>
      have every : ∀ pair ∈ parameterOperators, pair.2.isExpansion = true := by decide
      exact every (text, kind) operator
  | @parameter _ kind _ plain =>
      have every : ∀ kind ∈ [Kind.specialParameter, .positionalParameter, .namedParameter,
          .stringLength, .bracedParameter], kind.isExpansion = true := by decide
      exact every kind plain

theorem dollar_expansion_kind {calls : Rule → Cursor → Reading Node} {c d : Cursor} {node : Node}
    (given : dollarExpansion.Gives calls c node d) : node.kind.isExpansion = true :=
  dollar_form_kind (dollar_expansion_form given)

theorem dollar_expansion_moves {c d : Cursor} {node : Node} (remains : c.rest ≠ [])
    (read : dollarExpansion.Reads c node d) : d.left < c.left := by
  rw [dollarExpansion, Reads, gives_look_bind] at read
  have command_moves : ∀ {inner : Node}, commandExpansion.Reads c inner d → d.left < c.left := by
    intro inner read
    simp only [commandExpansion, gives_nested, gives_atomic] at read
    exact skip_first_moves remains read
  split at read
  · rcases (gives_or_else _ _ _ _ _).mp read with arithmetic | ⟨-, command⟩
    · simp only [arithmeticExpansion, gives_nested, gives_atomic] at arithmetic
      exact skip_first_moves remains arithmetic
    · exact command_moves command
  · exact command_moves read
  · simp only [bracedExpansion, stringLength, parameterOperation, bareBracedParameter,
      gives_or_else, gives_atomic] at read
    rcases read with read | ⟨-, read | ⟨-, read⟩⟩ <;> exact skip_first_moves remains read
  · simp only [plainParameter, gives_atomic] at read
    exact skip_first_moves remains read

end ShellLine.Grammar
