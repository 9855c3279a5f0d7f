import ShellLine.Proofs.Grammar.Ranked
import ShellLine.Proofs.Reading.Calls

set_option autoImplicit false

namespace ShellLine

-- What readings of the rules say, as answers within any number of levels.
def Answers.ofCalls (calls : Rule → Cursor → Reading Node) : Answers :=
  fun _ rule c node d => (calls rule c).outcome = some (node, d)

namespace Parser

variable {calls : Rule → Cursor → Reading Node} {bound : Nat} {α : Type}

theorem may_give_of_gives {p : Parser α} {c d : Cursor} {a : α} (given : p.Gives calls c a d) :
    ∃ room, p.MayGive (.ofCalls calls) room c a d :=
  ⟨_, read_may_give (fun answered _ => answered) p given (Nat.le_refl _)⟩

theorem calls_under_of_lower {p : Parser α} :
    ∀ {c}, p.CallsLower (.ofCalls calls) bound c → p.CallsUnder calls bound c := by
  induction p with
  | succeed | fail | expected | look | place | skip => exact fun _ => trivial
  | andThen first next firstUnder nextUnder =>
      refine fun lower => ⟨firstUnder lower.1, fun a d given => ?_⟩
      obtain ⟨room, mayGive⟩ := may_give_of_gives given
      exact nextUnder a (lower.2 room a d mayGive)
  | attempt inner ih | nested inner ih => exact ih
  | rounds turn ih => exact fun lower d behind => ih (lower d behind)
  | call rule => exact id

theorem calls_under_of_left (forward : GoForward calls) (p : Parser α) (c : Cursor)
    (later : 6 * c.left + 6 ≤ bound) : p.CallsUnder calls bound c :=
  calls_under_of_lower (calls_lower_of_left (fun _ rule => forward rule) p c later)

end Parser

namespace Grammar

theorem grammar_calls_under {calls : Rule → Cursor → Reading Node} (forward : GoForward calls)
    (rule : Rule) (c : Cursor) : (grammar rule).CallsUnder calls (rule.height c) c :=
  Parser.calls_under_of_lower
    (grammar_ranked (fun _ rule => forward rule) rule c _ (Nat.le_refl _))

end Grammar

theorem reading_grammar (rule : Rule) (c : Cursor) :
    reading grammar rule c = (grammar rule).read (reading grammar) c :=
  reading_unguarded grammar (Grammar.grammar_calls_under (reading_forward grammar)) rule c

end ShellLine
