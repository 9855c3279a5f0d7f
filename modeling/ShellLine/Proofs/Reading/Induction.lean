import ShellLine.Proofs.Reading.Program

set_option autoImplicit false

namespace ShellLine

open ShellLine.Parser

structure Knows (P : Rule → Cursor → Node → Cursor → Prop)
    (calls : Rule → Cursor → Reading Node) : Prop where
  forward : GoForward calls
  reads : ∀ {rule : Rule} {c d : Cursor} {node : Node}, (call rule).Gives calls c node d →
    (grammar rule).Reads c node d
  holds : ∀ {rule : Rule} {c d : Cursor} {node : Node}, (call rule).Gives calls c node d →
    P rule c node d

theorem reads_induction {P : Rule → Cursor → Node → Cursor → Prop}
    (step : ∀ calls, Knows P calls → ∀ rule c node d, (grammar rule).Gives calls c node d →
      P rule c node d)
    (rule : Rule) (c : Cursor) (node : Node) (d : Cursor) (read : (grammar rule).Reads c node d) :
    P rule c node d := by
  have given := (reads_call rule c d node).mpr read
  change (reading grammar rule c).outcome = some (node, d) at given
  rw [reading_below] at given
  refine step (callsBelow (rule.height c) (reading grammar)) ?_ rule c node d given
  have below : ∀ {inner : Rule} {e f : Cursor} {found : Node},
      (call inner).Gives (callsBelow (rule.height c) (reading grammar)) e found f →
      inner.height e < rule.height c ∧ (grammar inner).Reads e found f := by
    intro inner e f found answered
    change (callsBelow (rule.height c) (reading grammar) inner e).outcome = some (found, f) at answered
    rw [callsBelow] at answered
    by_cases lower : inner.height e < rule.height c
    · rw [if_pos lower] at answered
      exact ⟨lower, (reads_call inner e f found).mp answered⟩
    · rw [if_neg lower] at answered
      cases answered
  refine ⟨?_, fun answered => (below answered).2, fun answered => ?_⟩
  · exact calls_below_forward _ fun inner e found f _ => reading_forward grammar inner e found f
  · obtain ⟨lower, inside⟩ := below answered
    exact reads_induction step _ _ _ _ inside
termination_by rule.height c

theorem reading_knows {P : Rule → Cursor → Node → Cursor → Prop}
    (step : ∀ calls, Knows P calls → ∀ rule c node d, (grammar rule).Gives calls c node d →
      P rule c node d) : Knows P (reading grammar) where
  forward := reading_forward grammar
  reads given := (reads_call _ _ _ _).mp given
  holds given := reads_induction step _ _ _ _ ((reads_call _ _ _ _).mp given)

end ShellLine
