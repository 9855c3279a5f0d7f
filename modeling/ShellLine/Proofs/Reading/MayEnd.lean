import ShellLine.Proofs.Grammar.Token

set_option autoImplicit false

namespace ShellLine

-- What the rules may answer at a place: a node and the place behind it.
abbrev Replies := Rule → Cursor → Node → Cursor → Prop

inductive Laps {α : Type} (turn : Cursor → Turn α → Cursor → Prop) : Cursor → List α → Cursor → Prop
  | stop {c d : Cursor} : turn c .stop d → Laps turn c [] d
  | last {c d : Cursor} {value : α} : turn c (.last value) d → Laps turn c [value] d
  | more {c d e : Cursor} {value : α} {values : List α} :
      turn c (.more value) d → Laps turn d values e → Laps turn c (value :: values) e

namespace Parser

def MayEnd (replies : Replies) {α : Type} : Parser α → Cursor → Option (α × Cursor) → Prop
  | succeed value, c, outcome => outcome = some (value, c)
  | andThen first next, c, outcome =>
      first.MayEnd replies c none ∧ outcome = none ∨
        ∃ a d, first.MayEnd replies c (some (a, d)) ∧ (next a).MayEnd replies d outcome
  | fail, _, outcome => outcome = none
  | expected _, c, outcome => outcome = some ((), c)
  | look, c, outcome => outcome = some (c.rest, c)
  | place, c, outcome => outcome = some (c.left, c)
  | skip count, c, outcome => outcome = some ((), c.advance count)
  | attempt inner, c, outcome =>
      (∃ a d, inner.MayEnd replies c (some (a, d)) ∧ outcome = some (some a, d)) ∨
        inner.MayEnd replies c none ∧ outcome = some (none, c)
  | nested inner, c, outcome => outcome = none ∨ inner.MayEnd replies c outcome
  | rounds turn, c, outcome => ∀ values d, outcome = some (values, d) →
      Laps (fun c next d => turn.MayEnd replies c (some (next, d))) c values d
  | call rule, c, outcome => ∀ node d, outcome = some (node, d) → replies rule c node d

variable {replies : Replies} {α β : Type} {c d e : Cursor}

theorem may_end_bind {p : Parser α} {next : α → Parser β} {b : β}
    (ends : (p >>= next).MayEnd replies c (some (b, e))) :
    ∃ a d, p.MayEnd replies c (some (a, d)) ∧ (next a).MayEnd replies d (some (b, e)) := by
  rcases ends with ⟨-, impossible⟩ | ends
  · cases impossible
  · exact ends

theorem may_end_refuse {e : Expected} {outcome : Option (α × Cursor)}
    (ends : (refuse e : Parser α).MayEnd replies c outcome) : outcome = none := by
  rcases ends with ⟨impossible, -⟩ | ⟨_, _, _, refused⟩
  · cases impossible
  · exact refused

theorem may_end_or_else {p q : Parser α} {a : α} (ends : (p <|> q).MayEnd replies c (some (a, d))) :
    p.MayEnd replies c (some (a, d)) ∨ p.MayEnd replies c none ∧ q.MayEnd replies c (some (a, d)) := by
  obtain ⟨tried, e, ⟨b, f, first, same⟩ | ⟨refused, same⟩, later⟩ := may_end_bind ends
  · cases same
    cases later
    exact Or.inl first
  · cases same
    exact Or.inr ⟨refused, later⟩

theorem may_end_atomic {p : Parser α} {a : α} (ends : (atomic p).MayEnd replies c (some (a, d))) :
    p.MayEnd replies c (some (a, d)) := by
  obtain ⟨tried, e, ⟨b, f, first, same⟩ | ⟨refused, same⟩, later⟩ := may_end_bind ends
  · cases same
    cases later
    exact first
  · cases same
    cases later

end Parser

namespace Grammar

open ShellLine.Parser

variable {replies : Replies} {c d : Cursor}

theorem may_end_literal {text : String} {outcome : Option (Unit × Cursor)}
    (ends : (literal text).MayEnd replies c outcome) :
    outcome = if text.toList.isPrefixOf c.rest then some ((), c.advance text.length) else none := by
  rcases ends with ⟨impossible, -⟩ | ⟨rest, e, looked, later⟩
  · cases impossible
  · cases looked
    dsimp only at later
    by_cases here : text.toList.isPrefixOf c.rest = true
    · rw [if_pos here] at later ⊢
      exact later
    · rw [if_neg here] at later ⊢
      exact may_end_refuse later

theorem may_end_literal_among {operators : List (String × Kind)} {kind : Kind}
    (ends : (literalAmong operators).MayEnd replies c (some (kind, d))) :
    ∃ text : String, operators.find? (fun operator => operator.1.toList.isPrefixOf c.rest) = some (text, kind) ∧
      d = c.advance text.length := by
  induction operators with
  | nil => cases ends
  | cons operator others ih =>
      obtain ⟨text, other⟩ := operator
      rcases may_end_or_else ends with here | ⟨refused, later⟩
      · obtain ⟨_, e, passes, same⟩ := may_end_bind here
        replace passes := may_end_literal passes
        split at passes
        · rename_i starts
          cases passes
          cases same
          exact ⟨text, List.find?_cons_of_pos starts, rfl⟩
        · cases passes
      · obtain ⟨found, first, passed⟩ := ih later
        have missing : text.toList.isPrefixOf c.rest = false := by
          rcases refused with ⟨missed, -⟩ | ⟨_, _, _, same⟩
          · replace missed := may_end_literal missed
            split at missed
            · cases missed
            · rename_i other
              exact Bool.eq_false_iff.mpr other
          · cases same
        exact ⟨found, by simpa only [List.find?_cons, missing] using first, passed⟩

end Grammar

end ShellLine
