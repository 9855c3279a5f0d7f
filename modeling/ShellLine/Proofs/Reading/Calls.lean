import ShellLine.Proofs.Reading.Gives

set_option autoImplicit false

namespace ShellLine

-- Every rule called from a place on stands below a bound. A repetition may take its turns
-- anywhere behind its start.
def Parser.CallsUnder (calls : Rule → Cursor → Reading Node) (bound : Nat) {α : Type} :
    Parser α → Cursor → Prop
  | andThen first next, c =>
      first.CallsUnder calls bound c ∧
        ∀ a d, first.Gives calls c a d → (next a).CallsUnder calls bound d
  | attempt inner, c => inner.CallsUnder calls bound c
  | nested inner, c => inner.CallsUnder calls bound c
  | rounds turn, c => ∀ d : Cursor, d.rest <:+ c.rest → turn.CallsUnder calls bound d
  | call rule, c => rule.height c < bound
  | succeed _, _ | fail, _ | expected _, _ | look, _ | place, _ | skip _, _ => True

namespace Parser

variable {calls : Rule → Cursor → Reading Node} {bound : Nat} {α : Type}

theorem read_turns_congr (forward : GoForward calls) (turn other : Cursor → Reading (Turn α))
    (turnForward : ∀ c next d, (turn c).outcome = some (next, d) → d.rest <:+ c.rest)
    (taken : List α) (c : Cursor) (same : ∀ d : Cursor, d.rest <:+ c.rest → other d = turn d) :
    readTurns other taken c = readTurns turn taken c := by
  rw [readTurns, readTurns, same c (List.suffix_refl _)]
  simp only [Reading.andThen]
  cases read : (turn c).outcome with
  | none => rfl
  | some pair =>
      obtain ⟨next, d⟩ := pair
      have passed := turnForward c next d read
      cases next with
      | stop => rfl
      | last value => rfl
      | more value =>
          by_cases progress : d.left < c.left
          · simp only [if_pos progress]
            rw [read_turns_congr forward turn other turnForward _ d
              fun e behind => same e (behind.trans passed)]
          · simp only [if_neg progress]
termination_by c.left

theorem read_calls_below (forward : GoForward calls) (p : Parser α) :
    ∀ c, p.CallsUnder calls bound c → p.read (callsBelow bound calls) c = p.read calls c := by
  induction p with
  | succeed | fail | expected | look | place | skip => exact fun _ _ => rfl
  | andThen first next firstSame nextSame =>
      intro c under
      rw [Parser.read, Parser.read, firstSame c under.1]
      simp only [Reading.andThen]
      cases read : (first.read calls c).outcome with
      | none => rfl
      | some pair =>
          obtain ⟨a, d⟩ := pair
          simp only [nextSame a d (under.2 a d read)]
  | attempt inner ih =>
      intro c under
      rw [Parser.read, Parser.read, ih c under]
  | nested inner ih =>
      intro c under
      rw [Parser.read, Parser.read, ih c under]
  | rounds turn ih =>
      intro c under
      exact read_turns_congr forward (turn.read calls) _ (read_forward forward turn) [] c
        fun d behind => ih d (under d behind)
  | call rule =>
      intro c under
      exact if_pos under

end Parser

theorem reading_unguarded (grammar : Rule → Parser Node)
    (under : ∀ rule c,
      (grammar rule).CallsUnder (reading grammar) (rule.height c) c) (rule : Rule) (c : Cursor) :
    reading grammar rule c = (grammar rule).read (reading grammar) c := by
  rw [reading_below]
  exact Parser.read_calls_below (reading_forward grammar) (grammar rule) c (under rule c)

end ShellLine
