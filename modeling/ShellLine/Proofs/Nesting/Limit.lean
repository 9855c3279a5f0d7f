import ShellLine.Proofs.Reading.Program

set_option autoImplicit false

namespace ShellLine

-- A limit that lets pass whatever another one does; 0 lets everything pass.
def Looser (limit other : Nat) : Prop := other = 0 ∨ limit ≠ 0 ∧ limit ≤ other

-- Two runs from one state, of which the second gives what the first does unless that is cut short.
def Persists {α : Type} (result other : Option α × State) : Prop :=
  result.2.tooDeep = false → other = result

section Runs

variable {limit other : Nat} {α β : Type}

theorem persists_refl (result : Option α × State) : Persists result result := fun _ => rfl

-- A cut in the first of two steps is a cut in both, so neither step is cut short.
theorem persists_chain {first first' : Option α × State} {next next' : α → State → Option β × State}
    (persists : Persists first first')
    (sticky : ∀ a t, t.tooDeep = true → (next a t).2.tooDeep = true)
    (later : ∀ a t, Persists (next a t) (next' a t)) :
    Persists (chain first next) (chain first' next') := by
  intro shallow
  have firstShallow : first.2.tooDeep = false := by
    cases deep : first.2.tooDeep with
    | false => rfl
    | true => exact (chain_sticky deep sticky).symm.trans shallow
  obtain rfl := persists firstShallow
  obtain ⟨value, t⟩ := first'
  cases value with
  | none => rfl
  | some a => exact later a t shallow

theorem persists_after_turn {turn turn' : State → Option (Turn α) × State} {taken : List α}
    {s : State} (again : ∀ value t, t.cursor.left < s.cursor.left →
      Persists (Parser.repeatTurns turn (value :: taken) t)
        (Parser.repeatTurns turn' (value :: taken) t)) (next : Turn α) (t : State) :
    Persists (afterTurn turn taken s next t) (afterTurn turn' taken s next t) := by
  cases next with
  | stop => exact persists_refl _
  | last value => exact persists_refl _
  | more value =>
      by_cases progress : t.cursor.left < s.cursor.left
      · simpa only [afterTurn, if_pos progress] using again value t progress
      · simpa only [afterTurn, if_neg progress] using persists_refl _

theorem persists_repeat_turns {turn turn' : State → Option (Turn α) × State}
    (sticky : ∀ s, s.tooDeep = true → (turn s).2.tooDeep = true)
    (each : ∀ s, Persists (turn s) (turn' s)) (taken : List α) (s : State) :
    Persists (Parser.repeatTurns turn taken s) (Parser.repeatTurns turn' taken s) := by
  rw [repeat_turns_chain, repeat_turns_chain]
  refine persists_chain (each s) ?_ ?_
  · intro next t deep
    exact after_turn_sticky (fun value _ => repeat_turns_sticky turn sticky _ t deep) deep
  · apply persists_after_turn
    intro value t progress
    exact persists_repeat_turns sticky each (value :: taken) t
termination_by s.cursor.left

theorem persists_run (looser : Looser limit other)
    {calls calls' : Rule → Nat → State → Option Node × State}
    (sticky : ∀ rule level s, s.tooDeep = true → (calls rule level s).2.tooDeep = true)
    (persists : ∀ rule level s, Persists (calls rule level s) (calls' rule level s)) (p : Parser α) :
    ∀ level s, Persists (p.run calls limit level s) (p.run calls' other level s) := by
  induction p with
  | succeed | fail | expected | look | place | skip => exact fun _ _ => persists_refl _
  | andThen first next firstPersists nextPersists =>
      intro level s
      rw [run_and_then, run_and_then]
      exact persists_chain (firstPersists level s) (fun a => run_sticky sticky (next a) level)
        fun a t => nextPersists a level t
  | attempt inner ih =>
      intro level s shallow
      rw [run_attempt] at shallow ⊢
      rw [run_attempt, ih level s shallow]
  | nested inner ih =>
      intro level s shallow
      by_cases full : limit ≠ 0 ∧ limit ≤ level
      · rw [Parser.run_nested_full full] at shallow
        cases shallow
      · have unfilled : ¬ (other ≠ 0 ∧ other ≤ level) := by
          rcases looser with rfl | ⟨limited, less⟩ <;> omega
        rw [Parser.run_nested_below full] at shallow
        rw [Parser.run_nested_below full, Parser.run_nested_below unfilled]
        exact ih (level + 1) s shallow
  | rounds turn ih =>
      intro level s
      exact persists_repeat_turns (run_sticky sticky turn level) (ih level) [] s
  | call rule => exact persists rule

end Runs

section Rules

variable {grammar : Rule → Parser Node} {keeps : Bool} {limit other : Nat}

theorem persists_evaluate (looser : Looser limit other) (rule : Rule) (level : Nat) (s : State) :
    Persists (evaluate grammar ⟨keeps, limit⟩ rule level s)
      (evaluate grammar ⟨keeps, other⟩ rule level s) := by
  have sameTable : Mode.kept? ⟨keeps, other⟩ rule s = Mode.kept? ⟨keeps, limit⟩ rule s := rfl
  cases kept : Mode.kept? ⟨keeps, limit⟩ rule s with
  | some entry =>
      rw [evaluate_kept kept, evaluate_kept (sameTable.trans kept)]
      exact persists_refl _
  | none =>
      rw [evaluate_unkept kept, evaluate_unkept (sameTable.trans kept)]
      intro shallow
      rw [record_too_deep] at shallow
      rw [persists_run looser (evaluate_below_sticky _ _) ?calls (grammar rule) level s shallow]
      · rfl
      case calls =>
        intro inner deeper t
        rw [evaluateBelow, evaluateBelow]
        by_cases below : inner.height t.cursor < rule.height s.cursor
        · rw [if_pos below, if_pos below]
          exact persists_evaluate looser inner deeper t
        · rw [if_neg below, if_neg below]
          exact persists_refl _
termination_by rule.height s.cursor

end Rules

theorem read_program_persists {limit other : Nat} (looser : Looser limit other) (keeps : Bool)
    (text : List Char) :
    Persists (readProgram ⟨keeps, limit⟩ text) (readProgram ⟨keeps, other⟩ text) :=
  persists_run looser (evaluate_sticky _) (persists_evaluate looser) Grammar.program 0 (.start text)

theorem judge_shallow (config : Config) (limit : Nat) (input : String) (result : Option Node)
    (s : State) (shallow : s.tooDeep = false) :
    judge { config with maxDepth := limit } input result s = judge config input result s := by
  simp only [judge, shallow]
  rfl

/-- A command line that is not nested too deep for a limit is answered alike under a looser limit,
and under none: with the same tree or the same error. -/
theorem looser_limit_same_answer (config : Config) (limit : Nat) (input : String)
    (limited : 0 < config.maxDepth) (looser : limit = 0 ∨ config.maxDepth ≤ limit)
    (accepted : parse config input ≠ .error (.nestingTooDeep config.maxDepth)) :
    parse { config with maxDepth := limit } input = parse config input := by
  unfold parse parseWith at accepted ⊢
  by_cases long : config.maxInputLength ≠ 0 ∧ config.maxInputLength < Text.byteLength input.toList
  · simp only [if_pos long]
  · simp only [if_neg long] at accepted ⊢
    have shallow : (readProgram ⟨true, config.maxDepth⟩ input.toList).2.tooDeep = false := by
      cases deep : (readProgram ⟨true, config.maxDepth⟩ input.toList).2.tooDeep with
      | false => rfl
      | true => exact absurd (by simp [judge, deep]) accepted
    have isLooser : Looser config.maxDepth limit :=
      looser.imp_right fun less => ⟨Nat.ne_of_gt limited, less⟩
    rw [read_program_persists isLooser true input.toList shallow]
    exact judge_shallow config limit input _ _ shallow

theorem looser_limit_replayed_word :
    parse { maxDepth := 2 } "$((a$(b)) ) c" ≠ .error (.nestingTooDeep 2) ∧
      parse { maxDepth := 5 } "$((a$(b)) ) c" = parse { maxDepth := 2 } "$((a$(b)) ) c" ∧
      parse { maxDepth := 0 } "$((a$(b)) ) c" = parse { maxDepth := 2 } "$((a$(b)) ) c" := by
  have accepted : parse { maxDepth := 2 } "$((a$(b)) ) c" ≠ .error (.nestingTooDeep 2) := by
    obtain ⟨tree, parsed, -⟩ := parse_ok_of_view { maxDepth := 2 } "$((a$(b)) ) c" (fun _ => ()) ()
      (by decide +kernel)
    simp [parsed]
  exact ⟨accepted,
    looser_limit_same_answer { maxDepth := 2 } 5 _ (by decide) (Or.inr (by decide)) accepted,
    looser_limit_same_answer { maxDepth := 2 } 0 _ (by decide) (Or.inl rfl) accepted⟩

end ShellLine
