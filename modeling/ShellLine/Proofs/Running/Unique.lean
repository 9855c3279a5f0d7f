import ShellLine.Proofs.Running.Runs

set_option autoImplicit false

namespace ShellLine

def Parser.HasRun (mode : Mode) {α : Type} :
    Parser α → Nat → State → Trace → Option α × State → Prop
  | succeed value, _, s, trace, result => trace = [.steps s s] ∧ result = (some value, s)
  | andThen first next, level, s, trace, result =>
      (∃ value t before after, Runs mode first level s before (some value, t) ∧
        Runs mode (next value) level t after result ∧ trace = before ++ after) ∨
      ∃ t, Runs mode first level s trace (none, t) ∧ result = (none, t)
  | fail, _, s, trace, result => trace = [.steps s s] ∧ result = (none, s)
  | expected e, _, s, trace, result =>
      trace = [.steps s (s.note e)] ∧ result = (some (), s.note e)
  | look, _, s, trace, result => trace = [.steps s s] ∧ result = (some s.cursor.rest, s)
  | place, _, s, trace, result => trace = [.steps s s] ∧ result = (some s.cursor.left, s)
  | skip count, _, s, trace, result =>
      trace = [.steps s { s with cursor := s.cursor.advance count }] ∧
        result = (some (), { s with cursor := s.cursor.advance count })
  | attempt inner, level, s, trace, result =>
      ∃ value t, Runs mode inner level s trace (value, t) ∧
        result = (some value, if value.isSome then t else { t with cursor := s.cursor })
  | nested inner, level, s, trace, result =>
      if mode.limit ≠ 0 ∧ mode.limit ≤ level then
        trace = [.steps s { s with tooDeep := true }] ∧ result = (none, { s with tooDeep := true })
      else Runs mode inner (level + 1) s trace result
  | rounds turn, level, s, trace, result =>
      ∃ next t before, Runs mode turn level s before (next, t) ∧
        match (next : Option (Turn _)) with
        | none => trace = before ∧ result = (none, t)
        | some .stop => trace = before ∧ result = (some [], t)
        | some (.last value) => trace = before ∧ result = (some [value], t)
        | some (.more value) => ∃ after values u, Runs mode (rounds turn) level t after (values, u) ∧
            trace = before ++ after ∧ result = (values.map (value :: ·), u)
  | call rule, level, s, trace, result =>
      match mode.kept? rule s with
      | some entry => trace = [.steps s (replay entry s).2] ∧ result = replay entry s
      | none => ∃ value t before, Runs mode (grammar rule) level s before (value, t) ∧
          trace = .tries rule s :: before ++ [.keeps rule s.cursor t] ∧
          result = mode.record rule s.cursor value t

variable {mode : Mode} {α : Type} {p : Parser α} {level : Nat} {s : State} {trace other : Trace}
  {result otherResult : Option α × State}

theorem has_run_of_runs (runs : Runs mode p level s trace result) :
    p.HasRun mode level s trace result := by
  induction runs with
  | succeed | fail | expected | look | place | skip => exact ⟨rfl, rfl⟩
  | andThen first later => exact Or.inl ⟨_, _, _, _, first, later, rfl⟩
  | cut first => exact Or.inr ⟨_, first, rfl⟩
  | attempt inner => exact ⟨_, _, inner, rfl⟩
  | missed inner => exact ⟨_, _, inner, rfl⟩
  | refused full =>
      rw [Parser.HasRun, if_pos full]
      exact ⟨rfl, rfl⟩
  | nested room inner =>
      rw [Parser.HasRun, if_neg room]
      exact inner
  | broken turn => exact ⟨_, _, _, turn, rfl, rfl⟩
  | stop turn => exact ⟨_, _, _, turn, rfl, rfl⟩
  | last turn => exact ⟨_, _, _, turn, rfl, rfl⟩
  | more turn later => exact ⟨_, _, _, turn, _, _, _, later, rfl, rfl⟩
  | replayed kept =>
      rw [Parser.HasRun, kept]
      exact ⟨rfl, rfl⟩
  | called missing body =>
      rw [Parser.HasRun, missing]
      exact ⟨_, _, _, body, rfl, rfl⟩

theorem runs_unique (runs : Runs mode p level s trace result)
    (again : Runs mode p level s other otherResult) : trace = other ∧ result = otherResult := by
  replace again := has_run_of_runs again
  induction runs generalizing other with
  | succeed | fail | expected | look | place | skip => exact ⟨again.1.symm, again.2.symm⟩
  | andThen _ _ firstSame laterSame =>
      rcases again with ⟨value, t, before, after, first, later, rfl⟩ | ⟨t, first, -⟩
      · obtain ⟨rfl, same⟩ := firstSame (has_run_of_runs first)
        cases same
        obtain ⟨rfl, rfl⟩ := laterSame (has_run_of_runs later)
        exact ⟨rfl, rfl⟩
      · cases (firstSame (has_run_of_runs first)).2
  | cut _ firstSame =>
      rcases again with ⟨value, t, before, after, first, -, -⟩ | ⟨t, first, rfl⟩
      · cases (firstSame (has_run_of_runs first)).2
      · obtain ⟨rfl, same⟩ := firstSame (has_run_of_runs first)
        cases same
        exact ⟨rfl, rfl⟩
  | attempt _ ih | missed _ ih =>
      obtain ⟨value, t, inner, rfl⟩ := again
      obtain ⟨rfl, same⟩ := ih (has_run_of_runs inner)
      cases same
      exact ⟨rfl, rfl⟩
  | refused full =>
      rw [Parser.HasRun, if_pos full] at again
      exact ⟨again.1.symm, again.2.symm⟩
  | nested room _ ih =>
      rw [Parser.HasRun, if_neg room] at again
      exact ih (has_run_of_runs again)
  | broken _ ih | stop _ ih | last _ ih =>
      obtain ⟨next, t, before, turn, rest⟩ := again
      obtain ⟨rfl, same⟩ := ih (has_run_of_runs turn)
      cases same
      exact ⟨rest.1.symm, rest.2.symm⟩
  | more _ _ turnSame laterSame =>
      obtain ⟨next, t, before, turn, rest⟩ := again
      obtain ⟨rfl, same⟩ := turnSame (has_run_of_runs turn)
      cases same
      obtain ⟨after, values, u, later, rfl, rfl⟩ := rest
      obtain ⟨rfl, same⟩ := laterSame (has_run_of_runs later)
      cases same
      exact ⟨rfl, rfl⟩
  | replayed kept =>
      rw [Parser.HasRun, kept] at again
      exact ⟨again.1.symm, again.2.symm⟩
  | called missing _ ih =>
      rw [Parser.HasRun, missing] at again
      obtain ⟨value, t, before, body, rfl, rfl⟩ := again
      obtain ⟨rfl, same⟩ := ih (has_run_of_runs body)
      cases same
      exact ⟨rfl, rfl⟩

end ShellLine
