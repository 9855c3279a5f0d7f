import ShellLine.Proofs.Reading.Table

set_option autoImplicit false

namespace ShellLine

-- All that a run changes.
structure Engine where
  depth : Nat
  state : State

namespace Engine

def atDepth {α : Type} (depth : Nat) (result : Option α × State) : Option α × Engine :=
  (result.1, ⟨depth, result.2⟩)

def moved (engine : Engine) (c : Cursor) : Engine :=
  { engine with state := { engine.state with cursor := c } }

def takeTurns {α : Type} (turn : Engine → Option (Turn α) × Engine) (taken : List α) (engine : Engine) :
    Option (List α) × Engine :=
  match turn engine with
  | (none, after) => (none, after)
  | (some .stop, after) => (some taken.reverse, after)
  | (some (.last value), after) => (some (value :: taken).reverse, after)
  | (some (.more value), after) =>
      if after.state.cursor.left < engine.state.cursor.left then takeTurns turn (value :: taken) after
      else (some (value :: taken).reverse, after)
termination_by engine.state.cursor.left

def run (calls : Rule → Engine → Option Node × Engine) (limit : Nat) {α : Type} :
    Parser α → Engine → Option α × Engine
  | .succeed value, engine => (some value, engine)
  | .andThen first next, engine =>
      match run calls limit first engine with
      | (some value, after) => run calls limit (next value) after
      | (none, after) => (none, after)
  | .fail, engine => (none, engine)
  | .expected e, engine => (some (), { engine with state := engine.state.note e })
  | .look, engine => (some engine.state.cursor.rest, engine)
  | .place, engine => (some engine.state.cursor.left, engine)
  | .skip count, engine => (some (), engine.moved (engine.state.cursor.advance count))
  | .attempt inner, engine =>
      match run calls limit inner engine with
      | (some value, after) => (some (some value), after)
      | (none, after) => (some none, after.moved engine.state.cursor)
  | .nested inner, engine =>
      if limit ≠ 0 ∧ limit ≤ engine.depth then
        (none, { engine with state := { engine.state with tooDeep := true } })
      else
        let outcome := run calls limit inner { engine with depth := engine.depth + 1 }
        (outcome.1, { outcome.2 with depth := outcome.2.depth - 1 })
  | .rounds turn, engine => takeTurns (run calls limit turn) [] engine
  | .call rule, engine => calls rule engine

def evaluate (grammar : Rule → Parser Node) (mode : Mode) (rule : Rule) (engine : Engine) :
    Option Node × Engine :=
  match mode.kept? rule engine.state with
  | some entry => atDepth engine.depth (replay entry engine.state)
  | none =>
      let calls (inner : Rule) (e : Engine) : Option Node × Engine :=
        if inner.height e.state.cursor < rule.height engine.state.cursor then evaluate grammar mode inner e
        else (none, e)
      let outcome := run calls mode.limit (grammar rule) engine
      atDepth outcome.2.depth (mode.record rule engine.state.cursor outcome.1 outcome.2.state)
termination_by rule.height engine.state.cursor

section Agreement

variable {calls : Rule → Engine → Option Node × Engine}
  {answers : Rule → Nat → State → Option Node × State} {limit : Nat}

theorem take_turns_at_depth {α : Type} {turn : Engine → Option (Turn α) × Engine}
    {stateTurn : State → Option (Turn α) × State} {depth : Nat}
    (each : ∀ s, turn ⟨depth, s⟩ = atDepth depth (stateTurn s)) (taken : List α) (s : State) :
    takeTurns turn taken ⟨depth, s⟩ = atDepth depth (Parser.repeatTurns stateTurn taken s) := by
  rw [takeTurns, Parser.repeatTurns, each]
  generalize stateTurn s = outcome
  obtain ⟨next, t⟩ := outcome
  cases next with
  | none => rfl
  | some next =>
      cases next with
      | stop | last => rfl
      | more value =>
          dsimp only [atDepth]
          by_cases moves : t.cursor.left < s.cursor.left
          · rw [if_pos moves, if_pos moves]
            exact take_turns_at_depth each (value :: taken) t
          · rw [if_neg moves, if_neg moves]
termination_by s.cursor.left

theorem run_at_depth
    (agree : ∀ rule depth s, calls rule ⟨depth, s⟩ = atDepth depth (answers rule depth s)) {α : Type}
    (p : Parser α) :
    ∀ depth s, run calls limit p ⟨depth, s⟩ = atDepth depth (p.run answers limit depth s) := by
  induction p with
  | succeed | fail | expected | look | place | skip => exact fun _ _ => rfl
  | andThen first next firstAgrees nextAgrees =>
      intro depth s
      rw [run, Parser.run, firstAgrees]
      generalize first.run answers limit depth s = outcome
      obtain ⟨value, t⟩ := outcome
      cases value with
      | none => rfl
      | some a => exact nextAgrees a depth t
  | attempt inner ih =>
      intro depth s
      rw [run, Parser.run, ih]
      generalize inner.run answers limit depth s = outcome
      obtain ⟨value, t⟩ := outcome
      cases value <;> rfl
  | nested inner ih =>
      intro depth s
      rw [run]
      by_cases full : limit ≠ 0 ∧ limit ≤ depth
      · rw [if_pos full, Parser.run_nested_full full]
        rfl
      · rw [if_neg full, Parser.run_nested_below full]
        dsimp only
        rw [ih]
        rfl
  | rounds turn ih => exact fun depth s => take_turns_at_depth (ih depth) [] s
  | call rule => exact agree rule

theorem evaluate_at_depth (grammar : Rule → Parser Node) (mode : Mode) (rule : Rule) (depth : Nat)
    (s : State) :
    evaluate grammar mode rule ⟨depth, s⟩ = atDepth depth (ShellLine.evaluate grammar mode rule depth s) := by
  rw [evaluate, ShellLine.evaluate]
  cases mode.kept? rule s with
  | some entry => rfl
  | none =>
      dsimp only
      rw [run_at_depth fun inner deeper t => ?_]
      · rfl
      · dsimp only
        by_cases below : inner.height t.cursor < rule.height s.cursor
        · rw [if_pos below, if_pos below]
          exact evaluate_at_depth grammar mode inner deeper t
        · rw [if_neg below, if_neg below]
          rfl
termination_by rule.height s.cursor

theorem run_evaluate_at_depth (grammar : Rule → Parser Node) (mode : Mode) {α : Type} (p : Parser α)
    (engine : Engine) :
    run (evaluate grammar mode) mode.limit p engine = atDepth engine.depth
      (p.run (ShellLine.evaluate grammar mode) mode.limit engine.depth engine.state) :=
  run_at_depth (evaluate_at_depth grammar mode) p engine.depth engine.state

end Agreement

end Engine

end ShellLine
