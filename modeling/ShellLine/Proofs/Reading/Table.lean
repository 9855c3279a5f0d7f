import ShellLine.Proofs.Reading.Run
import Std.Data.TreeMap.Lemmas

set_option autoImplicit false

namespace ShellLine

section Simulation

variable {grammar : Rule → Parser Node} {text : List Char}

theorem height_injective {a b : Rule} {c d : Cursor} (within : c.rest <:+ text)
    (within' : d.rest <:+ text) (same : a.height c = b.height d) : a = b ∧ c = d := by
  have left_lt : ∀ rule : Rule, rule.rank < 6 := by intro rule; cases rule <;> decide
  have rank_injective : ∀ x y : Rule, x.rank = y.rank → x = y := by
    intro x y
    cases x <;> cases y <;> decide
  have first := left_lt a
  have second := left_lt b
  simp only [Rule.height] at same
  exact ⟨rank_injective a b (by omega), Cursor.eq_of_left text c d within within' (by omega)⟩

-- The answers of the rules that stand below a bound, as the rule at the bound gets them.
def evaluateBelow (grammar : Rule → Parser Node) (mode : Mode) (bound : Nat) (rule : Rule)
    (level : Nat) (s : State) : Option Node × State :=
  if rule.height s.cursor < bound then evaluate grammar mode rule level s else (none, s)

theorem evaluate_unkept {mode : Mode} {rule : Rule} {level : Nat} {s : State}
    (missing : mode.kept? rule s = none) :
    evaluate grammar mode rule level s =
      mode.record rule s.cursor
        ((grammar rule).run (evaluateBelow grammar mode (rule.height s.cursor)) mode.limit level s).1
        ((grammar rule).run (evaluateBelow grammar mode (rule.height s.cursor)) mode.limit level
          s).2 := by
  rw [evaluate, missing]
  rfl

theorem evaluate_kept {mode : Mode} {rule : Rule} {level : Nat} {s : State} {entry : Entry}
    (found : mode.kept? rule s = some entry) :
    evaluate grammar mode rule level s = replay entry s := by
  rw [evaluate, found]

theorem replay_too_deep (entry : Entry) (s : State) : (replay entry s).2.tooDeep = s.tooDeep := by
  cases entry <;> rfl

theorem record_value (mode : Mode) (rule : Rule) (before : Cursor) (result : Option Node)
    (t : State) : (mode.record rule before result t).1 = result := by
  rw [Mode.record]
  cases mode.keeps <;> cases rule.isKept <;> rfl

theorem record_too_deep (mode : Mode) (rule : Rule) (before : Cursor) (result : Option Node)
    (t : State) : (mode.record rule before result t).2.tooDeep = t.tooDeep := by
  rw [Mode.record]
  cases result <;> cases mode.keeps <;> cases rule.isKept <;> rfl

theorem record_failure (mode : Mode) (rule : Rule) (before : Cursor) (result : Option Node)
    (t : State) : (mode.record rule before result t).2.failure = t.failure := by
  rw [Mode.record]
  cases result <;> cases mode.keeps <;> cases rule.isKept <;> rfl

theorem record_cursor (mode : Mode) (rule : Rule) (before : Cursor) (node : Node) (t : State) :
    (mode.record rule before (some node) t).2.cursor = t.cursor := by
  rw [Mode.record]
  cases mode.keeps <;> cases rule.isKept <;> rfl

theorem record_table (mode : Mode) (rule : Rule) (before : Cursor) (result : Option Node)
    (t : State) :
    (mode.record rule before result t).2.table =
      if mode.keeps && rule.isKept then
        t.table.insert (rule.height before) (result.map fun node => (node, t.cursor))
      else t.table := by
  rw [Mode.record]
  cases result <;> cases mode.keeps <;> cases rule.isKept <;> rfl

theorem kept_in_table {mode : Mode} {rule : Rule} {s : State} {entry : Entry}
    (found : mode.kept? rule s = some entry) :
    mode.keeps = true ∧ rule.isKept = true ∧ s.table[rule.height s.cursor]? = some entry := by
  rw [Mode.kept?] at found
  by_cases keeps : (mode.keeps && rule.isKept) = true
  · rw [if_pos keeps] at found
    obtain ⟨modeKeeps, ruleKept⟩ := Bool.and_eq_true_iff.mp keeps
    exact ⟨modeKeeps, ruleKept, found⟩
  · rw [if_neg keeps] at found
    cases found

theorem recorded_or_before {mode : Mode} {rule : Rule} {before : Cursor} {result : Option Node} {t : State}
    {key : Nat} {entry : Entry} (found : (mode.record rule before result t).2.table[key]? = some entry) :
    rule.isKept = true ∧ rule.height before = key ∧ entry = result.map (fun node => (node, t.cursor)) ∨
      t.table[key]? = some entry := by
  rw [record_table] at found
  by_cases keeps : (mode.keeps && rule.isKept) = true
  · rw [if_pos keeps, Std.TreeMap.getElem?_insert] at found
    by_cases same : compare (rule.height before) key = .eq
    · rw [if_pos same, Option.some.injEq] at found
      exact Or.inl ⟨(Bool.and_eq_true_iff.mp keeps).2, Nat.compare_eq_eq.mp same, found.symm⟩
    · rw [if_neg same] at found
      exact Or.inr found
  · rw [if_neg keeps] at found
    exact Or.inr found

theorem evaluate_sticky (mode : Mode) (rule : Rule) (level : Nat) (s : State)
    (deep : s.tooDeep = true) : (evaluate grammar mode rule level s).2.tooDeep = true := by
  cases kept : mode.kept? rule s with
  | some entry =>
      rw [evaluate_kept kept, replay_too_deep]
      exact deep
  | none =>
      rw [evaluate_unkept kept, record_too_deep]
      refine run_sticky ?_ (grammar rule) level s deep
      intro inner deeper t innerDeep
      rw [evaluateBelow]
      by_cases below : inner.height t.cursor < rule.height s.cursor
      · rw [if_pos below]
        exact evaluate_sticky mode inner deeper t innerDeep
      · rw [if_neg below]
        exact innerDeep
termination_by rule.height s.cursor

theorem evaluate_below_sticky (mode : Mode) (bound : Nat) (rule : Rule) (level : Nat) (s : State)
    (deep : s.tooDeep = true) : (evaluateBelow grammar mode bound rule level s).2.tooDeep = true := by
  rw [evaluateBelow]
  by_cases below : rule.height s.cursor < bound
  · rw [if_pos below]
    exact evaluate_sticky mode rule level s deep
  · rw [if_neg below]
    exact deep

theorem replay_follows {mode : Mode} {rule : Rule} {level : Nat} {s : State} {entry : Entry}
    (found : mode.kept? rule s = some entry) (within : s.cursor.rest <:+ text)
    (right : TableRight grammar text s.table s.failure) (shallow : s.tooDeep = false) :
    Follows grammar text mode level s (replay entry s) (reading grammar rule s.cursor) := by
  obtain ⟨keepsTable, -, found⟩ := kept_in_table found
  obtain ⟨same, covered⟩ := right rule s.cursor entry within found
  have absorbed := Failure.absorb_of_covers s.failure _ covered
  rw [same]
  refine ⟨fun deep => ?_, fun _ plain => ?_, fun _ => ?_⟩
  · rw [replay_too_deep, shallow] at deep
    cases deep
  · cases keepsTable.symm.trans plain
  · cases read : (reading grammar rule s.cursor).outcome with
    | none =>
        refine ⟨by rw [read]; rfl, fun a d here => ?_, Failure.agrees_symm absorbed, right⟩
        cases read.symm.trans here
    | some pair =>
        refine ⟨by rw [read]; rfl, fun a d here => ?_, Failure.agrees_symm absorbed, right⟩
        cases read.symm.trans here
        rfl

theorem record_follows {mode : Mode} {rule : Rule} {level : Nat} {s : State}
    {result : Option Node × State} (within : s.cursor.rest <:+ text)
    (follows : Follows grammar text mode level s result (reading grammar rule s.cursor)) :
    Follows grammar text mode level s (mode.record rule s.cursor result.1 result.2)
      (reading grammar rule s.cursor) := by
  obtain ⟨value, t⟩ := result
  refine ⟨fun deep => ?_, fun shallow plain => ?_, fun shallow => ?_⟩
  · rw [record_too_deep] at deep
    exact follows.deep deep
  · rw [record_too_deep] at shallow
    exact follows.plain shallow plain
  · rw [record_too_deep] at shallow
    have faithful := follows.faithful shallow
    have same : value = (reading grammar rule s.cursor).outcome.map Prod.fst := faithful.value
    have entry : (value.map fun node => (node, t.cursor)) =
        (reading grammar rule s.cursor).outcome := by
      rw [same]
      cases read : (reading grammar rule s.cursor).outcome with
      | none => rfl
      | some pair =>
          have there : t.cursor = pair.2 := faithful.cursor pair.1 pair.2 read
          rw [there]
          rfl
    have covered : ∀ n ∈ (reading grammar rule s.cursor).notes, t.failure.Covers n :=
      fun n taken => Failure.covers_of_agrees (Failure.agrees_symm faithful.failure) n
        (Failure.absorb_covers_mem s.failure _ n taken)
    refine ⟨?_, ?_, ?_, ?_⟩
    · rw [record_value]
      exact same
    · intro node d read
      obtain rfl : value = some node := by rw [same, read]; rfl
      rw [record_cursor]
      exact faithful.cursor node d read
    · rw [record_failure]
      exact faithful.failure
    · intro other d kept withinOther found
      rw [record_failure]
      rcases recorded_or_before found with ⟨-, height, rfl⟩ | before
      · obtain ⟨rfl, rfl⟩ := height_injective within withinOther height
        exact ⟨entry, covered⟩
      · exact faithful.table other d kept withinOther before

theorem evaluate_follows (mode : Mode) (rule : Rule) (level : Nat) (s : State)
    (within : s.cursor.rest <:+ text) (right : TableRight grammar text s.table s.failure)
    (shallow : s.tooDeep = false) :
    Follows grammar text mode level s (evaluate grammar mode rule level s)
      (reading grammar rule s.cursor) := by
  cases kept : mode.kept? rule s with
  | some entry =>
      rw [evaluate_kept kept]
      exact replay_follows kept within right shallow
  | none =>
      rw [evaluate_unkept kept]
      apply record_follows within
      rw [reading_below]
      refine run_follows ⟨evaluate_below_sticky mode _, ?_, ?_⟩ (grammar rule) level s within right shallow
      · intro inner deeper t withinThen rightThen shallowThen
        rw [evaluateBelow, callsBelow]
        by_cases below : inner.height t.cursor < rule.height s.cursor
        · rw [if_pos below, if_pos below]
          exact evaluate_follows mode inner deeper t withinThen rightThen shallowThen
        · rw [if_neg below, if_neg below]
          refine ⟨fun deep => ?_, fun _ _ => Or.inr (Or.inl rfl), fun _ => ?_⟩
          · cases shallowThen.symm.trans deep
          · refine ⟨rfl, ?_, Failure.agrees_refl _, rightThen⟩
            intro a d impossible
            cases impossible
      · exact calls_below_forward _ fun inner c node d _ => reading_forward grammar inner c node d
termination_by rule.height s.cursor

theorem evaluate_simulates (grammar : Rule → Parser Node) (text : List Char) (mode : Mode) :
    Simulates grammar text mode (evaluate grammar mode) (reading grammar) :=
  ⟨evaluate_sticky mode, evaluate_follows mode, reading_forward grammar⟩

end Simulation

end ShellLine
