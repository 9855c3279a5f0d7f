import ShellLine.Proofs.Running.Once

set_option autoImplicit false

namespace ShellLine

structure Failure.Grows (a b : Failure) : Prop where
  left : b.cursor.left ≤ a.cursor.left
  expected : b.cursor.left = a.cursor.left → a.expected <:+ b.expected

structure State.Grows (s t : State) : Prop where
  table : s.Keeps t
  deep : s.tooDeep = true → t.tooDeep = true
  failure : s.failure.Grows t.failure

-- A relation of the states before and after a step which every step of a parser keeps.
structure Steady (R : State → State → Prop) : Prop where
  refl : ∀ s, R s s
  trans : ∀ {s t u}, R s t → R t u → R s u
  moved : ∀ s c, R s { s with cursor := c }
  note : ∀ s e, R s (s.note e)
  deep : ∀ s, R s { s with tooDeep := true }

namespace Failure

theorem grows_refl (a : Failure) : a.Grows a := ⟨Nat.le_refl _, fun _ => List.suffix_refl _⟩

theorem grows_trans {a b c : Failure} (first : a.Grows b) (second : b.Grows c) : a.Grows c := by
  have left := first.left
  have leftThen := second.left
  refine ⟨Nat.le_trans leftThen left, fun same => ?_⟩
  exact (first.expected (by omega)).trans (second.expected (by omega))

theorem grows_note (a : Failure) (c : Cursor) (e : Expected) : a.Grows (a.note c e) := by
  rw [note]
  by_cases right : a.cursor.left < c.left
  · rw [if_pos right]
    exact grows_refl a
  · rw [if_neg right]
    by_cases left : c.left < a.cursor.left
    · rw [if_pos left]
      exact ⟨Nat.le_of_lt left, fun same => absurd same (Nat.ne_of_lt left)⟩
    · rw [if_neg left]
      exact ⟨Nat.le_refl _, fun _ => List.suffix_cons _ _⟩

end Failure

theorem grows_steady : Steady State.Grows where
  refl _ := ⟨keeps_of_table rfl, id, Failure.grows_refl _⟩
  trans first second := ⟨keeps_trans first.table second.table, second.deep ∘ first.deep,
    Failure.grows_trans first.failure second.failure⟩
  moved _ _ := ⟨keeps_of_table rfl, id, Failure.grows_refl _⟩
  note s e := ⟨keeps_of_table rfl, id, Failure.grows_note s.failure s.cursor e⟩
  deep _ := ⟨keeps_of_table rfl, fun _ => rfl, Failure.grows_refl _⟩

section Runs

variable {calls : Rule → Nat → State → Option Node × State} {R : State → State → Prop} {limit : Nat}

theorem repeat_turns_steady {α : Type} {turn : State → Option (Turn α) × State} (steady : Steady R)
    (each : ∀ s, R s (turn s).2) (taken : List α) (s : State) :
    R s (Parser.repeatTurns turn taken s).2 := by
  have first := each s
  rw [Parser.repeatTurns]
  generalize turn s = outcome at first ⊢
  obtain ⟨next, t⟩ := outcome
  cases next with
  | none => exact first
  | some next =>
      cases next with
      | stop | last => exact first
      | more value =>
          dsimp only
          by_cases moves : t.cursor.left < s.cursor.left
          · rw [if_pos moves]
            exact steady.trans first (repeat_turns_steady steady each (value :: taken) t)
          · rw [if_neg moves]
            exact first
termination_by s.cursor.left

theorem run_steady (steady : Steady R) (called : ∀ rule level s, R s (calls rule level s).2) {α : Type}
    (p : Parser α) : ∀ level s, R s (p.run calls limit level s).2 := by
  induction p with
  | succeed | fail | look | place => exact fun _ s => steady.refl s
  | expected e => exact fun _ s => steady.note s e
  | skip => exact fun _ s => steady.moved s _
  | andThen first next firstSteady nextSteady =>
      intro level s
      have before := firstSteady level s
      rw [run_and_then, chain]
      generalize first.run calls limit level s = outcome at before ⊢
      obtain ⟨value, t⟩ := outcome
      cases value with
      | none => exact before
      | some a => exact steady.trans before (nextSteady a level t)
  | attempt inner ih =>
      intro level s
      rw [run_attempt]
      exact steady.trans (ih level s) (steady.moved _ _)
  | nested inner ih =>
      intro level s
      by_cases full : limit ≠ 0 ∧ limit ≤ level
      · rw [Parser.run_nested_full full]
        exact steady.deep s
      · rw [Parser.run_nested_below full]
        exact ih (level + 1) s
  | rounds turn ih => exact fun level s => repeat_turns_steady steady (ih level) [] s
  | call rule => exact called rule

end Runs

section Rules

variable {mode : Mode}

theorem evaluate_grows (rule : Rule) (level : Nat) (s : State) :
    s.Grows (evaluate grammar mode rule level s).2 ∧ ∀ key, rule.height s.cursor < key →
      (evaluate grammar mode rule level s).2.table[key]? = s.table[key]? := by
  cases kept : mode.kept? rule s with
  | some entry =>
      rw [evaluate_kept kept]
      cases entry with
      | none => exact ⟨grows_steady.refl s, fun _ _ => rfl⟩
      | some => exact ⟨grows_steady.moved s _, fun _ _ => rfl⟩
  | none =>
      rw [evaluate_unkept kept]
      let R (t u : State) : Prop :=
        t.Grows u ∧ ∀ key, rule.height s.cursor ≤ key → u.table[key]? = t.table[key]?
      have steady : Steady R :=
        { refl := fun t => ⟨grows_steady.refl t, fun _ _ => rfl⟩
          trans := fun first second => ⟨grows_steady.trans first.1 second.1,
            fun key high => (second.2 key high).trans (first.2 key high)⟩
          moved := fun t c => ⟨grows_steady.moved t c, fun _ _ => rfl⟩
          note := fun t e => ⟨grows_steady.note t e, fun _ _ => rfl⟩
          deep := fun t => ⟨grows_steady.deep t, fun _ _ => rfl⟩ }
      have called : ∀ inner deeper t,
          R t (evaluateBelow grammar mode (rule.height s.cursor) inner deeper t).2 := by
        intro inner deeper t
        rw [evaluateBelow]
        by_cases below : inner.height t.cursor < rule.height s.cursor
        · rw [if_pos below]
          obtain ⟨grows, above⟩ := evaluate_grows inner deeper t
          exact ⟨grows, fun key high => above key (Nat.lt_of_lt_of_le below high)⟩
        · rw [if_neg below]
          exact steady.refl t
      let body := (grammar rule).run (evaluateBelow grammar mode (rule.height s.cursor)) mode.limit level s
      obtain ⟨grows, above⟩ : R s body.2 := run_steady steady called (grammar rule) level s
      have vacant : (mode.keeps && rule.isKept) = true → body.2.table[rule.height s.cursor]? = none := by
        intro keeps
        rw [above _ (Nat.le_refl _)]
        exact vacant_of_missing kept keeps
      refine ⟨⟨keeps_trans grows.table (keeps_record vacant), ?_, ?_⟩, fun key high => ?_⟩
      · rw [record_too_deep]
        exact grows.deep
      · rw [record_failure]
        exact grows.failure
      · rw [record_elsewhere (Nat.ne_of_lt high)]
        exact above key (Nat.le_of_lt high)
termination_by rule.height s.cursor

theorem run_grows {α : Type} (p : Parser α) (level : Nat) (s : State) :
    s.Grows (p.run (evaluate grammar mode) mode.limit level s).2 :=
  run_steady grows_steady (fun rule level s => (evaluate_grows rule level s).1) p level s

end Rules

end ShellLine
