import ShellLine.Bytewise.Command

set_option autoImplicit false

namespace ShellLine.Bytewise

namespace Run

variable {α β : Type}

def Within (short long : Run α) : Prop := ∀ r, short = some r → long = some r

theorem within_refl (run : Run α) : run.Within run := fun _ => id

theorem within_map {short long : Run α} (f : Trail × Outcome α → Trail × Outcome β) (within : short.Within long) :
    Within (short.map f) (long.map f) := by
  intro r given
  obtain ⟨q, ran, rfl⟩ := Option.map_eq_some_iff.mp given
  rw [within q ran]
  rfl

theorem within_chain {short long : Run α} {next later : α → State → Run β} (within : short.Within long)
    (each : ∀ value t, (next value t).Within (later value t)) : (short.chain next).Within (long.chain later) := by
  intro r given
  obtain ⟨⟨before, outcome⟩, ran, rest⟩ := Option.bind_eq_some_iff.mp given
  rw [chain, within _ ran]
  cases outcome with
  | gave value t => exact within_map _ (each value t) r rest
  | missed | panicked => exact rest

end Run

section Fuel

variable {text : List Char} {limit turns more : Nat}

theorem repeat_turns_within {α : Type} {turn longer : State → Run (Turn α)}
    (each : ∀ s, (turn s).Within (longer s)) (enough : turns ≤ more) (s : State) :
    (repeatTurns turn turns s).Within (repeatTurns longer more s) := by
  induction turns generalizing more s with
  | zero => exact fun _ given => by cases given
  | succ turns ih =>
      obtain ⟨others, rfl⟩ := Nat.exists_eq_add_of_le' enough
      refine Run.within_chain (each s) fun next t => ?_
      cases next with
      | stop | last => exact Run.within_refl _
      | more value => exact Run.within_chain (ih (Nat.le_add_left ..) t) fun _ _ => Run.within_refl _

theorem run_within {calls others : Rule → Nat → State → Run Node}
    (within : ∀ rule level s, (calls rule level s).Within (others rule level s)) (enough : turns ≤ more)
    {α : Type} (p : Program α) (level : Nat) (s : State) :
    (p.run text limit calls turns level s).Within (p.run text limit others more level s) := by
  induction p generalizing level s with
  | give | miss | act | scan => exact Run.within_refl _
  | andThen first next firstWithin nextWithin =>
      exact Run.within_chain (firstWithin level s) fun value t => nextWithin value level t
  | maybe inner ih => exact Run.within_map _ (ih level s)
  | attempt inner ih => exact Run.within_map _ (Run.within_map _ (ih level s))
  | nested inner ih =>
      rw [Program.run, Program.run]
      split
      · exact Run.within_refl _
      · exact ih (level + 1) s
  | rounds turn ih => exact repeat_turns_within (ih level) enough s
  | call rule => exact within rule level s

theorem evaluate_within {fuel enough : Nat} (less : fuel ≤ enough) (rule : Rule) (level : Nat) (s : State) :
    (evaluate rules text limit fuel rule level s).Within (evaluate rules text limit enough rule level s) := by
  induction fuel generalizing enough rule level s with
  | zero => exact fun _ given => by cases given
  | succ fuel ih =>
      obtain ⟨others, rfl⟩ := Nat.exists_eq_add_of_le' less
      have fewer : fuel ≤ others + fuel := Nat.le_add_left ..
      have body : Run.Within ((rules rule).run text limit (evaluate rules text limit fuel) fuel level s) _ :=
        run_within (ih fewer) fewer (rules rule) level s
      rw [← Nat.add_assoc, evaluate, evaluate]
      split
      · exact Run.within_refl _
      · rw [Run.ofRule, Run.ofRule]
        split
        · exact Run.within_map _ (Run.within_map _ body)
        · exact body

end Fuel

def Runs (text : List Char) (limit : Nat) {α : Type} (p : Program α) (level : Nat) (s : State)
    (trail : Trail) (outcome : Outcome α) : Prop :=
  ∃ fuel, p.run text limit (evaluate rules text limit fuel) fuel level s = some (trail, outcome)

namespace Outcome

variable {α β : Type}

def closing : Outcome (Turn α) → Option (Outcome (List α))
  | gave .stop t => some (.gave [] t)
  | gave (.last value) t => some (.gave [value] t)
  | gave (.more _) _ => none
  | missed t => some (.missed t)
  | panicked => some .panicked

def map (f : α → β) : Outcome α → Outcome β
  | gave value t => gave (f value) t
  | missed t => missed t
  | panicked => panicked

end Outcome

section Steps

variable {text : List Char} {limit level : Nat} {α β : Type} {p : Program α} {s t : State}
  {trail before after : Trail} {outcome : Outcome α}

theorem run_with_more {fuel more : Nat} (enough : fuel ≤ more) {r : Trail × Outcome α}
    (ran : p.run text limit (evaluate rules text limit fuel) fuel level s = some r) :
    p.run text limit (evaluate rules text limit more) more level s = some r :=
  run_within (evaluate_within enough) enough p level s r ran

theorem runs_unique {other : Trail} {final : Outcome α} (runs : Runs text limit p level s trail outcome)
    (again : Runs text limit p level s other final) : trail = other ∧ outcome = final := by
  obtain ⟨fuel, ran⟩ := runs
  obtain ⟨more, ranAgain⟩ := again
  have same := (run_with_more (Nat.le_max_left fuel more) ran).symm.trans
    (run_with_more (Nat.le_max_right fuel more) ranAgain)
  exact Prod.mk.inj (Option.some.inj same)

theorem runs_give (value : α) : Runs text limit (.give value) level s [] (.gave value s) := ⟨0, rfl⟩

theorem runs_miss : Runs text limit (.miss : Program α) level s [] (.missed s) := ⟨0, rfl⟩

theorem runs_act (action : Action α) :
    Runs text limit (.act action) level s (action.perform text s).1 (action.perform text s).2 := ⟨0, rfl⟩

theorem runs_scan (goesOn : UInt8 → Bool) :
    Runs text limit (.scan goesOn) level s (scanBytes goesOn s.pos ((bytes text).drop s.pos) s).1
      (scanBytes goesOn s.pos ((bytes text).drop s.pos) s).2 := ⟨0, rfl⟩

theorem runs_and_then {next : α → Program β} {value : α} {final : Outcome β}
    (first : Runs text limit p level s before (.gave value t))
    (later : Runs text limit (next value) level t after final) :
    Runs text limit (p >>= next) level s (before ++ after) final := by
  obtain ⟨fuel, ran⟩ := first
  obtain ⟨more, ranLater⟩ := later
  refine ⟨max fuel more, ?_⟩
  have head := run_with_more (Nat.le_max_left fuel more) ran
  have tail := run_with_more (Nat.le_max_right fuel more) ranLater
  change Run.chain _ _ = _
  rw [head, Run.chain, Option.bind_some]
  exact congrArg (Option.map _) tail

theorem runs_cut {next : α → Program β} (first : Runs text limit p level s trail (.missed t)) :
    Runs text limit (p >>= next) level s trail (.missed t) := by
  obtain ⟨fuel, ran⟩ := first
  refine ⟨fuel, ?_⟩
  change Run.chain _ _ = _
  rw [ran, Run.chain, Option.bind_some]
  exact congrArg (fun trail => some (trail, _)) (List.append_nil trail)

theorem runs_maybe (inner : Runs text limit p level s trail outcome) :
    Runs text limit (.maybe p) level s (trail ++ (outcome.tried id).1) (outcome.tried id).2 := by
  obtain ⟨fuel, ran⟩ := inner
  refine ⟨fuel, ?_⟩
  rw [Program.run, ran]
  rfl

theorem runs_attempt (inner : Runs text limit p level s trail outcome) :
    let tried := outcome.tried fun t => { t with pos := s.pos }
    Runs text limit (.attempt p) level s (.saves s.pos :: (trail ++ tried.1)) tried.2 := by
  obtain ⟨fuel, ran⟩ := inner
  refine ⟨fuel, ?_⟩
  rw [Program.run, ran]
  rfl

theorem runs_refused (full : limit ≠ 0 ∧ limit ≤ level) :
    Runs text limit (.nested p) level s [.stands { s with tooDeep := true }]
      (.missed { s with tooDeep := true }) := by
  refine ⟨0, ?_⟩
  rw [Program.run, if_pos full]

theorem runs_nested (room : ¬ (limit ≠ 0 ∧ limit ≤ level))
    (inner : Runs text limit p (level + 1) s trail outcome) :
    Runs text limit (.nested p) level s trail outcome := by
  obtain ⟨fuel, ran⟩ := inner
  refine ⟨fuel, ?_⟩
  rw [Program.run, if_neg room, ran]

section Rounds

variable {turn : Program (Turn α)}

theorem runs_turn {first : Outcome (Turn α)} {final : Outcome (List α)}
    (ran : Runs text limit turn level s trail first) (closed : first.closing = some final) :
    Runs text limit (.rounds turn) level s trail final := by
  obtain ⟨fuel, ran⟩ := ran
  refine ⟨fuel + 1, ?_⟩
  rw [Program.run, repeatTurns, run_with_more (Nat.le_succ fuel) ran, Run.chain, Option.bind_some]
  rcases first with ⟨value | value | -, t⟩ | t | -
  · cases closed
  all_goals
    obtain rfl := Option.some.inj closed
    exact congrArg (fun trail => some (trail, _)) (List.append_nil trail)

theorem runs_more {value : α} {others : Outcome (List α)}
    (first : Runs text limit turn level s before (.gave (.more value) t))
    (later : Runs text limit (.rounds turn) level t after others) :
    Runs text limit (.rounds turn) level s (before ++ after) (others.map (value :: ·)) := by
  obtain ⟨fuel, ran⟩ := first
  obtain ⟨more, ranLater⟩ := later
  have enough := Nat.le_max_left fuel more
  have head := run_with_more (Nat.le_succ_of_le enough) ran
  have tail : repeatTurns (turn.run text limit (evaluate rules text limit (max fuel more + 1))
      (max fuel more + 1) level) (max fuel more) t = some (after, others) := by
    refine repeat_turns_within (fun u => ?_) (Nat.le_max_right fuel more) t _ ranLater
    have less : more ≤ max fuel more + 1 := Nat.le_succ_of_le (Nat.le_max_right fuel more)
    exact run_within (evaluate_within less) less turn level u
  refine ⟨max fuel more + 1, ?_⟩
  rw [Program.run, repeatTurns, head, Run.chain, Option.bind_some]
  simp only [Outcome.follow, tail, Run.chain, Option.bind_some]
  cases others with
  | gave values u => simp [Outcome.map]
  | missed | panicked => simp [Outcome.map]

end Rounds

section Calls

variable {rule : Rule} {final : Outcome Node}

theorem runs_replayed {entry : Option (Node × Nat)} (isKept : rule.isKept = true)
    (found : s.kept? rule = some entry) :
    Runs text limit (.call rule) level s (replay entry s).1 (replay entry s).2 := by
  refine ⟨1, ?_⟩
  rw [Program.run, evaluate, if_pos isKept, found]

theorem runs_kept (isKept : rule.isKept = true) (missing : s.kept? rule = none)
    (body : Runs text limit (rules rule) level s trail final) :
    Runs text limit (.call rule) level s (.saves s.pos :: (trail ++ (final.kept rule s.pos).1))
      (final.kept rule s.pos).2 := by
  obtain ⟨fuel, ran⟩ := body
  refine ⟨fuel + 1, ?_⟩
  rw [Program.run, evaluate, if_pos isKept, missing, Run.ofRule, if_pos isKept, ran]
  rfl

theorem runs_unkept (unkept : rule.isKept = false) (body : Runs text limit (rules rule) level s trail final) :
    Runs text limit (.call rule) level s trail final := by
  obtain ⟨fuel, ran⟩ := body
  refine ⟨fuel + 1, ?_⟩
  have plain : ¬ rule.isKept = true := by simp [unkept]
  rw [Program.run, evaluate, if_neg plain, Run.ofRule, if_neg plain, ran]

end Calls
end Steps

end ShellLine.Bytewise
