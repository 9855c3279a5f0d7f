import ShellLine.Proofs.Reading.Gives

set_option autoImplicit false

namespace ShellLine.Parser

def Within (calls : Rule → Cursor → Reading Node) (n : Nat) {α : Type} (p : Parser α)
    (R : α → Prop) : Prop :=
  ∀ c a d, p.Gives calls c a d → (p.read calls c).depth ≤ n → R a

variable {calls : Rule → Cursor → Reading Node} {n : Nat} {α β : Type}

theorem within_pure {a : α} {R : α → Prop} (holds : R a) : (pure a : Parser α).Within calls n R := by
  intro c b d given _
  obtain ⟨rfl, -⟩ := (gives_pure a b c d).mp given
  exact holds

theorem within_fail (R : α → Prop) : (fail : Parser α).Within calls n R :=
  fun c a d given => absurd given (gives_fail c d a)

theorem within_bind {p : Parser α} {next : α → Parser β} {Q : α → Prop} {R : β → Prop}
    (first : p.Within calls n Q) (later : ∀ a, Q a → (next a).Within calls n R) :
    (p >>= next).Within calls n R := by
  intro c b e given shallow
  obtain ⟨a, d, firstGiven, laterGiven⟩ := (gives_bind p next c e b).mp given
  have depth : ((p >>= next).read calls c).depth =
      max (p.read calls c).depth ((next a).read calls d).depth := by
    change ((p.read calls c).andThen fun a d => (next a).read calls d).depth = _
    rw [Reading.andThen, firstGiven]
  rw [depth, Nat.max_le] at shallow
  exact later a (first c a d firstGiven shallow.1) d b e laterGiven shallow.2

theorem within_after {p : Parser α} {next : α → Parser β} {R : β → Prop}
    (later : ∀ a, (next a).Within calls n R) : (p >>= next).Within calls n R :=
  within_bind (fun _ _ _ _ _ => trivial) fun a (_ : True) => later a

theorem within_attempt {p : Parser α} {R : α → Prop} (inner : p.Within calls n R) :
    (attempt p).Within calls n fun tried => ∀ a, tried = some a → R a := by
  intro c tried d given shallow a found
  have depth : ((attempt p).read calls c).depth = (p.read calls c).depth := by
    rw [Parser.read]
    cases (p.read calls c).outcome <;> rfl
  rw [depth] at shallow
  rcases (gives_attempt p c d tried).mp given with ⟨b, rfl, innerGiven⟩ | ⟨rfl, -, -⟩
  · cases found
    exact inner c a d innerGiven shallow
  · cases found

theorem within_or_else {p q : Parser α} {R : α → Prop} (first : p.Within calls n R)
    (second : q.Within calls n R) : (p <|> q).Within calls n R := by
  change (attempt p >>= _).Within calls n R
  refine within_bind (within_attempt first) fun tried known => ?_
  cases tried with
  | some a => exact within_pure (known a rfl)
  | none => exact second

theorem within_atomic {p : Parser α} {R : α → Prop} (inner : p.Within calls n R) :
    (atomic p).Within calls n R := by
  refine within_bind (within_attempt inner) fun tried known => ?_
  cases tried with
  | some a => exact within_pure (known a rfl)
  | none => exact within_fail R

theorem within_nested {p : Parser α} {R : α → Prop}
    (inner : ∀ m, n = m + 1 → p.Within calls m R) : (nested p).Within calls n R := by
  intro c a d given shallow
  change (p.read calls c).depth + 1 ≤ n at shallow
  obtain ⟨m, rfl⟩ := Nat.exists_eq_add_of_le' (Nat.le_trans (Nat.le_add_left 1 _) shallow)
  exact inner m rfl c a d given (Nat.le_of_succ_le_succ shallow)

def TurnHolds (R : α → Prop) : Turn α → Prop
  | .more value | .last value => R value
  | .stop => True

theorem read_turns_within {turn : Parser (Turn α)} {R : α → Prop}
    (each : turn.Within calls n (TurnHolds R)) (taken values : List α) (c d : Cursor)
    (known : ∀ value ∈ taken, R value)
    (read : (readTurns (turn.read calls) taken c).outcome = some (values, d))
    (shallow : (readTurns (turn.read calls) taken c).depth ≤ n) : ∀ value ∈ values, R value := by
  rw [readTurns] at read shallow
  obtain ⟨next, e, given, after⟩ := (and_then_some _ _ values d).mp read
  simp only [Reading.andThen, given, Nat.max_le] at shallow
  have here := each c next e given shallow.1
  have more_known : ∀ value, R value → ∀ other ∈ value :: taken, R other :=
    fun value new => List.forall_mem_cons.mpr ⟨new, known⟩
  cases next with
  | stop =>
      cases after
      simpa using known
  | last value =>
      cases after
      simpa only [List.mem_reverse] using more_known value here
  | more value =>
      by_cases progress : e.left < c.left
      · simp only [if_pos progress] at after shallow
        exact read_turns_within each (value :: taken) values e d (more_known value here) after shallow.2
      · simp only [if_neg progress] at after
        cases after
        simpa only [List.mem_reverse] using more_known value here
termination_by c.left

theorem within_rounds {turn : Parser (Turn α)} {R : α → Prop}
    (each : turn.Within calls n (TurnHolds R)) :
    (rounds turn).Within calls n fun values => ∀ value ∈ values, R value :=
  fun c values d given shallow => read_turns_within each [] values c d (by simp) given shallow

theorem within_many {item : Parser α} {R : α → Prop} (each : item.Within calls n R) :
    (many item).Within calls n fun values => ∀ value ∈ values, R value := by
  refine within_rounds (within_bind (within_attempt each) fun tried known => ?_)
  cases tried with
  | some value => exact within_pure (known value rfl)
  | none => exact within_pure trivial

end ShellLine.Parser
