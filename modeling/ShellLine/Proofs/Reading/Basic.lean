import ShellLine.Parsing.Engine
import ShellLine.Proofs.Reading.Failure

set_option autoImplicit false

namespace ShellLine

structure Reading (α : Type) where
  outcome : Option (α × Cursor)
  notes : List Note := []
  depth : Nat := 0

namespace Reading

def failed {α : Type} : Reading α := { outcome := none }

def andThen {α β : Type} (first : Reading α) (next : α → Cursor → Reading β) : Reading β :=
  match first.outcome with
  | none => ⟨none, first.notes, first.depth⟩
  | some (value, cursor) =>
      let second := next value cursor
      ⟨second.outcome, first.notes ++ second.notes, max first.depth second.depth⟩

end Reading

def readTurns {α : Type} (turn : Cursor → Reading (Turn α)) (taken : List α) (c : Cursor) :
    Reading (List α) :=
  (turn c).andThen fun
    | .stop, d => { outcome := some (taken.reverse, d) }
    | .last value, d => { outcome := some ((value :: taken).reverse, d) }
    | .more value, d =>
        if d.left < c.left then readTurns turn (value :: taken) d
        else { outcome := some ((value :: taken).reverse, d) }
termination_by c.left

def Parser.read (calls : Rule → Cursor → Reading Node) {α : Type} :
    Parser α → Cursor → Reading α
  | succeed value, c => { outcome := some (value, c) }
  | andThen first next, c => (first.read calls c).andThen fun value d => (next value).read calls d
  | fail, _ => .failed
  | expected e, c => { outcome := some ((), c), notes := [(c, e)] }
  | look, c => { outcome := some (c.rest, c) }
  | place, c => { outcome := some (c.left, c) }
  | skip count, c => { outcome := some ((), c.advance count) }
  | attempt inner, c =>
      let tried := inner.read calls c
      match tried.outcome with
      | some (value, d) => ⟨some (some value, d), tried.notes, tried.depth⟩
      | none => ⟨some (none, c), tried.notes, tried.depth⟩
  | nested inner, c =>
      let deeper := inner.read calls c
      ⟨deeper.outcome, deeper.notes, deeper.depth + 1⟩
  | rounds turn, c => readTurns (turn.read calls) [] c
  | call rule, c => calls rule c

-- Rules that do not stand lower than a bound fail.
def callsBelow (bound : Nat) (calls : Rule → Cursor → Reading Node) (rule : Rule) (c : Cursor) :
    Reading Node :=
  if rule.height c < bound then calls rule c else .failed

-- What a rule of a grammar says about a text.
def reading (grammar : Rule → Parser Node) (rule : Rule) (c : Cursor) : Reading Node :=
  let calls (inner : Rule) (d : Cursor) : Reading Node :=
    if inner.height d < rule.height c then reading grammar inner d else .failed
  (grammar rule).read calls c
termination_by rule.height c

theorem reading_below (grammar : Rule → Parser Node) (rule : Rule) (c : Cursor) :
    reading grammar rule c =
      (grammar rule).read (callsBelow (rule.height c) (reading grammar)) c := by
  rw [reading]
  rfl

theorem and_then_some {α β : Type} (first : Reading α) (next : α → Cursor → Reading β)
    (value : β) (d : Cursor) :
    (first.andThen next).outcome = some (value, d) ↔
      ∃ a c, first.outcome = some (a, c) ∧ (next a c).outcome = some (value, d) := by
  rw [Reading.andThen]
  cases found : first.outcome with
  | none => simp
  | some pair =>
      obtain ⟨a, c⟩ := pair
      simp [and_assoc]

def GoForward (calls : Rule → Cursor → Reading Node) : Prop :=
  ∀ rule c node d, (calls rule c).outcome = some (node, d) → d.rest <:+ c.rest

theorem read_turns_forward {α : Type} (turn : Cursor → Reading (Turn α))
    (forward : ∀ c next d, (turn c).outcome = some (next, d) → d.rest <:+ c.rest)
    (taken : List α) (c : Cursor) (values : List α) (d : Cursor)
    (read : (readTurns turn taken c).outcome = some (values, d)) : d.rest <:+ c.rest := by
  rw [readTurns, and_then_some] at read
  obtain ⟨next, e, first, others⟩ := read
  have passed := forward c next e first
  cases next with
  | stop => cases others; exact passed
  | last value => cases others; exact passed
  | more value =>
      by_cases progress : e.left < c.left
      · simp only [if_pos progress] at others
        exact (read_turns_forward turn forward _ e values d others).trans passed
      · simp only [if_neg progress] at others
        cases others
        exact passed
termination_by c.left

theorem read_forward {calls : Rule → Cursor → Reading Node} (forward : GoForward calls)
    {α : Type} (p : Parser α) :
    ∀ c value d, (p.read calls c).outcome = some (value, d) → d.rest <:+ c.rest := by
  induction p with
  | succeed | expected | look | place =>
      intro c value d read
      cases read
      exact List.suffix_refl _
  | fail =>
      intro c value d read
      cases read
  | skip count =>
      intro c value d read
      cases read
      exact c.advance_suffix count
  | andThen first next firstForward nextForward =>
      intro c value d read
      rw [Parser.read, and_then_some] at read
      obtain ⟨a, e, readFirst, readNext⟩ := read
      exact (nextForward a e value d readNext).trans (firstForward c a e readFirst)
  | attempt inner ih =>
      intro c value d read
      cases tried : (inner.read calls c).outcome with
      | none =>
          simp only [Parser.read, tried] at read
          cases read
          exact List.suffix_refl _
      | some pair =>
          simp only [Parser.read, tried] at read
          cases read
          exact ih c pair.1 pair.2 tried
  | nested inner ih => exact ih
  | rounds turn ih =>
      intro c values d read
      exact read_turns_forward (turn.read calls) ih [] c values d read
  | call rule => exact forward rule

theorem calls_below_forward (bound : Nat) {calls : Rule → Cursor → Reading Node}
    (forward : ∀ rule c node d, rule.height c < bound →
      (calls rule c).outcome = some (node, d) → d.rest <:+ c.rest) :
    GoForward (callsBelow bound calls) := by
  intro rule c node d read
  rw [callsBelow] at read
  by_cases below : rule.height c < bound
  · rw [if_pos below] at read
    exact forward rule c node d below read
  · rw [if_neg below] at read
    cases read

theorem reading_forward (grammar : Rule → Parser Node) : GoForward (reading grammar) := by
  intro rule c node d read
  rw [reading_below] at read
  refine read_forward (calls_below_forward _ ?_) (grammar rule) c node d read
  intro inner e innerNode f below innerRead
  exact reading_forward grammar inner e innerNode f innerRead
termination_by rule c => rule.height c

end ShellLine
