import ShellLine.Proofs.Reading.Calls

set_option autoImplicit false

namespace ShellLine.Parser

def StaysLevel (calls : Rule → Cursor → Reading Node) {α : Type} : Parser α → Cursor → Prop
  | andThen first next, c =>
      first.StaysLevel calls c ∧ ∀ a d, first.Gives calls c a d → (next a).StaysLevel calls d
  | attempt inner, c => inner.StaysLevel calls c
  | nested _, _ | call _, _ => False
  | rounds turn, c => ∀ d : Cursor, d.rest <:+ c.rest → turn.StaysLevel calls d
  | succeed _, _ | fail, _ | expected _, _ | look, _ | place, _ | skip _, _ => True

variable {calls : Rule → Cursor → Reading Node} {α β : Type}

theorem depth_and_then {first : Reading α} {next : α → Cursor → Reading β}
    (level : first.depth = 0) (later : ∀ a d, first.outcome = some (a, d) → (next a d).depth = 0) :
    (first.andThen next).depth = 0 := by
  rw [Reading.andThen]
  cases found : first.outcome with
  | none => exact level
  | some pair => simp [level, later pair.1 pair.2 found]

theorem depth_read_turns {turn : Cursor → Reading (Turn α)}
    (forward : ∀ c next d, (turn c).outcome = some (next, d) → d.rest <:+ c.rest) (taken : List α)
    (c : Cursor) (level : ∀ d : Cursor, d.rest <:+ c.rest → (turn d).depth = 0) :
    (readTurns turn taken c).depth = 0 := by
  rw [readTurns]
  refine depth_and_then (level c (List.suffix_refl _)) fun next d found => ?_
  cases next with
  | stop => rfl
  | last value => rfl
  | more value =>
      by_cases progress : d.left < c.left
      · simp only [if_pos progress]
        exact depth_read_turns forward _ d fun e behind => level e (behind.trans (forward c _ d found))
      · simp only [if_neg progress]
termination_by c.left

theorem read_level (forward : GoForward calls) (p : Parser α) :
    ∀ c, p.StaysLevel calls c → (p.read calls c).depth = 0 := by
  induction p with
  | succeed | fail | expected | look | place | skip => exact fun _ _ => rfl
  | andThen first next firstLevel nextLevel =>
      exact fun c level => depth_and_then (firstLevel c level.1) fun a d found =>
        nextLevel a d (level.2 a d found)
  | attempt inner ih =>
      intro c level
      have depth := ih c level
      rw [Parser.read]
      cases (inner.read calls c).outcome <;> exact depth
  | nested inner => exact fun _ level => level.elim
  | call rule => exact fun _ level => level.elim
  | rounds turn ih =>
      exact fun c level => depth_read_turns (read_forward forward turn) [] c fun d behind =>
        ih d (level d behind)

@[simp] theorem level_pure (a : α) (c : Cursor) : (pure a : Parser α).StaysLevel calls c := trivial

@[simp] theorem level_bind (p : Parser α) (next : α → Parser β) (c : Cursor) :
    (p >>= next).StaysLevel calls c ↔
      p.StaysLevel calls c ∧ ∀ a d, p.Gives calls c a d → (next a).StaysLevel calls d := Iff.rfl

@[simp] theorem level_fail (c : Cursor) : (fail : Parser α).StaysLevel calls c := trivial

@[simp] theorem level_refuse (e : Expected) (c : Cursor) :
    (refuse e : Parser α).StaysLevel calls c := ⟨trivial, fun _ _ _ => trivial⟩

@[simp] theorem level_expected (e : Expected) (c : Cursor) : (expected e).StaysLevel calls c := trivial

@[simp] theorem level_look (c : Cursor) : look.StaysLevel calls c := trivial

@[simp 1100] theorem level_look_bind (next : List Char → Parser β) (c : Cursor) :
    (look >>= next).StaysLevel calls c ↔ (next c.rest).StaysLevel calls c := by
  simp

@[simp] theorem level_skip (count : Nat) (c : Cursor) : (skip count).StaysLevel calls c := trivial

@[simp] theorem level_attempt (p : Parser α) (c : Cursor) :
    (attempt p).StaysLevel calls c ↔ p.StaysLevel calls c := Iff.rfl

@[simp] theorem level_rounds (turn : Parser (Turn α)) (c : Cursor) :
    (rounds turn).StaysLevel calls c ↔
      ∀ d : Cursor, d.rest <:+ c.rest → turn.StaysLevel calls d := Iff.rfl

@[simp] theorem level_atomic (p : Parser α) (c : Cursor) :
    (atomic p).StaysLevel calls c ↔ p.StaysLevel calls c := by
  refine ⟨fun level => level.1, fun level => ⟨level, fun tried d _ => ?_⟩⟩
  cases tried <;> exact trivial

@[simp] theorem level_optional (p : Parser α) (c : Cursor) :
    (optional p).StaysLevel calls c ↔ p.StaysLevel calls c :=
  ⟨fun level => level.1, fun level => ⟨level, fun _ _ _ => trivial⟩⟩

@[simp] theorem level_or_else (p q : Parser α) (c : Cursor) :
    (p <|> q).StaysLevel calls c ↔
      p.StaysLevel calls c ∧ (p.Fails calls c → q.StaysLevel calls c) := by
  change ((attempt p >>= _).StaysLevel calls c) ↔ _
  simp only [level_bind, level_attempt, gives_attempt]
  refine and_congr_right fun _ => ⟨fun level failed => ?_, fun level tried d given => ?_⟩
  · exact level none c (Or.inr ⟨rfl, failed, rfl⟩)
  · rcases given with ⟨a, rfl, -⟩ | ⟨rfl, failed, rfl⟩
    · exact trivial
    · exact level failed

@[simp] theorem level_many (p : Parser α) (c : Cursor) :
    (many p).StaysLevel calls c ↔ ∀ d : Cursor, d.rest <:+ c.rest → p.StaysLevel calls d := by
  refine ⟨fun level d behind => (level d behind).1, fun level d behind => ⟨level d behind, ?_⟩⟩
  intro tried e _
  cases tried <;> exact trivial

@[simp] theorem level_take_while (accepts : Char → Bool) (c : Cursor) :
    (takeWhile accepts).StaysLevel calls c := by
  simp [takeWhile, take]

end ShellLine.Parser
