import ShellLine.Proofs.Grammar.Advance

set_option autoImplicit false

namespace ShellLine.Parser

def IsPlain {α : Type} : Parser α → Prop
  | andThen first next => first.IsPlain ∧ ∀ a, (next a).IsPlain
  | attempt inner => inner.IsPlain
  | nested _ | rounds _ | call _ => False
  | succeed _ | fail | expected _ | look | place | skip _ => True

-- Every rule that may be called from a place on stands below a bound.
def CallsLower (answers : Answers) (bound : Nat) {α : Type} : Parser α → Cursor → Prop
  | andThen first next, c =>
      first.CallsLower answers bound c ∧
        ∀ room a d, first.MayGive answers room c a d → (next a).CallsLower answers bound d
  | attempt inner, c => inner.CallsLower answers bound c
  | nested inner, c => inner.CallsLower answers bound c
  | rounds turn, c => ∀ d : Cursor, d.rest <:+ c.rest → turn.CallsLower answers bound d
  | call rule, c => rule.height c < bound
  | succeed _, _ | fail, _ | expected _, _ | look, _ | place, _ | skip _, _ => True

-- The bound of a rank at a place is that of a rule of that rank.
def Ranked (answers : Answers) (rank : Nat) {α : Type} (p : Parser α) : Prop :=
  ∀ (c : Cursor) (bound : Nat), 6 * c.left + rank ≤ bound → p.CallsLower answers bound c

def Progresses (answers : Answers) {α : Type} : Parser α → Prop
  | andThen first next => first.Progresses answers ∧ ∀ a, (next a).Progresses answers
  | attempt inner => inner.Progresses answers
  | nested inner => inner.Progresses answers
  | rounds turn => turn.Progresses answers ∧
      ∀ room c value d, turn.MayGive answers room c (.more value) d → d.left < c.left
  | succeed _ | fail | expected _ | look | place | skip _ | call _ => True

section Plain

variable {α β : Type}

@[simp] theorem plain_pure (a : α) : (pure a : Parser α).IsPlain := trivial

@[simp] theorem plain_bind (p : Parser α) (next : α → Parser β) :
    (p >>= next).IsPlain ↔ p.IsPlain ∧ ∀ a, (next a).IsPlain := Iff.rfl

@[simp] theorem plain_fail : (fail : Parser α).IsPlain := trivial

@[simp] theorem plain_refuse (e : Expected) : (refuse e : Parser α).IsPlain :=
  ⟨trivial, fun _ => trivial⟩

@[simp] theorem plain_expected (e : Expected) : (expected e).IsPlain := trivial

@[simp] theorem plain_look : look.IsPlain := trivial

@[simp] theorem plain_place : place.IsPlain := trivial

@[simp] theorem plain_skip (count : Nat) : (skip count).IsPlain := trivial

@[simp] theorem plain_attempt (p : Parser α) : (attempt p).IsPlain ↔ p.IsPlain := Iff.rfl

@[simp] theorem plain_atomic (p : Parser α) : (atomic p).IsPlain ↔ p.IsPlain := by
  refine ⟨And.left, fun plain => ⟨plain, fun tried => ?_⟩⟩
  cases tried <;> exact trivial

@[simp] theorem plain_optional (p : Parser α) : (optional p).IsPlain ↔ p.IsPlain :=
  ⟨And.left, fun plain => ⟨plain, fun _ => trivial⟩⟩

@[simp] theorem plain_or_else (p q : Parser α) : (p <|> q).IsPlain ↔ p.IsPlain ∧ q.IsPlain := by
  refine ⟨fun plain => ⟨plain.1, plain.2 none⟩, fun plain => ⟨plain.1, fun tried => ?_⟩⟩
  cases tried with
  | some a => exact trivial
  | none => exact plain.2

@[simp] theorem plain_take (count : Nat) : (take count).IsPlain := by simp [take]

@[simp] theorem plain_take_while (accepts : Char → Bool) : (takeWhile accepts).IsPlain := by
  simp [takeWhile]

end Plain

section Lower

variable {answers : Answers} {bound : Nat} {α β : Type}

theorem calls_lower_of_plain {p : Parser α} : p.IsPlain → ∀ c, p.CallsLower answers bound c := by
  induction p with
  | succeed | fail | expected | look | place | skip => exact fun _ _ => trivial
  | andThen first next firstLower nextLower =>
      exact fun plain c => ⟨firstLower plain.1 c, fun _ a d _ => nextLower a (plain.2 a) d⟩
  | attempt inner ih => exact ih
  | nested | rounds | call => exact fun impossible => impossible.elim

theorem calls_lower_of_left (forward : answers.Forward) (p : Parser α) :
    ∀ c : Cursor, 6 * c.left + 6 ≤ bound → p.CallsLower answers bound c := by
  have height_lt : ∀ (rule : Rule) (c : Cursor), rule.height c < 6 * c.left + 6 := by
    intro rule c
    rw [Rule.height]
    cases rule <;> simp [Rule.rank]
  induction p with
  | succeed | fail | expected | look | place | skip => exact fun _ _ => trivial
  | andThen first next firstLower nextLower =>
      intro c later
      refine ⟨firstLower c later, fun room a d given => nextLower a d ?_⟩
      have passed := may_give_left_le forward given
      omega
  | attempt inner ih | nested inner ih => exact ih
  | rounds turn ih =>
      intro c later d behind
      have passed := Cursor.left_le_of_suffix d c behind
      exact ih d (by omega)
  | call rule =>
      intro c later
      have low := height_lt rule c
      change rule.height c < bound
      omega

theorem calls_lower_after {p : Parser α} {next : α → Parser β} {c : Cursor}
    (forward : answers.Forward) (here : 6 * c.left ≤ bound) (first : p.CallsLower answers bound c)
    (advances : ∀ room a d, p.MayGive answers room c a d → d.left < c.left) :
    (p >>= next).CallsLower answers bound c := by
  refine ⟨first, fun room a d given => calls_lower_of_left forward (next a) d ?_⟩
  have passed := advances room a d given
  omega

end Lower

section Ranks

variable {answers : Answers} {rank : Nat} {α β : Type} {p q : Parser α} {next : α → Parser β}

theorem ranked_of_plain (plain : p.IsPlain) : p.Ranked answers rank :=
  fun c _ _ => calls_lower_of_plain plain c

theorem ranked_call {rule : Rule} (lower : rule.rank < rank) : (call rule).Ranked answers rank := by
  intro c bound here
  change 6 * c.left + rule.rank < bound
  omega

theorem ranked_attempt (ranked : p.Ranked answers rank) : (attempt p).Ranked answers rank := ranked

theorem ranked_nested (ranked : p.Ranked answers rank) : (nested p).Ranked answers rank := ranked

theorem ranked_atomic (ranked : p.Ranked answers rank) : (atomic p).Ranked answers rank := by
  refine fun c bound here => ⟨ranked c bound here, fun room tried d _ => ?_⟩
  cases tried <;> exact trivial

theorem ranked_or_else (ranked : p.Ranked answers rank) (other : q.Ranked answers rank) :
    (p <|> q).Ranked answers rank := by
  refine fun c bound here => ⟨ranked c bound here, fun room tried d attempted => ?_⟩
  cases tried with
  | some a => exact trivial
  | none =>
      rcases attempted with ⟨_, impossible, -⟩ | ⟨-, rfl⟩
      · cases impossible
      · exact other c bound here

theorem ranked_rounds {turn : Parser (Turn α)} (ranked : turn.Ranked answers rank) :
    (rounds turn).Ranked answers rank := by
  intro c bound here d behind
  have passed := Cursor.left_le_of_suffix d c behind
  exact ranked d bound (by omega)

theorem ranked_many (ranked : p.Ranked answers rank) : (many p).Ranked answers rank := by
  refine ranked_rounds fun c bound here => ⟨ranked c bound here, fun room tried d _ => ?_⟩
  cases tried <;> exact trivial

variable (forward : answers.Forward)

include forward

theorem ranked_bind (first : p.Ranked answers rank) (later : ∀ a, (next a).Ranked answers rank) :
    (p >>= next).Ranked answers rank := by
  refine fun c bound here => ⟨first c bound here, fun room a d given => later a d bound ?_⟩
  have passed := may_give_left_le forward given
  omega

theorem ranked_after (first : p.Ranked answers rank) (advances : p.Advances answers) :
    (p >>= next).Ranked answers rank :=
  fun c bound here => calls_lower_after forward (by omega) (first c bound here)
    fun room a d given => advances room c a d given

theorem ranked_attempt_bind {next : Option α → Parser β} (first : p.Ranked answers rank)
    (advances : p.Advances answers) (missed : (next none).Ranked answers rank) :
    (attempt p >>= next).Ranked answers rank := by
  refine fun c bound here => ⟨first c bound here, fun room tried d attempted => ?_⟩
  rcases attempted with ⟨a, rfl, given⟩ | ⟨rfl, rfl⟩
  · have passed := advances room c a d given
    exact calls_lower_of_left forward _ d (by omega)
  · exact missed c bound here

end Ranks

section Progress

variable {answers : Answers} {α β : Type} {p q : Parser α}

theorem progresses_of_plain : p.IsPlain → p.Progresses answers := by
  induction p with
  | succeed | fail | expected | look | place | skip => exact fun _ => trivial
  | andThen first next firstProgresses nextProgresses =>
      exact fun plain => ⟨firstProgresses plain.1, fun a => nextProgresses a (plain.2 a)⟩
  | attempt inner ih => exact ih
  | nested | rounds | call => exact fun impossible => impossible.elim

theorem progresses_bind {next : α → Parser β} (first : p.Progresses answers)
    (later : ∀ a, (next a).Progresses answers) : (p >>= next).Progresses answers := ⟨first, later⟩

theorem progresses_after {next : α → Parser β} (plain : p.IsPlain)
    (later : ∀ a, (next a).Progresses answers) : (p >>= next).Progresses answers :=
  ⟨progresses_of_plain plain, later⟩

theorem progresses_atomic (progresses : p.Progresses answers) : (atomic p).Progresses answers := by
  refine ⟨progresses, fun tried => ?_⟩
  cases tried <;> exact trivial

theorem progresses_or_else (progresses : p.Progresses answers) (other : q.Progresses answers) :
    (p <|> q).Progresses answers := by
  refine ⟨progresses, fun tried => ?_⟩
  cases tried with
  | some a => exact trivial
  | none => exact other

theorem progresses_rounds {turn : Parser (Turn α)} (progresses : turn.Progresses answers)
    (advances : ∀ room c value d, turn.MayGive answers room c (.more value) d → d.left < c.left) :
    (rounds turn).Progresses answers := ⟨progresses, advances⟩

theorem progresses_many (progresses : p.Progresses answers) (advances : p.Advances answers) :
    (many p).Progresses answers := by
  refine progresses_rounds ⟨progresses, fun tried => ?_⟩ ?_
  · cases tried <;> exact trivial
  · rintro room c value d ⟨tried, e, ⟨a, rfl, given⟩ | ⟨rfl, rfl⟩, later⟩
    · obtain ⟨-, rfl⟩ := later
      exact advances room c a e given
    · cases later.1

end Progress

end ShellLine.Parser
