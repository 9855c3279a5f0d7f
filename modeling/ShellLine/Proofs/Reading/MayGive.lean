import ShellLine.Grammar.Rules
import ShellLine.Proofs.Reading.Basic

set_option autoImplicit false

namespace ShellLine

-- The levels that are left, or nothing where any number of them is.
abbrev Room := Option Nat

abbrev Answers := Room → Rule → Cursor → Node → Cursor → Prop

inductive Rounds {α : Type} (turn : Cursor → Turn α → Cursor → Prop) : Cursor → List α → Cursor → Prop
  | stop {c d : Cursor} : turn c .stop d → Rounds turn c [] d
  | last {c d : Cursor} {value : α} : turn c (.last value) d → Rounds turn c [value] d
  | halt {c d : Cursor} {value : α} : turn c (.more value) d → Rounds turn c [value] d
  | more {c d e : Cursor} {value : α} {values : List α} :
      turn c (.more value) d → Rounds turn d values e → Rounds turn c (value :: values) e

namespace Parser

def MayGive (answers : Answers) {α : Type} : Parser α → Room → Cursor → α → Cursor → Prop
  | succeed value, _, c, a, d => value = a ∧ c = d
  | andThen first next, room, c, b, e =>
      ∃ a d, first.MayGive answers room c a d ∧ (next a).MayGive answers room d b e
  | fail, _, _, _, _ => False
  | expected _, _, c, _, d => c = d
  | look, _, c, text, d => c.rest = text ∧ c = d
  | place, _, c, left, d => c.left = left ∧ c = d
  | skip count, _, c, _, d => c.advance count = d
  | attempt inner, room, c, tried, d =>
      (∃ a, some a = tried ∧ inner.MayGive answers room c a d) ∨ none = tried ∧ c = d
  | nested inner, room, c, a, d =>
      ∃ less : Room, less.map (· + 1) = room ∧ inner.MayGive answers less c a d
  | rounds turn, room, c, values, d => Rounds (turn.MayGive answers room) c values d
  | call rule, room, c, node, d => answers room rule c node d

section Combinators

variable {answers : Answers} {room : Room} {α β : Type}

@[simp] theorem may_give_pure (a b : α) (c d : Cursor) :
    (pure a : Parser α).MayGive answers room c b d ↔ a = b ∧ c = d := Iff.rfl

@[simp] theorem may_give_bind (p : Parser α) (next : α → Parser β) (c e : Cursor) (b : β) :
    (p >>= next).MayGive answers room c b e ↔
      ∃ a d, p.MayGive answers room c a d ∧ (next a).MayGive answers room d b e := Iff.rfl

@[simp] theorem may_give_fail (c d : Cursor) (a : α) :
    ¬ (fail : Parser α).MayGive answers room c a d := id

@[simp] theorem may_give_expected (e : Expected) (c d : Cursor) (u : Unit) :
    (expected e).MayGive answers room c u d ↔ c = d := Iff.rfl

@[simp] theorem may_give_refuse (e : Expected) (c d : Cursor) (a : α) :
    ¬ (refuse e : Parser α).MayGive answers room c a d := fun ⟨_, _, _, given⟩ => given

@[simp] theorem may_give_look (c d : Cursor) (text : List Char) :
    look.MayGive answers room c text d ↔ c.rest = text ∧ c = d := Iff.rfl

@[simp] theorem may_give_place (c d : Cursor) (left : Nat) :
    place.MayGive answers room c left d ↔ c.left = left ∧ c = d := Iff.rfl

@[simp] theorem may_give_skip (count : Nat) (c d : Cursor) (u : Unit) :
    (skip count).MayGive answers room c u d ↔ c.advance count = d := Iff.rfl

@[simp] theorem may_give_attempt (p : Parser α) (c d : Cursor) (tried : Option α) :
    (attempt p).MayGive answers room c tried d ↔
      (∃ a, some a = tried ∧ p.MayGive answers room c a d) ∨ none = tried ∧ c = d := Iff.rfl

@[simp] theorem may_give_nested (p : Parser α) (c d : Cursor) (a : α) :
    (nested p).MayGive answers room c a d ↔
      ∃ less : Room, less.map (· + 1) = room ∧ p.MayGive answers less c a d := Iff.rfl

@[simp] theorem may_give_rounds (turn : Parser (Turn α)) (c d : Cursor) (values : List α) :
    (rounds turn).MayGive answers room c values d ↔
      Rounds (turn.MayGive answers room) c values d := Iff.rfl

@[simp] theorem may_give_call (rule : Rule) (c d : Cursor) (node : Node) :
    (call rule).MayGive answers room c node d ↔ answers room rule c node d := Iff.rfl

@[simp 1100] theorem may_give_look_bind (next : List Char → Parser β) (c d : Cursor) (b : β) :
    (look >>= next).MayGive answers room c b d ↔ (next c.rest).MayGive answers room c b d := by
  simp [and_assoc]

@[simp] theorem may_give_atomic (p : Parser α) (c d : Cursor) (a : α) :
    (atomic p).MayGive answers room c a d ↔ p.MayGive answers room c a d := by
  simp only [atomic, may_give_bind, may_give_attempt]
  constructor
  · rintro ⟨tried, e, ⟨b, rfl, given⟩ | ⟨rfl, rfl⟩, later⟩
    · obtain ⟨rfl, rfl⟩ := later
      exact given
    · exact later.elim
  · exact fun given => ⟨some a, d, Or.inl ⟨a, rfl, given⟩, rfl, rfl⟩

@[simp] theorem may_give_or_else (p q : Parser α) (c d : Cursor) (a : α) :
    (p <|> q).MayGive answers room c a d ↔
      p.MayGive answers room c a d ∨ q.MayGive answers room c a d := by
  change (attempt p >>= _).MayGive answers room c a d ↔ _
  simp only [may_give_bind, may_give_attempt]
  constructor
  · rintro ⟨tried, e, ⟨b, rfl, given⟩ | ⟨rfl, rfl⟩, later⟩
    · obtain ⟨rfl, rfl⟩ := later
      exact Or.inl given
    · exact Or.inr later
  · rintro (given | given)
    · exact ⟨some a, d, Or.inl ⟨a, rfl, given⟩, rfl, rfl⟩
    · exact ⟨none, c, Or.inr ⟨rfl, rfl⟩, given⟩

@[simp] theorem may_give_optional (p : Parser α) (c d : Cursor) (u : Unit) :
    (optional p).MayGive answers room c u d ↔ (∃ a, p.MayGive answers room c a d) ∨ c = d := by
  simp only [optional, may_give_bind, may_give_attempt]
  constructor
  · rintro ⟨tried, e, ⟨a, rfl, given⟩ | ⟨rfl, rfl⟩, -, rfl⟩
    · exact Or.inl ⟨a, given⟩
    · exact Or.inr rfl
  · rintro (⟨a, given⟩ | rfl)
    · exact ⟨some a, d, Or.inl ⟨a, rfl, given⟩, rfl, rfl⟩
    · exact ⟨none, c, Or.inr ⟨rfl, rfl⟩, rfl, rfl⟩

@[simp] theorem may_give_take_while (accepts : Char → Bool) (c d : Cursor) (chars : List Char) :
    (takeWhile accepts).MayGive answers room c chars d ↔
      c.rest.takeWhile accepts = chars ∧ c.advance (c.rest.takeWhile accepts).length = d := by
  have first : c.rest.take (c.rest.takeWhile accepts).length = c.rest.takeWhile accepts :=
    (List.prefix_iff_eq_take.mp (List.takeWhile_prefix accepts)).symm
  rw [takeWhile, may_give_look_bind, take, may_give_look_bind]
  simp only [may_give_bind, may_give_skip, may_give_pure, first]
  exact ⟨fun ⟨_, _, skipped, same, stays⟩ => ⟨same, skipped.trans stays⟩,
    fun ⟨same, skipped⟩ => ⟨(), d, skipped, same, rfl⟩⟩

end Combinators

end Parser

section Rounds

variable {α : Type} {turn other : Cursor → Turn α → Cursor → Prop} {c d : Cursor} {values : List α}

theorem rounds_mono (more : ∀ {c next d}, turn c next d → other c next d)
    (turns : Rounds turn c values d) : Rounds other c values d := by
  induction turns with
  | stop given => exact .stop (more given)
  | last given => exact .last (more given)
  | halt given => exact .halt (more given)
  | more given _ ih => exact .more (more given) ih

theorem rounds_forward (forward : ∀ {c next d}, turn c next d → d.rest <:+ c.rest)
    (turns : Rounds turn c values d) : d.rest <:+ c.rest := by
  induction turns with
  | stop given | last given | halt given => exact forward given
  | more given _ ih => exact ih.trans (forward given)

def TurnHolds (R : α → Prop) : Turn α → Prop
  | .more value | .last value => R value
  | .stop => True

theorem rounds_holds {R : α → Prop} {text : List Char}
    (forward : ∀ {c next d}, turn c next d → d.rest <:+ c.rest)
    (each : ∀ c next d, c.rest <:+ text → turn c next d → TurnHolds R next)
    (turns : Rounds turn c values d) (within : c.rest <:+ text) : ∀ value ∈ values, R value := by
  induction turns with
  | stop _ => simp
  | last given | halt given => exact List.forall_mem_singleton.mpr (each _ _ _ within given)
  | more given _ ih =>
      exact List.forall_mem_cons.mpr
        ⟨each _ _ _ within given, ih ((forward given).trans within)⟩

theorem rounds_move (forward : ∀ {c next d}, turn c next d → d.rest <:+ c.rest)
    (moves : ∀ {c next d}, turn c next d → next ≠ .stop → d.left < c.left)
    (turns : Rounds turn c values d) (nonempty : values ≠ []) : d.left < c.left := by
  cases turns with
  | stop _ => exact absurd rfl nonempty
  | last given => exact moves given nofun
  | halt given => exact moves given nofun
  | more given others =>
      exact Nat.lt_of_le_of_lt (Cursor.left_le_of_suffix _ _ (rounds_forward forward others))
        (moves given nofun)

end Rounds

namespace Answers

def Forward (answers : Answers) : Prop :=
  ∀ room rule c node d, answers room rule c node d → d.rest <:+ c.rest

def Closed (answers : Answers) : Prop :=
  ∀ room rule c node d, (grammar rule).MayGive answers room c node d → answers room rule c node d

end Answers

-- The answers that the rules of the grammar may give: what is among all closed answers.
def attained : Answers := fun room rule c node d =>
  ∀ answers : Answers, answers.Closed → answers room rule c node d

namespace Parser

variable {answers others : Answers} {α : Type}

theorem may_give_mono (more : ∀ {room rule c node d}, answers room rule c node d →
      others room rule c node d) (p : Parser α) :
    ∀ {room c a d}, p.MayGive answers room c a d → p.MayGive others room c a d := by
  induction p with
  | succeed | fail | expected | look | place | skip => exact id
  | andThen first next firstMore nextMore =>
      exact fun ⟨a, d, given, later⟩ => ⟨a, d, firstMore given, nextMore a later⟩
  | attempt inner ih =>
      exact Or.imp_left fun ⟨a, same, given⟩ => ⟨a, same, ih given⟩
  | nested inner ih => exact fun ⟨less, deeper, given⟩ => ⟨less, deeper, ih given⟩
  | rounds turn ih => exact rounds_mono ih
  | call rule => exact more

theorem may_give_forward (forward : answers.Forward) (p : Parser α) :
    ∀ {room c a d}, p.MayGive answers room c a d → d.rest <:+ c.rest := by
  induction p with
  | succeed | look | place =>
      rintro room c a d ⟨-, rfl⟩
      exact List.suffix_refl _
  | fail => exact fun given => given.elim
  | expected =>
      rintro room c a d rfl
      exact List.suffix_refl _
  | skip count =>
      rintro room c a d rfl
      exact c.advance_suffix count
  | andThen first next firstForward nextForward =>
      exact fun ⟨a, d, given, later⟩ => (nextForward a later).trans (firstForward given)
  | attempt inner ih =>
      rintro room c a d (⟨b, -, given⟩ | ⟨-, rfl⟩)
      · exact ih given
      · exact List.suffix_refl _
  | nested inner ih => exact fun ⟨less, _, given⟩ => ih given
  | rounds turn ih => exact rounds_forward ih
  | call rule => exact forward _ rule _ _ _

theorem may_give_left_le (forward : answers.Forward) {p : Parser α} {room : Room} {c d : Cursor}
    {a : α} (given : p.MayGive answers room c a d) : d.left ≤ c.left :=
  Cursor.left_le_of_suffix d c (may_give_forward forward p given)

end Parser

theorem attained_closed : attained.Closed := by
  intro room rule c node d given answers closed
  exact closed _ _ _ _ _ (Parser.may_give_mono (fun known => known answers closed) (grammar rule) given)

theorem attained_induction {P : Answers}
    (step : ∀ {room rule c d node}, (grammar rule).MayGive
        (fun room rule c node d => attained room rule c node d ∧ P room rule c node d) room c node d →
      P room rule c node d)
    {room : Room} {rule : Rule} {c d : Cursor} {node : Node} (known : attained room rule c node d) :
    P room rule c node d := by
  refine (known (fun room rule c node d => attained room rule c node d ∧ P room rule c node d) ?_).2
  intro room rule c d node given
  exact ⟨attained_closed _ _ _ _ _ (Parser.may_give_mono And.left (grammar rule) given), step given⟩

theorem attained_forward : attained.Forward := fun _ _ _ _ _ known =>
  attained_induction (P := fun _ _ c _ d => d.rest <:+ c.rest)
    (fun given => Parser.may_give_forward (fun _ _ _ _ _ => And.right) _ given) known

section Readings

variable {calls : Rule → Cursor → Reading Node} {answers : Answers} {α : Type}

-- What the readings of the rules say within a number of levels is among the answers.
def Answers.Cover (answers : Answers) (calls : Rule → Cursor → Reading Node) : Prop :=
  ∀ {n : Nat} {rule : Rule} {c d : Cursor} {node : Node}, (calls rule c).outcome = some (node, d) →
    (calls rule c).depth ≤ n → answers (some n) rule c node d

theorem read_turns_may_give {n : Nat} {turn : Parser (Turn α)}
    (each : ∀ {c next d}, (turn.read calls c).outcome = some (next, d) →
      (turn.read calls c).depth ≤ n → turn.MayGive answers (some n) c next d)
    (taken values : List α) (c d : Cursor)
    (read : (readTurns (turn.read calls) taken c).outcome = some (values, d))
    (shallow : (readTurns (turn.read calls) taken c).depth ≤ n) :
    ∃ later, values = taken.reverse ++ later ∧ Rounds (turn.MayGive answers (some n)) c later d := by
  rw [readTurns] at read shallow
  obtain ⟨next, e, given, after⟩ := (and_then_some _ _ values d).mp read
  simp only [Reading.andThen, given, Nat.max_le] at shallow
  have here := each given shallow.1
  cases next with
  | stop =>
      cases after
      exact ⟨[], by simp, .stop here⟩
  | last value =>
      cases after
      exact ⟨[value], by simp, .last here⟩
  | more value =>
      by_cases progress : e.left < c.left
      · simp only [if_pos progress] at after shallow
        obtain ⟨later, rfl, turns⟩ :=
          read_turns_may_give each (value :: taken) values e d after shallow.2
        exact ⟨value :: later, by simp, .more here turns⟩
      · simp only [if_neg progress] at after
        cases after
        exact ⟨[value], by simp, .halt here⟩
termination_by c.left

theorem read_may_give (cover : answers.Cover calls) (p : Parser α) :
    ∀ {n c a d}, (p.read calls c).outcome = some (a, d) → (p.read calls c).depth ≤ n →
      p.MayGive answers (some n) c a d := by
  induction p with
  | succeed | look | place =>
      intro n c a d read _
      cases read
      exact ⟨rfl, rfl⟩
  | expected | skip =>
      intro n c a d read _
      cases read
      rfl
  | fail =>
      intro n c a d read
      cases read
  | andThen first next firstGiven nextGiven =>
      intro n c b e read shallow
      rw [Parser.read] at read shallow
      obtain ⟨a, d, given, later⟩ := (and_then_some _ _ b e).mp read
      simp only [Reading.andThen, given, Nat.max_le] at shallow
      exact ⟨a, d, firstGiven given shallow.1, nextGiven a later shallow.2⟩
  | attempt inner ih =>
      intro n c a d read shallow
      rw [Parser.read] at read shallow
      cases tried : (inner.read calls c).outcome with
      | none =>
          simp only [tried] at read
          cases read
          exact Or.inr ⟨rfl, rfl⟩
      | some pair =>
          simp only [tried] at read shallow
          cases read
          exact Or.inl ⟨pair.1, rfl, ih tried shallow⟩
  | nested inner ih =>
      intro n c a d read shallow
      change (inner.read calls c).depth + 1 ≤ n at shallow
      obtain ⟨m, rfl⟩ := Nat.exists_eq_add_of_le' (Nat.le_trans (Nat.le_add_left 1 _) shallow)
      exact ⟨some m, rfl, ih read (Nat.le_of_succ_le_succ shallow)⟩
  | rounds turn ih =>
      intro n c values d read shallow
      obtain ⟨later, rfl, turns⟩ := read_turns_may_give ih [] values c d read shallow
      exact turns
  | call rule => exact cover

end Readings

theorem attained_covers_reading : attained.Cover (reading grammar) := by
  intro n rule c d node read shallow
  rw [reading_below] at read shallow
  refine attained_closed _ _ _ _ _ (read_may_give ?_ (grammar rule) read shallow)
  intro m inner e f found answered deeper
  rw [callsBelow] at answered deeper
  by_cases lower : inner.height e < rule.height c
  · rw [if_pos lower] at answered deeper
    exact attained_covers_reading answered deeper
  · rw [if_neg lower] at answered
    cases answered
termination_by _ rule c => rule.height c

section Runs

variable {calls : Rule → Nat → State → Option Node × State} {limit : Nat} {answers : Answers} {α : Type}

theorem repeat_turns_may_give {turn : State → Option (Turn α) × State} {R : Cursor → Turn α → Cursor → Prop}
    (each : ∀ s next, (turn s).1 = some next → R s.cursor next (turn s).2.cursor) (taken values : List α) (s : State)
    (given : (Parser.repeatTurns turn taken s).1 = some values) :
    ∃ later, values = taken.reverse ++ later ∧
      Rounds R s.cursor later (Parser.repeatTurns turn taken s).2.cursor := by
  have here := each s
  rw [Parser.repeatTurns] at given ⊢
  generalize turn s = outcome at here given ⊢
  obtain ⟨next, t⟩ := outcome
  cases next with
  | none => cases given
  | some next =>
      cases next with
      | stop =>
          obtain rfl := Option.some.inj given
          exact ⟨[], by simp, .stop (here .stop rfl)⟩
      | last value =>
          obtain rfl := Option.some.inj given
          exact ⟨[value], by simp, .last (here (.last value) rfl)⟩
      | more value =>
          dsimp only at given ⊢
          by_cases progress : t.cursor.left < s.cursor.left
          · rw [if_pos progress] at given ⊢
            obtain ⟨later, rfl, rounds⟩ := repeat_turns_may_give each (value :: taken) values t given
            exact ⟨value :: later, by simp, .more (here (.more value) rfl) rounds⟩
          · rw [if_neg progress] at given ⊢
            obtain rfl := Option.some.inj given
            exact ⟨[value], by simp, .halt (here (.more value) rfl)⟩
termination_by s.cursor.left

theorem run_may_give (answered : ∀ rule level s node, (calls rule level s).1 = some node →
      answers none rule s.cursor node (calls rule level s).2.cursor) (p : Parser α) :
    ∀ (level : Nat) (s : State) (a : α), (p.run calls limit level s).1 = some a →
      p.MayGive answers none s.cursor a (p.run calls limit level s).2.cursor := by
  induction p with
  | succeed value | look | place =>
      intro level s a given
      exact ⟨Option.some.inj given, rfl⟩
  | fail =>
      intro level s a given
      cases given
  | expected | skip => exact fun _ _ _ _ => rfl
  | andThen first next firstGiven nextGiven =>
      intro level s b given
      have here := firstGiven level s
      rw [Parser.run] at given ⊢
      generalize first.run calls limit level s = outcome at here given ⊢
      obtain ⟨value, t⟩ := outcome
      cases value with
      | none => cases given
      | some a => exact ⟨a, t.cursor, here a rfl, nextGiven a level t b given⟩
  | attempt inner ih =>
      intro level s tried given
      have here := ih level s
      rw [Parser.run] at given ⊢
      generalize inner.run calls limit level s = outcome at here given ⊢
      obtain ⟨value, t⟩ := outcome
      cases value with
      | none => exact Or.inr ⟨Option.some.inj given, rfl⟩
      | some a => exact Or.inl ⟨a, Option.some.inj given, here a rfl⟩
  | nested inner ih =>
      intro level s a given
      by_cases full : limit ≠ 0 ∧ limit ≤ level
      · rw [Parser.run_nested_full full] at given
        cases given
      · rw [Parser.run_nested_below full] at given ⊢
        exact ⟨none, rfl, ih (level + 1) s a given⟩
  | rounds turn ih =>
      intro level s values given
      obtain ⟨later, rfl, rounds⟩ := repeat_turns_may_give (ih level) [] values s given
      exact rounds
  | call rule => exact fun level s node given => answered rule level s node given

end Runs

end ShellLine
