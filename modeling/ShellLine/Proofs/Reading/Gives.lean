import ShellLine.Proofs.Reading.Basic

set_option autoImplicit false

namespace ShellLine.Parser

def Gives (calls : Rule → Cursor → Reading Node) {α : Type} (p : Parser α) (c : Cursor) (value : α)
    (d : Cursor) : Prop := (p.read calls c).outcome = some (value, d)

def Fails (calls : Rule → Cursor → Reading Node) {α : Type} (p : Parser α) (c : Cursor) : Prop :=
  (p.read calls c).outcome = none

section Combinators

variable {calls : Rule → Cursor → Reading Node} {α β : Type}

theorem gives_or_fails (calls : Rule → Cursor → Reading Node) (p : Parser α) (c : Cursor) :
    (∃ value d, p.Gives calls c value d) ∨ p.Fails calls c := by
  cases read : (p.read calls c).outcome with
  | none => exact Or.inr read
  | some pair => exact Or.inl ⟨pair.1, pair.2, read⟩

theorem gives_unique {p : Parser α} {c d e : Cursor} {a b : α} (first : p.Gives calls c a d)
    (second : p.Gives calls c b e) : a = b ∧ d = e := by
  cases first.symm.trans second
  exact ⟨rfl, rfl⟩

theorem not_fails_of_gives {p : Parser α} {c d : Cursor} {a : α} (given : p.Gives calls c a d) :
    ¬ p.Fails calls c := by
  intro failed
  cases given.symm.trans failed

theorem gives_forward (forward : GoForward calls) {p : Parser α} {c d : Cursor} {a : α}
    (given : p.Gives calls c a d) : d.rest <:+ c.rest := read_forward forward p c a d given

@[simp] theorem gives_pure (a b : α) (c d : Cursor) :
    (pure a : Parser α).Gives calls c b d ↔ a = b ∧ c = d := by
  change some (a, c) = some (b, d) ↔ _
  rw [Option.some.injEq, Prod.mk.injEq]

@[simp] theorem fails_pure (a : α) (c : Cursor) : ¬ (pure a : Parser α).Fails calls c :=
  nofun

@[simp] theorem gives_bind (p : Parser α) (next : α → Parser β) (c e : Cursor) (b : β) :
    (p >>= next).Gives calls c b e ↔
      ∃ a d, p.Gives calls c a d ∧ (next a).Gives calls d b e :=
  and_then_some _ _ b e

@[simp] theorem fails_bind (p : Parser α) (next : α → Parser β) (c : Cursor) :
    (p >>= next).Fails calls c ↔
      p.Fails calls c ∨ ∃ a d, p.Gives calls c a d ∧ (next a).Fails calls d := by
  change ((p.read calls c).andThen _).outcome = none ↔ _
  simp only [Reading.andThen, Fails, Gives]
  cases (p.read calls c).outcome with
  | none => simp
  | some pair =>
      obtain ⟨a, d⟩ := pair
      simp [and_assoc]

@[simp] theorem gives_fail (c d : Cursor) (a : α) : ¬ (fail : Parser α).Gives calls c a d := nofun

@[simp] theorem fails_fail (c : Cursor) : (fail : Parser α).Fails calls c := rfl

@[simp] theorem gives_expected (e : Expected) (c d : Cursor) (u : Unit) :
    (expected e).Gives calls c u d ↔ c = d := by
  change some ((), c) = some (u, d) ↔ _
  simp

@[simp] theorem fails_expected (e : Expected) (c : Cursor) : ¬ (expected e).Fails calls c := nofun

@[simp] theorem gives_refuse (e : Expected) (c d : Cursor) (a : α) :
    ¬ (refuse e : Parser α).Gives calls c a d := by
  simp [refuse]

@[simp] theorem fails_refuse (e : Expected) (c : Cursor) :
    (refuse e : Parser α).Fails calls c := by
  simp [refuse]

@[simp] theorem gives_look (c d : Cursor) (text : List Char) :
    look.Gives calls c text d ↔ c.rest = text ∧ c = d := by
  change some (c.rest, c) = some (text, d) ↔ _
  rw [Option.some.injEq, Prod.mk.injEq]

@[simp] theorem fails_look (c : Cursor) : ¬ look.Fails calls c := nofun

@[simp] theorem gives_place (c d : Cursor) (left : Nat) :
    place.Gives calls c left d ↔ c.left = left ∧ c = d := by
  change some (c.left, c) = some (left, d) ↔ _
  rw [Option.some.injEq, Prod.mk.injEq]

@[simp] theorem fails_place (c : Cursor) : ¬ place.Fails calls c := nofun

@[simp] theorem gives_skip (count : Nat) (c d : Cursor) (u : Unit) :
    (skip count).Gives calls c u d ↔ c.advance count = d := by
  change some ((), c.advance count) = some (u, d) ↔ _
  simp

@[simp] theorem fails_skip (count : Nat) (c : Cursor) : ¬ (skip count).Fails calls c := nofun

@[simp 1100] theorem gives_look_bind (next : List Char → Parser β) (c d : Cursor) (b : β) :
    (look >>= next).Gives calls c b d ↔ (next c.rest).Gives calls c b d := by
  simp [and_assoc]

@[simp 1100] theorem fails_look_bind (next : List Char → Parser β) (c : Cursor) :
    (look >>= next).Fails calls c ↔ (next c.rest).Fails calls c := by
  simp [and_assoc]

@[simp 1100] theorem gives_place_bind (next : Nat → Parser β) (c d : Cursor) (b : β) :
    (place >>= next).Gives calls c b d ↔ (next c.left).Gives calls c b d := by
  simp [and_assoc]

@[simp 1100] theorem fails_place_bind (next : Nat → Parser β) (c : Cursor) :
    (place >>= next).Fails calls c ↔ (next c.left).Fails calls c := by
  simp [and_assoc]

@[simp] theorem gives_nested (p : Parser α) (c d : Cursor) (a : α) :
    (nested p).Gives calls c a d ↔ p.Gives calls c a d := Iff.rfl

@[simp] theorem fails_nested (p : Parser α) (c : Cursor) :
    (nested p).Fails calls c ↔ p.Fails calls c := Iff.rfl

@[simp] theorem gives_attempt (p : Parser α) (c d : Cursor) (tried : Option α) :
    (attempt p).Gives calls c tried d ↔
      (∃ a, some a = tried ∧ p.Gives calls c a d) ∨ (none = tried ∧ p.Fails calls c ∧ c = d) := by
  simp only [Gives, Fails, Parser.read]
  cases (p.read calls c).outcome with
  | none => simp
  | some pair =>
      obtain ⟨a, e⟩ := pair
      simp [and_comm, and_assoc]

@[simp] theorem fails_attempt (p : Parser α) (c : Cursor) : ¬ (attempt p).Fails calls c := by
  rw [Fails, Parser.read]
  cases (p.read calls c).outcome <;> simp

@[simp 1100] theorem gives_attempt_bind (p : Parser α) (next : Option α → Parser β) (c e : Cursor) (b : β) :
    (attempt p >>= next).Gives calls c b e ↔
      (∃ a d, p.Gives calls c a d ∧ (next (some a)).Gives calls d b e) ∨
        (p.Fails calls c ∧ (next none).Gives calls c b e) := by
  rw [gives_bind]
  constructor
  · intro both
    obtain ⟨tried, d, attempted, after⟩ := both
    rcases (gives_attempt p c d tried).mp attempted with ⟨a, rfl, given⟩ | ⟨rfl, failed, rfl⟩
    · exact Or.inl ⟨a, d, given, after⟩
    · exact Or.inr ⟨failed, after⟩
  · intro either
    rcases either with ⟨a, d, given, after⟩ | ⟨failed, after⟩
    · exact ⟨some a, d, (gives_attempt p c d _).mpr (Or.inl ⟨a, rfl, given⟩), after⟩
    · exact ⟨none, c, (gives_attempt p c c _).mpr (Or.inr ⟨rfl, failed, rfl⟩), after⟩

@[simp 1100] theorem fails_attempt_bind (p : Parser α) (next : Option α → Parser β) (c : Cursor) :
    (attempt p >>= next).Fails calls c ↔
      (∃ a d, p.Gives calls c a d ∧ (next (some a)).Fails calls d) ∨
        (p.Fails calls c ∧ (next none).Fails calls c) := by
  rw [fails_bind]
  constructor
  · intro either
    rcases either with impossible | ⟨tried, d, attempted, after⟩
    · exact absurd impossible (fails_attempt p c)
    · rcases (gives_attempt p c d tried).mp attempted with ⟨a, rfl, given⟩ | ⟨rfl, failed, rfl⟩
      · exact Or.inl ⟨a, d, given, after⟩
      · exact Or.inr ⟨failed, after⟩
  · intro either
    apply Or.inr
    rcases either with ⟨a, d, given, after⟩ | ⟨failed, after⟩
    · exact ⟨some a, d, (gives_attempt p c d _).mpr (Or.inl ⟨a, rfl, given⟩), after⟩
    · exact ⟨none, c, (gives_attempt p c c _).mpr (Or.inr ⟨rfl, failed, rfl⟩), after⟩

@[simp] theorem gives_or_else (p q : Parser α) (c d : Cursor) (a : α) :
    (p <|> q).Gives calls c a d ↔
      p.Gives calls c a d ∨ (p.Fails calls c ∧ q.Gives calls c a d) := by
  change (orElse p fun _ => q).Gives calls c a d ↔ _
  simp [orElse]

@[simp] theorem fails_or_else (p q : Parser α) (c : Cursor) :
    (p <|> q).Fails calls c ↔ p.Fails calls c ∧ q.Fails calls c := by
  change (orElse p fun _ => q).Fails calls c ↔ _
  simp [orElse]

@[simp] theorem gives_atomic (p : Parser α) (c d : Cursor) (a : α) :
    (atomic p).Gives calls c a d ↔ p.Gives calls c a d := by
  simp [atomic]

@[simp] theorem fails_atomic (p : Parser α) (c : Cursor) :
    (atomic p).Fails calls c ↔ p.Fails calls c := by
  simp [atomic]

@[simp] theorem gives_optional (p : Parser α) (c d : Cursor) (u : Unit) :
    (optional p).Gives calls c u d ↔
      (∃ a, p.Gives calls c a d) ∨ (p.Fails calls c ∧ c = d) := by
  simp [optional]

@[simp] theorem fails_optional (p : Parser α) (c : Cursor) : ¬ (optional p).Fails calls c := by
  simp [optional]

@[simp] theorem gives_take (count : Nat) (c d : Cursor) (chars : List Char) :
    (take count).Gives calls c chars d ↔ c.rest.take count = chars ∧ c.advance count = d := by
  simp [take]

@[simp] theorem fails_take (count : Nat) (c : Cursor) : ¬ (take count).Fails calls c := by
  simp [take]

@[simp] theorem gives_take_while (accepts : Char → Bool) (c d : Cursor) (chars : List Char) :
    (takeWhile accepts).Gives calls c chars d ↔
      c.rest.takeWhile accepts = chars ∧ c.advance (c.rest.takeWhile accepts).length = d := by
  have whole : c.rest.take (c.rest.takeWhile accepts).length = c.rest.takeWhile accepts :=
    (List.prefix_iff_eq_take.mp (List.takeWhile_prefix accepts)).symm
  simp [takeWhile, whole]

@[simp] theorem fails_take_while (accepts : Char → Bool) (c : Cursor) :
    ¬ (takeWhile accepts).Fails calls c := by
  simp [takeWhile]

end Combinators

section Repetition

variable {calls : Rule → Cursor → Reading Node} {α : Type}

inductive Turns (calls : Rule → Cursor → Reading Node) (turn : Parser (Turn α)) :
    Cursor → List α → Cursor → Prop
  | stop {c d : Cursor} (given : turn.Gives calls c .stop d) : Turns calls turn c [] d
  | last {c d : Cursor} {value : α} (given : turn.Gives calls c (.last value) d) :
      Turns calls turn c [value] d
  | halt {c d : Cursor} {value : α} (given : turn.Gives calls c (.more value) d)
      (stays : ¬ d.left < c.left) : Turns calls turn c [value] d
  | more {c d e : Cursor} {value : α} {values : List α}
      (given : turn.Gives calls c (.more value) d) (progress : d.left < c.left)
      (others : Turns calls turn d values e) : Turns calls turn c (value :: values) e

inductive Items (calls : Rule → Cursor → Reading Node) (item : Parser α) :
    Cursor → List α → Cursor → Prop
  | stop {c : Cursor} (failed : item.Fails calls c) : Items calls item c [] c
  | halt {c d : Cursor} {value : α} (given : item.Gives calls c value d)
      (stays : ¬ d.left < c.left) : Items calls item c [value] d
  | more {c d e : Cursor} {value : α} {values : List α}
      (given : item.Gives calls c value d) (progress : d.left < c.left)
      (others : Items calls item d values e) : Items calls item c (value :: values) e

theorem turns_of_read (turn : Parser (Turn α)) (taken values : List α) (c e : Cursor)
    (read : (readTurns (turn.read calls) taken c).outcome = some (values, e)) :
    ∃ others, values = taken.reverse ++ others ∧ Turns calls turn c others e := by
  rw [readTurns, and_then_some] at read
  obtain ⟨next, d, given, after⟩ := read
  cases next with
  | stop =>
      cases after
      exact ⟨[], by simp, .stop given⟩
  | last value =>
      cases after
      exact ⟨[value], by simp, .last given⟩
  | more value =>
      by_cases progress : d.left < c.left
      · simp only [if_pos progress] at after
        obtain ⟨others, rfl, rest⟩ := turns_of_read turn _ values d e after
        exact ⟨value :: others, by simp, .more given progress rest⟩
      · simp only [if_neg progress] at after
        cases after
        exact ⟨[value], by simp, .halt given progress⟩
termination_by c.left

theorem read_of_turns (turn : Parser (Turn α)) (values : List α) (c e : Cursor)
    (turns : Turns calls turn c values e) (taken : List α) :
    (readTurns (turn.read calls) taken c).outcome = some (taken.reverse ++ values, e) := by
  induction turns generalizing taken with
  | stop given =>
      rw [readTurns, and_then_some]
      exact ⟨_, _, given, by simp⟩
  | last given =>
      rw [readTurns, and_then_some]
      exact ⟨_, _, given, by simp⟩
  | halt given stays =>
      rw [readTurns, and_then_some]
      exact ⟨_, _, given, by simp [stays]⟩
  | more given progress others ih =>
      rw [readTurns, and_then_some]
      refine ⟨_, _, given, ?_⟩
      simp only [if_pos progress, ih]
      simp

@[simp] theorem gives_rounds (turn : Parser (Turn α)) (c d : Cursor) (values : List α) :
    (rounds turn).Gives calls c values d ↔ Turns calls turn c values d := by
  constructor
  · intro read
    obtain ⟨others, rfl, turns⟩ := turns_of_read turn [] values c d read
    exact turns
  · exact fun turns => read_of_turns turn values c d turns []

@[simp] theorem gives_many (item : Parser α) (c d : Cursor) (values : List α) :
    (many item).Gives calls c values d ↔ Items calls item c values d := by
  obtain ⟨turn, repeated, given_iff⟩ : ∃ turn : Parser (Turn α), many item = rounds turn ∧
      ∀ c next d, turn.Gives calls c next d ↔
        (∃ value, item.Gives calls c value d ∧ .more value = next) ∨
          (item.Fails calls c ∧ .stop = next ∧ c = d) := ⟨_, rfl, fun c next d => by simp⟩
  rw [repeated, gives_rounds]
  constructor
  · intro turns
    induction turns with
    | stop given =>
        rcases (given_iff _ _ _).mp given with ⟨value, -, impossible⟩ | ⟨failed, -, rfl⟩
        · cases impossible
        · exact .stop failed
    | last given =>
        rcases (given_iff _ _ _).mp given with ⟨value, -, impossible⟩ | ⟨-, impossible, -⟩
        · cases impossible
        · cases impossible
    | halt given stays =>
        rcases (given_iff _ _ _).mp given with ⟨value, itemGiven, equal⟩ | ⟨-, impossible, -⟩
        · cases equal
          exact .halt itemGiven stays
        · cases impossible
    | more given progress others ih =>
        rcases (given_iff _ _ _).mp given with ⟨value, itemGiven, equal⟩ | ⟨-, impossible, -⟩
        · cases equal
          exact .more itemGiven progress ih
        · cases impossible
  · intro items
    induction items with
    | stop failed => exact .stop ((given_iff _ _ _).mpr (Or.inr ⟨failed, rfl, rfl⟩))
    | halt given stays => exact .halt ((given_iff _ _ _).mpr (Or.inl ⟨_, given, rfl⟩)) stays
    | more given progress others ih =>
        exact .more ((given_iff _ _ _).mpr (Or.inl ⟨_, given, rfl⟩)) progress ih

theorem turns_given {turn : Parser (Turn α)} {c d : Cursor} {values : List α}
    (turns : Turns calls turn c values d) :
    ∀ value ∈ values, ∃ e f, turn.Gives calls e (.more value) f ∨
      turn.Gives calls e (.last value) f := by
  induction turns with
  | stop given => simp
  | last given => exact List.forall_mem_singleton.mpr ⟨_, _, Or.inr given⟩
  | halt given _ => exact List.forall_mem_singleton.mpr ⟨_, _, Or.inl given⟩
  | more given _ _ ih => exact List.forall_mem_cons.mpr ⟨⟨_, _, Or.inl given⟩, ih⟩

theorem items_given {item : Parser α} {c d : Cursor} {values : List α}
    (items : Items calls item c values d) :
    ∀ value ∈ values, ∃ e f, item.Gives calls e value f := by
  induction items with
  | stop _ => simp
  | halt given _ => exact List.forall_mem_singleton.mpr ⟨_, _, given⟩
  | more given _ _ ih => exact List.forall_mem_cons.mpr ⟨⟨_, _, given⟩, ih⟩

theorem items_nil {item : Parser α} {c d : Cursor} (items : Items calls item c [] d) : c = d := by
  cases items
  rfl

theorem items_exist (calls : Rule → Cursor → Reading Node) (item : Parser α) (c : Cursor) :
    ∃ values d, Items calls item c values d := by
  rcases gives_or_fails calls item c with ⟨value, d, given⟩ | failed
  · by_cases progress : d.left < c.left
    · obtain ⟨values, e, others⟩ := items_exist calls item d
      exact ⟨value :: values, e, .more given progress others⟩
    · exact ⟨[value], d, .halt given progress⟩
  · exact ⟨[], c, .stop failed⟩
termination_by c.left

@[simp] theorem fails_many (item : Parser α) (c : Cursor) : ¬ (many item).Fails calls c := by
  obtain ⟨values, d, items⟩ := items_exist calls item c
  exact not_fails_of_gives ((gives_many item c d values).mpr items)

end Repetition

end ShellLine.Parser
