import ShellLine.Proofs.Lines.Alike
import ShellLine.Proofs.Lines.Word
import ShellLine.Proofs.Reading.Level

set_option autoImplicit false

namespace ShellLine.Lines

open ShellLine.Parser Grammar

-- A place in a text, and the place in the joined text. Behind it no token is cut; one may start
-- there if the places are fresh.
structure Along (p : Position) (fresh : Bool) (c d : Cursor) : Prop where
  rest : d.rest = joinLines .none c.rest
  uncut : Uncut p fresh c.rest
  unexpanded : Unexpanded c.rest
  uncommented : '#' ∉ c.rest

structure Abreast (role : Role) (c d : Cursor) : Prop extends Along ⟨role, false⟩ true c d where
  idle : layoutLength false false c.rest = 0

-- Places where a command may start, or where arguments have ended. They may end at the sign of a
-- redirection that cannot be read.
inductive Twin (c d : Cursor) : Prop
  | free {role : Role} (asked : role ≠ .argument) (here : Abreast role c d)
  | halted (here : Abreast .argument c d) (sign : c.rest.head? = some '<' ∨ c.rest.head? = some '>')
      (rejected : redirection.Rejects c) (other : redirection.Rejects d)

-- Readings that give corresponding values at corresponding places, or both nothing.
structure Lockstep {α β : Type} (M : Cursor → Cursor → Prop) (R : α → β → Prop) (r : Reading α)
    (s : Reading β) : Prop where
  outcome : Option.Rel (fun x y => R x.1 y.1 ∧ M x.2 y.2) r.outcome s.outcome
  depth : s.depth ≤ r.depth

inductive SameTurn {α β : Type} (R : α → β → Prop) : Turn α → Turn β → Prop
  | more {a : α} {b : β} (same : R a b) : SameTurn R (.more a) (.more b)
  | last {a : α} {b : β} (same : R a b) : SameTurn R (.last a) (.last b)
  | stop : SameTurn R .stop .stop

-- Parsers that read in lockstep, if the first calls only low rules.
def Agrees (bound : Nat) {α β : Type} (M : Cursor → Cursor → Prop) (R : α → β → Prop) (p : Parser α)
    (q : Parser β) (c d : Cursor) : Prop :=
  p.CallsUnder (reading grammar) bound c →
    Lockstep M R (p.read (reading grammar) c) (q.read (reading grammar) d)

section Readings

variable {α β γ δ : Type} {M N : Cursor → Cursor → Prop} {R : α → β → Prop} {S : γ → δ → Prop}

theorem lockstep_and_then {r : Reading γ} {s : Reading δ} {next : γ → Cursor → Reading α}
    {next' : δ → Cursor → Reading β} (first : Lockstep N S r s)
    (later : ∀ a b c d, r.outcome = some (a, c) → s.outcome = some (b, d) → S a b → N c d →
      Lockstep M R (next a c) (next' b d)) :
    Lockstep M R (r.andThen next) (s.andThen next') := by
  obtain ⟨outcome, depth⟩ := first
  obtain ⟨found, notes, level⟩ := r
  obtain ⟨found', notes', level'⟩ := s
  cases outcome with
  | none => exact ⟨.none, depth⟩
  | @some x y both =>
      obtain ⟨outcome, depths⟩ := later x.1 y.1 x.2 y.2 rfl rfl both.1 both.2
      refine ⟨outcome, ?_⟩
      change max level' _ ≤ max level _
      exact Nat.max_le.mpr ⟨Nat.le_trans depth (Nat.le_max_left ..),
        Nat.le_trans depths (Nat.le_max_right ..)⟩

theorem lockstep_at {r : Reading α} {s : Reading β} (lockstep : Lockstep N R r s)
    (places : ∀ e f, N e f → M e f) : Lockstep M R r s := by
  obtain ⟨outcome, depth⟩ := lockstep
  obtain ⟨found, notes, level⟩ := r
  obtain ⟨found', notes', level'⟩ := s
  cases outcome with
  | none => exact ⟨.none, depth⟩
  | some both => exact ⟨.some ⟨both.1, places _ _ both.2⟩, depth⟩

theorem read_turns_lockstep {turn : Parser (Turn α)} {turn' : Parser (Turn β)}
    (moves : ∀ c a d, turn.Reads c (.more a) d → d.left < c.left)
    (moves' : ∀ c a d, turn'.Reads c (.more a) d → d.left < c.left) (c d : Cursor) (here : M c d)
    (each : ∀ e f, e.rest <:+ c.rest → M e f →
      Lockstep M (SameTurn R) (turn.read (reading grammar) e) (turn'.read (reading grammar) f))
    {taken : List α} {taken' : List β} (same : List.Forall₂ R taken taken') :
    Lockstep M (List.Forall₂ R) (readTurns (turn.read (reading grammar)) taken c)
      (readTurns (turn'.read (reading grammar)) taken' d) := by
  rw [readTurns, readTurns]
  refine lockstep_and_then (each c d (List.suffix_refl _) here) ?_
  intro a b e f found found' turned behind
  cases turned with
  | stop => exact ⟨.some ⟨List.rel_reverse same, behind⟩, Nat.le_refl _⟩
  | last value => exact ⟨.some ⟨List.rel_reverse (.cons value same), behind⟩, Nat.le_refl _⟩
  | more value =>
      have progress := moves c _ e found
      simp only [if_pos progress, if_pos (moves' d _ f found')]
      exact read_turns_lockstep moves moves' e f behind
        (fun g h suffix => each g h (suffix.trans (reads_forward found))) (.cons value same)
termination_by c.left

end Readings

section Combinators

variable {bound : Nat} {α β γ δ : Type} {M N : Cursor → Cursor → Prop} {R : α → β → Prop}
  {S : γ → δ → Prop} {c d : Cursor}

theorem agrees_pure {a : α} {b : β} (same : R a b) (here : M c d) :
    Agrees bound M R (pure a) (pure b) c d :=
  fun _ => ⟨.some ⟨same, here⟩, Nat.le_refl _⟩

theorem agrees_fail : Agrees bound M R fail fail c d := fun _ => ⟨.none, Nat.le_refl _⟩

theorem agrees_refuse (e : Expected) : Agrees bound M R (refuse e) (refuse e) c d :=
  fun _ => ⟨.none, Nat.le_refl _⟩

theorem lockstep_of_reads {p : Parser α} {q : Parser β} {a : α} {b : β} {e f : Cursor}
    (read : p.Reads c a e) (other : q.Reads d b f) (level : q.StaysLevel (reading grammar) d)
    (same : R a b) (behind : M e f) :
    Lockstep M R (p.read (reading grammar) c) (q.read (reading grammar) d) := by
  refine ⟨?_, by rw [read_level (reading_forward grammar) q d level]; exact Nat.zero_le _⟩
  rw [read, other]
  exact .some ⟨same, behind⟩

theorem lockstep_of_rejects {p : Parser α} {q : Parser β} (rejected : p.Rejects c)
    (other : q.Rejects d) (level : q.StaysLevel (reading grammar) d) :
    Lockstep M R (p.read (reading grammar) c) (q.read (reading grammar) d) := by
  refine ⟨?_, by rw [read_level (reading_forward grammar) q d level]; exact Nat.zero_le _⟩
  rw [rejected, other]
  exact .none

theorem agrees_of_reads {p : Parser α} {q : Parser β} {a : α} {b : β} {e f : Cursor}
    (read : p.Reads c a e) (other : q.Reads d b f) (level : q.StaysLevel (reading grammar) d)
    (same : R a b) (behind : M e f) : Agrees bound M R p q c d :=
  fun _ => lockstep_of_reads read other level same behind

theorem agrees_of_rejects {p : Parser α} {q : Parser β} (rejected : p.Rejects c) (other : q.Rejects d)
    (level : q.StaysLevel (reading grammar) d) : Agrees bound M R p q c d :=
  fun _ => lockstep_of_rejects rejected other level

theorem agrees_after {p : Parser γ} {q : Parser δ} {next : γ → Parser α} {next' : δ → Parser β}
    {a : γ} {b : δ} {e f : Cursor} (read : p.Reads c a e) (other : q.Reads d b f)
    (level : q.StaysLevel (reading grammar) d) (later : Agrees bound M R (next a) (next' b) e f) :
    Agrees bound M R (p >>= next) (q >>= next') c d := by
  intro under
  obtain ⟨outcome, depth⟩ := later (under.2 a e read)
  have flat := read_level (reading_forward grammar) q d level
  have first : (p.read (reading grammar) c).outcome = some (a, e) := read
  have second : (q.read (reading grammar) d).outcome = some (b, f) := other
  change Lockstep M R ((p.read (reading grammar) c).andThen _) ((q.read (reading grammar) d).andThen _)
  simp only [Reading.andThen, first, second, flat, Nat.zero_max]
  exact ⟨outcome, Nat.le_trans depth (Nat.le_max_right ..)⟩

theorem agrees_stop {p : Parser γ} {q : Parser δ} {next : γ → Parser α} {next' : δ → Parser β}
    (rejected : p.Rejects c) (other : q.Rejects d) (level : q.StaysLevel (reading grammar) d) :
    Agrees bound M R (p >>= next) (q >>= next') c d :=
  agrees_of_rejects ((fails_bind _ _ _).mpr (Or.inl rejected)) ((fails_bind _ _ _).mpr (Or.inl other))
    ⟨level, fun _ _ given => absurd other (not_fails_of_gives given)⟩

theorem agrees_bind {p : Parser γ} {q : Parser δ} {next : γ → Parser α} {next' : δ → Parser β}
    (first : Agrees bound N S p q c d)
    (later : ∀ a b e f, S a b → N e f → Agrees bound M R (next a) (next' b) e f) :
    Agrees bound M R (p >>= next) (q >>= next') c d := by
  intro under
  refine lockstep_and_then (first under.1) fun a b e f found _ same behind => ?_
  exact later a b e f same behind (under.2 a e found)

theorem agrees_look {next : List Char → Parser α} {next' : List Char → Parser β}
    (later : Agrees bound M R (next c.rest) (next' d.rest) c d) :
    Agrees bound M R (look >>= next) (look >>= next') c d := agrees_after rfl rfl trivial later

-- What two readings tell of their values and places may be added.
theorem agrees_told {p : Parser α} {q : Parser β} {Q : α → β → Prop} (agrees : Agrees bound N R p q c d)
    (told : ∀ a b e f, p.Reads c a e → q.Reads d b f → R a b → N e f → Q a b ∧ M e f) :
    Agrees bound M Q p q c d := by
  intro under
  obtain ⟨outcome, depth⟩ := agrees under
  refine ⟨?_, depth⟩
  cases found : (p.read (reading grammar) c).outcome with
  | none =>
      cases found' : (q.read (reading grammar) d).outcome with
      | none => exact .none
      | some => rw [found, found'] at outcome; cases outcome
  | some pair =>
      cases found' : (q.read (reading grammar) d).outcome with
      | none => rw [found, found'] at outcome; cases outcome
      | some other =>
          rw [found, found'] at outcome
          cases outcome with
          | some both => exact .some (told _ _ pair.2 other.2 found found' both.1 both.2)

theorem agrees_at {p : Parser α} {q : Parser β} (agrees : Agrees bound N R p q c d)
    (places : ∀ e f, N e f → M e f) : Agrees bound M R p q c d :=
  fun under => lockstep_at (agrees under) places

theorem agrees_attempt {p : Parser α} {q : Parser β} (here : M c d) (tried : Agrees bound M R p q c d) :
    Agrees bound M (Option.Rel R) (attempt p) (attempt q) c d := by
  intro under
  obtain ⟨outcome, depth⟩ := tried under
  rw [Parser.read, Parser.read]
  generalize p.read (reading grammar) c = r at *
  generalize q.read (reading grammar) d = s at *
  obtain ⟨found, notes, level⟩ := r
  obtain ⟨found', notes', level'⟩ := s
  cases outcome with
  | none => exact ⟨.some ⟨.none, here⟩, depth⟩
  | some both => exact ⟨.some ⟨.some both.1, both.2⟩, depth⟩

-- Where a parser is tried and gives nothing, the places are still the same.
theorem agrees_attempt_bind {p : Parser γ} {q : Parser δ} {next : Option γ → Parser α}
    {next' : Option δ → Parser β} (tried : Agrees bound N S p q c d)
    (missed : Agrees bound M R (next none) (next' none) c d)
    (given : ∀ a b e f, S a b → N e f → Agrees bound M R (next (some a)) (next' (some b)) e f) :
    Agrees bound M R (attempt p >>= next) (attempt q >>= next') c d := by
  intro under
  have first : Lockstep N S (p.read (reading grammar) c) (q.read (reading grammar) d) := tried under.1
  have either : Agrees bound (fun _ _ => True) (Option.Rel S) (attempt p) (attempt q) c d :=
    agrees_attempt trivial (agrees_at tried fun _ _ _ => trivial)
  refine lockstep_and_then (either under.1) fun a b e f found found' same _ => ?_
  rcases (gives_attempt p c e a).mp found with ⟨value, rfl, read⟩ | ⟨rfl, -, rfl⟩
  · rcases (gives_attempt q d f b).mp found' with ⟨other, rfl, read'⟩ | ⟨rfl, -, -⟩
    · obtain ⟨outcome, -⟩ := first
      rw [read, read'] at outcome
      cases outcome with
      | some both => exact given value other e f both.1 both.2 (under.2 _ e found)
    · cases same
  · rcases (gives_attempt q d f b).mp found' with ⟨other, rfl, -⟩ | ⟨rfl, -, rfl⟩
    · cases same
    · exact missed (under.2 _ _ found)

theorem agrees_or_else {p p' : Parser α} {q q' : Parser β} (first : Agrees bound M R p q c d)
    (second : Agrees bound M R p' q' c d) : Agrees bound M R (p <|> p') (q <|> q') c d :=
  agrees_attempt_bind first second fun _ _ _ _ => agrees_pure

theorem agrees_atomic {p : Parser α} {q : Parser β} (inner : Agrees bound M R p q c d) :
    Agrees bound M R (atomic p) (atomic q) c d :=
  agrees_attempt_bind inner agrees_fail fun _ _ _ _ => agrees_pure

theorem agrees_optional {p : Parser α} {q : Parser β} (here : M c d) (inner : Agrees bound M R p q c d) :
    Agrees bound M Eq (optional p) (optional q) c d :=
  agrees_bind (agrees_attempt here inner) fun _ _ _ _ _ behind => agrees_pure rfl behind

theorem agrees_nested {p : Parser α} {q : Parser β} (inner : Agrees bound M R p q c d) :
    Agrees bound M R (nested p) (nested q) c d := by
  intro under
  obtain ⟨outcome, depth⟩ := inner under
  exact ⟨outcome, Nat.succ_le_succ depth⟩

theorem agrees_rounds {turn : Parser (Turn α)} {turn' : Parser (Turn β)}
    (moves : ∀ c a d, turn.Reads c (.more a) d → d.left < c.left)
    (moves' : ∀ c a d, turn'.Reads c (.more a) d → d.left < c.left) (here : M c d)
    (each : ∀ e f, M e f → Agrees bound M (SameTurn R) turn turn' e f) :
    Agrees bound M (List.Forall₂ R) (rounds turn) (rounds turn') c d :=
  fun under => read_turns_lockstep moves moves' c d here
    (fun e f behind both => each e f both (under e behind)) .nil

theorem many_turn_moves {p : Parser α} (moves : ∀ c a d, p.Reads c a d → d.left < c.left)
    (c : Cursor) (a : α) (d : Cursor) (read : (attempt p >>= fun tried => match tried with
      | some value => pure (Turn.more value)
      | none => pure .stop).Reads c (.more a) d) : d.left < c.left := by
  rcases (gives_attempt_bind _ _ _ _ _).mp read with ⟨value, e, given, made⟩ | ⟨-, made⟩
  · obtain ⟨-, rfl⟩ := (gives_pure _ _ _ _).mp made
    exact moves c value e given
  · cases ((gives_pure _ _ _ _).mp made).1

theorem agrees_many {p : Parser α} {q : Parser β}
    (moves : ∀ c a d, p.Reads c a d → d.left < c.left)
    (moves' : ∀ c a d, q.Reads c a d → d.left < c.left) (here : M c d)
    (each : ∀ e f, M e f → Agrees bound M R p q e f) :
    Agrees bound M (List.Forall₂ R) (many p) (many q) c d := by
  refine agrees_rounds (many_turn_moves moves) (many_turn_moves moves') here fun e f both => ?_
  exact agrees_attempt_bind (each e f both) (agrees_pure .stop both) fun _ _ _ _ same =>
    agrees_pure (.more same)

end Combinators

end ShellLine.Lines
