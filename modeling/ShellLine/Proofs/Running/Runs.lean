import ShellLine.Parse
import ShellLine.Proofs.Grammar.Ranked
import ShellLine.Proofs.Reading.Table

set_option autoImplicit false

namespace ShellLine

-- What happens in a run: a step from one state to the next, a rule of which nothing is kept is
-- tried, and what it gave where it was tried is about to be kept.
inductive Moment
  | steps (s t : State)
  | tries (rule : Rule) (s : State)
  | keeps (rule : Rule) (place : Cursor) (s : State)

namespace Moment

def states : Moment → List State
  | steps s t => [s, t]
  | tries _ s | keeps _ _ s => [s]

end Moment

abbrev Trace := List Moment

def Trace.states (trace : Trace) : List State := trace.flatMap Moment.states

namespace Trace

variable {P : State → Prop} {trace later : Trace} {s t : State}

@[simp] theorem states_append (trace later : Trace) :
    Trace.states (trace ++ later) = trace.states ++ Trace.states later := List.flatMap_append ..

theorem forall_step (first : P s) (second : P t) : ∀ u ∈ Trace.states [.steps s t], P u := by
  simpa [states, Moment.states] using ⟨first, second⟩

theorem forall_append (first : ∀ u ∈ trace.states, P u) (second : ∀ u ∈ later.states, P u) :
    ∀ u ∈ Trace.states (trace ++ later), P u := by
  rw [states_append]
  exact List.forall_mem_append.mpr ⟨first, second⟩

theorem forall_called {rule : Rule} {place : Cursor} (first : P s) (inner : ∀ u ∈ trace.states, P u) (last : P t) :
    ∀ u ∈ Trace.states (.tries rule s :: trace ++ [.keeps rule place t]), P u := by
  have tried : ∀ u ∈ Trace.states (.tries rule s :: trace), P u := List.forall_mem_cons.mpr ⟨first, inner⟩
  exact forall_append tried (by simpa [states, Moment.states] using last)

end Trace

-- A parser that is run at a level and in a state comes to its result by way of the moments of a trace.
-- A repetition goes on for as long as its turns ask for it.
inductive Runs (mode : Mode) :
    {α : Type} → Parser α → Nat → State → Trace → Option α × State → Prop
  | succeed {α : Type} (value : α) (level : Nat) (s : State) :
      Runs mode (.succeed value) level s [.steps s s] (some value, s)
  | fail {α : Type} (level : Nat) (s : State) :
      Runs mode (.fail : Parser α) level s [.steps s s] (none, s)
  | expected (e : Expected) (level : Nat) (s : State) :
      Runs mode (.expected e) level s [.steps s (s.note e)] (some (), s.note e)
  | look (level : Nat) (s : State) :
      Runs mode .look level s [.steps s s] (some s.cursor.rest, s)
  | place (level : Nat) (s : State) :
      Runs mode .place level s [.steps s s] (some s.cursor.left, s)
  | skip (count level : Nat) (s : State) :
      Runs mode (.skip count) level s [.steps s { s with cursor := s.cursor.advance count }]
        (some (), { s with cursor := s.cursor.advance count })
  | andThen {α β : Type} {first : Parser α} {next : α → Parser β} {level : Nat} {s t : State}
      {value : α} {trace later : Trace} {result : Option β × State} :
      Runs mode first level s trace (some value, t) → Runs mode (next value) level t later result →
        Runs mode (.andThen first next) level s (trace ++ later) result
  | cut {α β : Type} {first : Parser α} {next : α → Parser β} {level : Nat} {s t : State} {trace : Trace} :
      Runs mode first level s trace (none, t) →
        Runs mode (.andThen first next) level s trace (none, t)
  | attempt {α : Type} {inner : Parser α} {level : Nat} {s t : State} {value : α} {trace : Trace} :
      Runs mode inner level s trace (some value, t) →
        Runs mode (.attempt inner) level s trace (some (some value), t)
  | missed {α : Type} {inner : Parser α} {level : Nat} {s t : State} {trace : Trace} :
      Runs mode inner level s trace (none, t) →
        Runs mode (.attempt inner) level s trace (some none, { t with cursor := s.cursor })
  | refused {α : Type} {inner : Parser α} {level : Nat} {s : State}
      (full : mode.limit ≠ 0 ∧ mode.limit ≤ level) :
      Runs mode (.nested inner) level s [.steps s { s with tooDeep := true }]
        (none, { s with tooDeep := true })
  | nested {α : Type} {inner : Parser α} {level : Nat} {s : State} {trace : Trace}
      {result : Option α × State} (room : ¬ (mode.limit ≠ 0 ∧ mode.limit ≤ level)) :
      Runs mode inner (level + 1) s trace result → Runs mode (.nested inner) level s trace result
  | broken {α : Type} {turn : Parser (Turn α)} {level : Nat} {s t : State} {trace : Trace} :
      Runs mode turn level s trace (none, t) → Runs mode (.rounds turn) level s trace (none, t)
  | stop {α : Type} {turn : Parser (Turn α)} {level : Nat} {s t : State} {trace : Trace} :
      Runs mode turn level s trace (some .stop, t) → Runs mode (.rounds turn) level s trace (some [], t)
  | last {α : Type} {turn : Parser (Turn α)} {level : Nat} {s t : State} {value : α} {trace : Trace} :
      Runs mode turn level s trace (some (.last value), t) →
        Runs mode (.rounds turn) level s trace (some [value], t)
  | more {α : Type} {turn : Parser (Turn α)} {level : Nat} {s t u : State} {value : α}
      {values : Option (List α)} {trace later : Trace} :
      Runs mode turn level s trace (some (.more value), t) →
        Runs mode (.rounds turn) level t later (values, u) →
          Runs mode (.rounds turn) level s (trace ++ later) (values.map (value :: ·), u)
  | replayed {rule : Rule} {level : Nat} {s : State} {entry : Entry}
      (kept : mode.kept? rule s = some entry) :
      Runs mode (.call rule) level s [.steps s (replay entry s).2] (replay entry s)
  | called {rule : Rule} {level : Nat} {s t : State} {value : Option Node} {trace : Trace}
      (missing : mode.kept? rule s = none) :
      Runs mode (grammar rule) level s trace (value, t) →
        Runs mode (.call rule) level s (.tries rule s :: trace ++ [.keeps rule s.cursor t])
          (mode.record rule s.cursor value t)

-- A state of a run over a text: its places are places of the text, and what is kept for a rule is
-- among the answers the rule may give.
structure State.Sound (text : List Char) (s : State) : Prop where
  cursor : s.cursor.rest <:+ text
  failure : s.failure.cursor.rest <:+ text
  table : ∀ {key : Nat} {entry : Entry}, s.table[key]? = some entry →
    ∃ rule c, rule.isKept = true ∧ c.rest <:+ text ∧ rule.height c = key ∧
      ∀ node d, entry = some (node, d) → attained none rule c node d

section Soundness

variable {text : List Char} {mode : Mode}

theorem start_sound (text : List Char) : (State.start text).Sound text :=
  ⟨List.suffix_refl text, List.suffix_refl text, fun found => by simp [State.start] at found⟩

theorem sound_moved {s : State} {c : Cursor} (sound : s.Sound text) (within : c.rest <:+ text) :
    ({ s with cursor := c } : State).Sound text := ⟨within, sound.failure, sound.table⟩

theorem sound_note {s : State} (sound : s.Sound text) (e : Expected) : (s.note e).Sound text := by
  refine ⟨sound.cursor, ?_, sound.table⟩
  change (s.failure.note s.cursor e).cursor.rest <:+ text
  rw [Failure.note]
  split
  · exact sound.failure
  · split
    · exact sound.cursor
    · exact sound.failure

theorem attained_of_kept {rule : Rule} {s : State} {node : Node} {d : Cursor} (sound : s.Sound text)
    (kept : mode.kept? rule s = some (some (node, d))) : attained none rule s.cursor node d := by
  obtain ⟨-, -, found⟩ := kept_in_table kept
  obtain ⟨other, c, -, within, height, known⟩ := sound.table found
  obtain ⟨rfl, rfl⟩ := height_injective within sound.cursor height
  exact known node d rfl

theorem sound_replay {rule : Rule} {s : State} {entry : Entry} (sound : s.Sound text)
    (kept : mode.kept? rule s = some entry) : (replay entry s).2.Sound text := by
  cases entry with
  | none => exact sound
  | some pair =>
      have forward := attained_forward _ _ _ _ _ (attained_of_kept sound kept)
      exact sound_moved sound (forward.trans sound.cursor)

theorem sound_record {rule : Rule} {s t : State} {value : Option Node} (sound : s.Sound text)
    (soundThen : t.Sound text)
    (given : ∀ node, value = some node → attained none rule s.cursor node t.cursor) :
    (mode.record rule s.cursor value t).2.Sound text := by
  refine ⟨?_, ?_, fun {key entry} found => ?_⟩
  · cases value with
    | none =>
        have back : (mode.record rule s.cursor none t).2.cursor = s.cursor := by
          rw [Mode.record]
          split <;> rfl
        rw [back]
        exact sound.cursor
    | some node =>
        rw [record_cursor]
        exact soundThen.cursor
  · rw [record_failure]
    exact soundThen.failure
  · rcases recorded_or_before found with ⟨isKept, height, told⟩ | before
    · refine ⟨rule, s.cursor, isKept, sound.cursor, height, ?_⟩
      rintro node d rfl
      obtain ⟨kept, some, same⟩ := Option.map_eq_some_iff.mp told.symm
      obtain ⟨rfl, rfl⟩ := Prod.mk.inj same
      exact given kept some
    · exact soundThen.table before

theorem runs_sound {α : Type} {p : Parser α} {level : Nat} {s : State} {trace : Trace}
    {result : Option α × State} (runs : Runs mode p level s trace result) (sound : s.Sound text) :
    (∀ t ∈ trace.states, t.Sound text) ∧ result.2.Sound text ∧
      ∀ a, result.1 = some a → p.MayGive attained none s.cursor a result.2.cursor := by
  induction runs with
  | succeed value level s | look level s | place level s =>
      refine ⟨Trace.forall_step sound sound, sound, fun a given => ?_⟩
      cases given
      exact ⟨rfl, rfl⟩
  | fail level s => exact ⟨Trace.forall_step sound sound, sound, nofun⟩
  | expected e level s =>
      exact ⟨Trace.forall_step sound (sound_note sound e), sound_note sound e, fun _ _ => rfl⟩
  | skip count level s =>
      have moved := sound_moved sound ((s.cursor.advance_suffix count).trans sound.cursor)
      exact ⟨Trace.forall_step sound moved, moved, fun _ _ => rfl⟩
  | andThen _ _ firstSound laterSound =>
      obtain ⟨states, middle, given⟩ := firstSound sound
      obtain ⟨laterStates, last, later⟩ := laterSound middle
      exact ⟨Trace.forall_append states laterStates, last, fun b found => ⟨_, _, given _ rfl, later b found⟩⟩
  | cut _ ih =>
      obtain ⟨states, last, -⟩ := ih sound
      exact ⟨states, last, nofun⟩
  | attempt _ ih =>
      obtain ⟨states, last, given⟩ := ih sound
      refine ⟨states, last, fun a found => ?_⟩
      cases found
      exact Or.inl ⟨_, rfl, given _ rfl⟩
  | missed _ ih =>
      obtain ⟨states, last, -⟩ := ih sound
      refine ⟨states, sound_moved last sound.cursor, fun a found => ?_⟩
      cases found
      exact Or.inr ⟨rfl, rfl⟩
  | @refused _ _ _ s full =>
      have deep : ({ s with tooDeep := true } : State).Sound text :=
        ⟨sound.cursor, sound.failure, sound.table⟩
      exact ⟨Trace.forall_step sound deep, deep, nofun⟩
  | nested _ _ ih =>
      obtain ⟨states, last, given⟩ := ih sound
      exact ⟨states, last, fun a found => ⟨none, rfl, given a found⟩⟩
  | broken _ ih =>
      obtain ⟨states, last, -⟩ := ih sound
      exact ⟨states, last, nofun⟩
  | stop _ ih =>
      obtain ⟨states, last, given⟩ := ih sound
      refine ⟨states, last, fun a found => ?_⟩
      cases found
      exact .stop (given _ rfl)
  | last _ ih =>
      obtain ⟨states, last, given⟩ := ih sound
      refine ⟨states, last, fun a found => ?_⟩
      cases found
      exact .last (given _ rfl)
  | more _ _ turnSound laterSound =>
      obtain ⟨states, middle, given⟩ := turnSound sound
      obtain ⟨laterStates, last, later⟩ := laterSound middle
      refine ⟨Trace.forall_append states laterStates, last, fun a found => ?_⟩
      obtain ⟨values, some, rfl⟩ := Option.map_eq_some_iff.mp found
      exact .more (given _ rfl) (later values some)
  | @replayed rule _ s entry kept =>
      refine ⟨Trace.forall_step sound (sound_replay sound kept), sound_replay sound kept, fun node found => ?_⟩
      cases entry with
      | none => cases found
      | some pair =>
          cases found
          exact attained_of_kept sound kept
  | @called rule _ s t value trace missing _ ih =>
      obtain ⟨states, last, given⟩ := ih sound
      have known : ∀ node, value = some node → attained none rule s.cursor node t.cursor :=
        fun node found => attained_closed _ _ _ _ _ (given node found)
      refine ⟨Trace.forall_called sound states last, sound_record sound last known, fun node found => ?_⟩
      rw [record_value] at found
      subst found
      rw [record_cursor]
      exact known node rfl

end Soundness

section Existence

variable {text : List Char} {mode : Mode} {calls : Rule → Nat → State → Option Node × State}
  {bound : Nat}

theorem rounds_run {α : Type} {turn : Parser (Turn α)} {level : Nat}
    (each : ∀ s, s.Sound text → turn.CallsLower attained bound s.cursor →
      ∃ trace, Runs mode turn level s trace (turn.run calls mode.limit level s))
    (advances : ∀ room c value d, turn.MayGive attained room c (.more value) d → d.left < c.left)
    (taken : List α) (s : State) (sound : s.Sound text)
    (lower : (Parser.rounds turn).CallsLower attained bound s.cursor) :
    ∃ trace values t, Runs mode (.rounds turn) level s trace (values, t) ∧
      Parser.repeatTurns (turn.run calls mode.limit level) taken s =
        (values.map (taken.reverse ++ ·), t) := by
  obtain ⟨trace, runs⟩ := each s sound (lower s.cursor (List.suffix_refl _))
  obtain ⟨-, last, given⟩ := runs_sound runs sound
  rw [Parser.repeatTurns]
  generalize turn.run calls mode.limit level s = outcome at runs last given ⊢
  obtain ⟨next, t⟩ := outcome
  cases next with
  | none => exact ⟨trace, none, t, .broken runs, rfl⟩
  | some next =>
      cases next with
      | stop => exact ⟨trace, some [], t, .stop runs, by simp⟩
      | last value => exact ⟨trace, some [value], t, .last runs, by simp⟩
      | more value =>
          have passed := given (.more value) rfl
          have progress : t.cursor.left < s.cursor.left := advances _ _ _ _ passed
          have lowerThen : (Parser.rounds turn).CallsLower attained bound t.cursor :=
            fun d behind => lower d (behind.trans (Parser.may_give_forward attained_forward _ passed))
          obtain ⟨later, values, u, others, rest⟩ :=
            rounds_run each advances (value :: taken) t last lowerThen
          refine ⟨trace ++ later, values.map (value :: ·), u, .more runs others, ?_⟩
          simp only [if_pos progress, rest]
          cases values <;> simp
termination_by s.cursor.left

theorem parser_runs {α : Type} (p : Parser α)
    (answered : ∀ rule level s, s.Sound text → rule.height s.cursor < bound →
      ∃ trace, Runs mode (.call rule) level s trace (calls rule level s)) :
    ∀ level s, s.Sound text → p.CallsLower attained bound s.cursor → p.Progresses attained →
      ∃ trace, Runs mode p level s trace (p.run calls mode.limit level s) := by
  induction p with
  | succeed value => exact fun level s _ _ _ => ⟨_, .succeed value level s⟩
  | fail => exact fun level s _ _ _ => ⟨_, .fail level s⟩
  | expected e => exact fun level s _ _ _ => ⟨_, .expected e level s⟩
  | look => exact fun level s _ _ _ => ⟨_, .look level s⟩
  | place => exact fun level s _ _ _ => ⟨_, .place level s⟩
  | skip count => exact fun level s _ _ _ => ⟨_, .skip count level s⟩
  | andThen first next firstRuns nextRuns =>
      intro level s sound lower progresses
      obtain ⟨trace, runs⟩ := firstRuns level s sound lower.1 progresses.1
      obtain ⟨-, middle, given⟩ := runs_sound runs sound
      rw [Parser.run]
      generalize first.run calls mode.limit level s = outcome at runs middle given ⊢
      obtain ⟨value, t⟩ := outcome
      cases value with
      | none => exact ⟨trace, .cut runs⟩
      | some a =>
          obtain ⟨later, others⟩ :=
            nextRuns a level t middle (lower.2 _ a _ (given a rfl)) (progresses.2 a)
          exact ⟨trace ++ later, .andThen runs others⟩
  | attempt inner ih =>
      intro level s sound lower progresses
      obtain ⟨trace, runs⟩ := ih level s sound lower progresses
      rw [Parser.run]
      generalize inner.run calls mode.limit level s = outcome at runs ⊢
      obtain ⟨value, t⟩ := outcome
      cases value with
      | none => exact ⟨trace, .missed runs⟩
      | some a => exact ⟨trace, .attempt runs⟩
  | nested inner ih =>
      intro level s sound lower progresses
      by_cases full : mode.limit ≠ 0 ∧ mode.limit ≤ level
      · rw [Parser.run_nested_full full]
        exact ⟨_, .refused full⟩
      · rw [Parser.run_nested_below full]
        obtain ⟨trace, runs⟩ := ih (level + 1) s sound lower progresses
        exact ⟨trace, .nested full runs⟩
  | rounds turn ih =>
      intro level s sound lower progresses
      obtain ⟨trace, values, t, runs, same⟩ := rounds_run
        (fun s sound lower => ih level s sound lower progresses.1) progresses.2 [] s sound lower
      refine ⟨trace, ?_⟩
      rw [Parser.run, same]
      cases values <;> exact runs
  | call rule => exact fun level s sound lower _ => answered rule level s sound lower

theorem rule_runs (mode : Mode) (rule : Rule) (level : Nat) (s : State) (sound : s.Sound text) :
    ∃ trace, Runs mode (.call rule) level s trace (evaluate grammar mode rule level s) := by
  cases kept : mode.kept? rule s with
  | some entry =>
      rw [evaluate_kept kept]
      exact ⟨_, .replayed kept⟩
  | none =>
      rw [evaluate_unkept kept]
      have lower : (grammar rule).CallsLower attained (rule.height s.cursor) s.cursor :=
        Grammar.grammar_ranked attained_forward rule s.cursor _ (Nat.le_refl _)
      have answered : ∀ inner deeper (t : State), t.Sound text →
          inner.height t.cursor < rule.height s.cursor → ∃ trace, Runs mode (.call inner) deeper t trace
            (evaluateBelow grammar mode (rule.height s.cursor) inner deeper t) := by
        intro inner deeper t soundThen below
        rw [evaluateBelow, if_pos below]
        exact rule_runs mode inner deeper t soundThen
      obtain ⟨trace, runs⟩ := parser_runs (grammar rule) answered level s sound lower
        (Grammar.grammar_progresses attained_forward attained_advance rule)
      exact ⟨_, .called kept runs⟩
termination_by rule.height s.cursor

theorem program_lower (text : List Char) :
    Grammar.program.CallsLower attained (6 * (Cursor.start text).left + 6) (.start text) :=
  Parser.calls_lower_of_left attained_forward _ _ (Nat.le_refl _)

theorem program_runs (mode : Mode) (text : List Char) :
    ∃ trace, Runs mode Grammar.program 0 (.start text) trace (readProgram mode text) :=
  parser_runs Grammar.program (fun rule level s sound _ => rule_runs mode rule level s sound) 0 _
    (start_sound text) (program_lower text)
    (Grammar.program_progresses attained_forward attained_advance)

end Existence

end ShellLine
