import ShellLine.Proofs.Bytewise.Matches
import ShellLine.Proofs.Bytewise.Runs
import ShellLine.Proofs.Running.Unique

set_option autoImplicit false

namespace ShellLine.Bytewise

open Text

-- What a moment of a run may show. A scan may stand inside a character.
def Moment.Safe (input : String) : Moment → Prop
  | stands s => ∃ c, Matches input s c
  | scans start s => (∃ c, Matches input { s with pos := start } c) ∧ start ≤ s.pos ∧
      s.pos < (bytes input.toList).length
  | saves pos => ∃ c : Cursor, c.rest <:+ input.toList ∧ offsetOf input c.left = pos
  | slices start stop => ∃ c d : Cursor, c.rest <:+ input.toList ∧ d.rest <:+ c.rest ∧
      offsetOf input c.left = start ∧ offsetOf input d.left = stop

def Trail.Safe (input : String) (trail : Trail) : Prop := ∀ m ∈ trail, m.Safe input

-- Where a program is left that misses, given where it started and what its counterpart came to.
abbrev Ending := ShellLine.State → ShellLine.State → Cursor → Prop

def never : Ending := fun _ _ _ => False

def back : Ending := fun c _ d => d = c.cursor

def there : Ending := fun _ e d => d = e.cursor

def anywhere : Ending := fun _ _ _ => True

section Definition

variable (input : String) (limit : Nat) {α : Type}

def Comes (ends : Ending) (b : Program α) (level : Nat) (s : State) (c : ShellLine.State) :
    Option α → ShellLine.State → Prop
  | some a, e => ∃ trail t, Runs input.toList limit b level s trail (.gave a t) ∧ trail.Safe input ∧ Matches input t e
  | none, e => ∃ trail t d, Runs input.toList limit b level s trail (.missed t) ∧ trail.Safe input ∧ ends c e d ∧
      Matches input t { e with cursor := d }

-- Where a parser comes to a result in no more than so many moments, the program on bytes comes to the
-- same.
def Refines (bound : Nat) (ends : Ending) (here : List Char → Prop) (b : Program α) (p : Parser α) : Prop :=
  ∀ level s c trace value e, trace.length ≤ bound → Matches input s c → here c.cursor.rest →
    ShellLine.Runs ⟨true, limit⟩ p level c trace (value, e) → Comes input limit ends b level s c value e

end Definition

section Safe

variable {input : String} {trail after : Trail}

theorem safe_nil : Trail.Safe input [] := nofun

theorem safe_single {m : Moment} (safe : m.Safe input) : Trail.Safe input [m] := List.forall_mem_singleton.mpr safe

theorem safe_append (safe : trail.Safe input) (safeAfter : after.Safe input) : Trail.Safe input (trail ++ after) :=
  List.forall_mem_append.mpr ⟨safe, safeAfter⟩

theorem safe_cons {m : Moment} (safe : m.Safe input) (others : trail.Safe input) : Trail.Safe input (m :: trail) :=
  List.forall_mem_cons.mpr ⟨safe, others⟩

theorem safe_stands {s : State} {c : ShellLine.State} (sent : Matches input s c) : Trail.Safe input [.stands s] :=
  safe_single ⟨c, sent⟩

theorem safe_saves {s : State} {c : ShellLine.State} (sent : Matches input s c) : (Moment.saves s.pos).Safe input :=
  ⟨c.cursor, sent.sound.cursor, sent.pos.symm⟩

end Safe

section Combinators

variable {input : String} {limit bound : Nat} {ends firstEnds laterEnds : Ending} {here : List Char → Prop}
  {α β : Type} {b : Program α} {p : Parser α}

theorem comes_mono {level : Nat} {s : State} {c c' e : ShellLine.State} {value : Option α}
    (came : Comes input limit firstEnds b level s c value e) (allowed : ∀ d, firstEnds c e d → ends c' e d) :
    Comes input limit ends b level s c' value e := by
  cases value with
  | some a => exact came
  | none =>
      obtain ⟨trail, t, d, ran, safe, left, after⟩ := came
      exact ⟨trail, t, d, ran, safe, allowed d left, after⟩

theorem refines_mono (refines : Refines input limit bound firstEnds here b p)
    (allowed : ∀ c e d, firstEnds c e d → ends c e d) {there : List Char → Prop} (narrow : ∀ rest, there rest → here rest) :
    Refines input limit bound ends there b p :=
  fun level s c trace value e short sent stands runs =>
    comes_mono (refines level s c trace value e short sent (narrow _ stands) runs) (allowed c e)

theorem refines_give (a : α) : Refines input limit bound ends here (pure a) (pure a) := by
  intro level s c trace value e short sent stands runs
  obtain ⟨-, same⟩ := has_run_of_runs runs
  obtain ⟨rfl, rfl⟩ := Prod.mk.inj same
  exact ⟨[], s, runs_give a, safe_nil, sent⟩

theorem refines_miss (allowed : ∀ c, ends c c c.cursor) :
    Refines input limit bound ends here (.miss : Program α) (.fail : Parser α) := by
  intro level s c trace value e short sent stands runs
  obtain ⟨-, same⟩ := has_run_of_runs runs
  obtain ⟨rfl, rfl⟩ := Prod.mk.inj same
  exact ⟨[], s, e.cursor, runs_miss, safe_nil, allowed e, sent⟩

theorem refines_bind {next : α → Program β} {following : α → Parser β}
    (first : Refines input limit bound firstEnds here b p)
    (later : ∀ a, Refines input limit bound laterEnds (fun _ => True) (next a) (following a))
    (missed : ∀ c e d, firstEnds c e d → ends c e d) (missedLater : ∀ c m e d, laterEnds m e d → ends c e d) :
    Refines input limit bound ends here (b >>= next) (p >>= following) := by
  intro level s c trace value e short sent stands runs
  rcases has_run_of_runs runs with ⟨a, m, before, after, ran, ranLater, rfl⟩ | ⟨m, ran, same⟩
  · rw [List.length_append] at short
    obtain ⟨trail, t, came, safe, middle⟩ := first level s c before _ m (by omega) sent stands ran
    have rest := later a level t m after value e (by omega) middle trivial ranLater
    cases value with
    | some _ =>
        obtain ⟨trailLater, u, cameLater, safeLater, final⟩ := rest
        exact ⟨_, u, runs_and_then came cameLater, safe_append safe safeLater, final⟩
    | none =>
        obtain ⟨trailLater, u, d, cameLater, safeLater, left, final⟩ := rest
        exact ⟨_, u, d, runs_and_then came cameLater, safe_append safe safeLater, missedLater c m e d left, final⟩
  · obtain ⟨rfl, rfl⟩ := Prod.mk.inj same
    obtain ⟨trail, t, d, came, safe, left, after⟩ := first level s c trace _ e short sent stands ran
    exact ⟨trail, t, d, runs_cut came, safe, missed c e d left, after⟩

theorem refines_surely {next : α → Program β} {following : α → Parser β}
    (first : Refines input limit bound never here b p)
    (later : ∀ a, Refines input limit bound never (fun _ => True) (next a) (following a)) :
    Refines input limit bound never here (b >>= next) (p >>= following) :=
  refines_bind first later (fun _ _ _ => id) (fun _ _ _ _ => id)

theorem refines_then {next : α → Program β} {following : α → Parser β}
    (first : Refines input limit bound back here b p)
    (later : ∀ a, Refines input limit bound never (fun _ => True) (next a) (following a)) :
    Refines input limit bound back here (b >>= next) (p >>= following) :=
  refines_bind first later (fun _ _ _ => id) (fun _ _ _ _ => False.elim)

theorem refines_lax (refines : Refines input limit bound ends here b p) : Refines input limit bound anywhere here b p :=
  refines_mono refines (fun _ _ _ _ => trivial) fun _ => id

theorem refines_of_never (refines : Refines input limit bound never here b p) : Refines input limit bound ends here b p :=
  refines_mono refines (fun _ _ _ => False.elim) fun _ => id

theorem refines_anyhow {next : α → Program β} {following : α → Parser β}
    (first : Refines input limit bound firstEnds here b p)
    (later : ∀ a, Refines input limit bound anywhere (fun _ => True) (next a) (following a)) :
    Refines input limit bound anywhere here (b >>= next) (p >>= following) :=
  refines_bind first later (fun _ _ _ _ => trivial) (fun _ _ _ _ _ => trivial)

theorem refines_attempt (inner : Refines input limit bound anywhere here b p) :
    Refines input limit bound never here (.attempt b) (.attempt p) := by
  intro level s c trace value e short sent stands runs
  obtain ⟨tried, m, ran, same⟩ := has_run_of_runs runs
  obtain ⟨rfl, rfl⟩ := Prod.mk.inj same
  have came := inner level s c trace tried m short sent stands ran
  cases tried with
  | some a =>
      obtain ⟨trail, t, came, safe, after⟩ := came
      exact ⟨_, t, runs_attempt came, safe_cons (safe_saves sent) (safe_append safe safe_nil), after⟩
  | none =>
      obtain ⟨trail, t, d, came, safe, -, after⟩ := came
      have restored := after.moved sent.sound.cursor
      rw [← sent.pos] at restored
      exact ⟨_, _, runs_attempt came,
        safe_cons (safe_saves sent) (safe_append safe (safe_stands restored)), restored⟩

theorem refines_maybe (inner : Refines input limit bound back here b p) :
    Refines input limit bound never here (.maybe b) (.attempt p) := by
  intro level s c trace value e short sent stands runs
  obtain ⟨tried, m, ran, same⟩ := has_run_of_runs runs
  obtain ⟨rfl, rfl⟩ := Prod.mk.inj same
  have came := inner level s c trace tried m short sent stands ran
  cases tried with
  | some a =>
      obtain ⟨trail, t, came, safe, after⟩ := came
      exact ⟨_, t, runs_maybe came, safe_append safe safe_nil, after⟩
  | none =>
      obtain ⟨trail, t, d, came, safe, rfl, after⟩ := came
      exact ⟨_, _, runs_maybe came, safe_append safe (safe_stands after), after⟩

theorem refines_maybe_then {next : Option α → Program β} {following : Option α → Parser β}
    (inner : Refines input limit bound back here b p)
    (given : ∀ a, Refines input limit bound anywhere (fun _ => True) (next (some a)) (following (some a)))
    (missed : Refines input limit bound anywhere (fun _ => True) (next none) (following none)) :
    Refines input limit bound anywhere here (.maybe b >>= next) (.attempt p >>= following) :=
  refines_anyhow (refines_maybe inner) fun tried => match tried with
    | some a => given a
    | none => missed

theorem run_of_tried {next : Option α → Parser β} {level : Nat} {c : ShellLine.State} {trace : Trace}
    {result : Option β × ShellLine.State}
    (runs : ShellLine.Runs ⟨true, limit⟩ (.attempt p >>= next) level c trace result) :
    ∃ tried m before after, ShellLine.Runs ⟨true, limit⟩ p level c before (tried, m) ∧
      ShellLine.Runs ⟨true, limit⟩ (next tried) level
        (if tried.isSome then m else { m with cursor := c.cursor }) after result ∧ trace = before ++ after := by
  rcases has_run_of_runs runs with ⟨tried, m, before, after, ran, later, rfl⟩ | ⟨m, ran, -⟩
  · obtain ⟨value, t, inner, same⟩ := has_run_of_runs ran
    obtain ⟨given, rfl⟩ := Prod.mk.inj same
    obtain rfl := Option.some.inj given
    exact ⟨tried, t, before, after, inner, later, rfl⟩
  · obtain ⟨_, _, -, same⟩ := has_run_of_runs ran
    cases same

theorem comes_atomic {level : Nat} {s : State} {c e : ShellLine.State} {value : Option α} (sent : Matches input s c)
    (inner : Comes input limit anywhere b level s c value e) :
    Comes input limit back (Program.atomic b) level s c value e := by
  cases value with
  | some a =>
      obtain ⟨trail, t, came, safe, after⟩ := inner
      exact ⟨_, t, runs_and_then (runs_attempt came) (runs_give a),
        safe_append (safe_cons (safe_saves sent) (safe_append safe safe_nil)) safe_nil, after⟩
  | none =>
      obtain ⟨trail, t, d, came, safe, -, after⟩ := inner
      have restored := after.moved sent.sound.cursor
      rw [← sent.pos] at restored
      exact ⟨_, _, c.cursor, runs_and_then (runs_attempt came) runs_miss,
        safe_append (safe_cons (safe_saves sent) (safe_append safe (safe_stands restored))) safe_nil,
        rfl, restored⟩

theorem refines_atomic (inner : Refines input limit bound anywhere here b p) :
    Refines input limit bound back here (Program.atomic b) (Parser.atomic p) := by
  intro level s c trace value e short sent stands runs
  obtain ⟨tried, m, before, after, ran, later, rfl⟩ := run_of_tried runs
  rw [List.length_append] at short
  have came := comes_atomic sent (inner level s c before tried m (by omega) sent stands ran)
  cases tried with
  | some a =>
      obtain ⟨-, same⟩ := has_run_of_runs later
      obtain ⟨rfl, rfl⟩ := Prod.mk.inj same
      exact came
  | none =>
      obtain ⟨-, same⟩ := has_run_of_runs later
      obtain ⟨rfl, rfl⟩ := Prod.mk.inj same
      exact came

-- What goes back to its start refines what the other side leaves where it fails.
theorem refines_restored (inner : Refines input limit bound anywhere here b p) :
    Refines input limit bound back here (Program.atomic b) p :=
  fun level s c trace value e short sent stands runs =>
    comes_atomic sent (inner level s c trace value e short sent stands runs)

theorem refines_or_else {b' : Program α} {p' : Parser α}
    (first : Refines input limit bound back here b p) (second : Refines input limit bound ends here b' p')
    (same : ∀ c m e d, m.cursor = c.cursor → ends m e d → ends c e d) :
    Refines input limit bound ends here (b <|> b') (p <|> p') := by
  intro level s c trace value e short sent stands runs
  obtain ⟨tried, m, before, after, ran, later, rfl⟩ := run_of_tried runs
  rw [List.length_append] at short
  have came := first level s c before tried m (by omega) sent stands ran
  cases tried with
  | some a =>
      obtain ⟨trail, t, came, safe, sentLater⟩ := came
      obtain ⟨-, given⟩ := has_run_of_runs later
      obtain ⟨rfl, rfl⟩ := Prod.mk.inj given
      exact ⟨_, t, runs_and_then (runs_maybe came) (runs_give a),
        safe_append (safe_append safe safe_nil) safe_nil, sentLater⟩
  | none =>
      obtain ⟨trail, t, d, came, safe, rfl, sentLater⟩ := came
      have tried := runs_maybe came
      have safeTried := safe_append safe (safe_stands sentLater)
      have others := second level t _ after value e (by omega) sentLater stands later
      cases value with
      | some a =>
          obtain ⟨trailLater, u, cameLater, safeLater, final⟩ := others
          exact ⟨_, u, runs_and_then tried cameLater, safe_append safeTried safeLater, final⟩
      | none =>
          obtain ⟨trailLater, u, d, cameLater, safeLater, left, final⟩ := others
          exact ⟨_, u, d, runs_and_then tried cameLater, safe_append safeTried safeLater, same c { m with cursor := c.cursor } e d rfl left, final⟩

theorem refines_either {b' : Program α} {p' : Parser α} (first : Refines input limit bound back here b p)
    (second : Refines input limit bound back here b' p') :
    Refines input limit bound back here (b <|> b') (p <|> p') :=
  refines_or_else first second fun _ _ _ _ same left => Eq.trans left same

theorem refines_tried {next : Option α → Program α} {p' : Parser α} (first : Refines input limit bound back here b p)
    (gives : ∀ value, next (some value) = pure value) (second : Refines input limit bound back here (next none) p') :
    Refines input limit bound back here (.maybe b >>= next) (p <|> p') := by
  have same : (.maybe b >>= next) = (b <|> next none) := by
    refine congrArg (Program.andThen (.maybe b)) (funext fun tried => ?_)
    cases tried with
    | some value => exact gives value
    | none => rfl
  rw [same]
  exact refines_either first second

theorem refines_optional (inner : Refines input limit bound back here b p) :
    Refines input limit bound never here (Program.optional b) (Parser.optional p) :=
  refines_bind (refines_maybe inner) (fun _ => refines_give ()) (fun _ _ _ => id) (fun _ _ _ _ => id)

theorem refines_nested (inner : Refines input limit bound ends here b p)
    (allowed : ∀ c : ShellLine.State, ends c { c with tooDeep := true } c.cursor) :
    Refines input limit bound ends here (.nested b) (.nested p) := by
  intro level s c trace value e short sent stands runs
  have ran := has_run_of_runs runs
  rw [Parser.HasRun] at ran
  by_cases full : limit ≠ 0 ∧ limit ≤ level
  · rw [if_pos full] at ran
    obtain ⟨rfl, rfl⟩ := Prod.mk.inj ran.2
    exact ⟨_, _, c.cursor, runs_refused full, safe_stands sent.tooDeep, allowed c, sent.tooDeep⟩
  · rw [if_neg full] at ran
    have came := inner (level + 1) s c trace value e short sent stands ran
    cases value with
    | some a =>
        obtain ⟨trail, t, came, safe, after⟩ := came
        exact ⟨trail, t, runs_nested full came, safe, after⟩
    | none =>
        obtain ⟨trail, t, d, came, safe, left, after⟩ := came
        exact ⟨trail, t, d, runs_nested full came, safe, left, after⟩

section Rounds

theorem trace_positive {mode : Mode} {level : Nat} {c : ShellLine.State} {trace : Trace}
    {result : Option α × ShellLine.State} (runs : ShellLine.Runs mode p level c trace result) : 0 < trace.length := by
  induction runs with
  | andThen _ _ ih | more _ _ ih => exact Nat.lt_of_lt_of_le ih (by simp)
  | cut _ ih | attempt _ ih | missed _ ih | nested _ _ ih | broken _ ih | stop _ ih | last _ ih => exact ih
  | _ => simp

theorem refines_rounds {turn : Program (Turn α)} {turns : Parser (Turn α)}
    (each : Refines input limit bound ends (fun _ => True) turn turns)
    (same : ∀ c m e d, ends m e d → ends c e d) :
    Refines input limit bound ends (fun _ => True) (.rounds turn) (.rounds turns) := by
  intro level s c trace
  induction length : trace.length using Nat.strongRecOn generalizing s c trace with
  | _ count ih =>
    intro value e short sent _ runs
    obtain ⟨next, m, before, ran, rest⟩ := has_run_of_runs runs
    match next with
    | none =>
        obtain ⟨rfl, given⟩ := rest
        obtain ⟨rfl, rfl⟩ := Prod.mk.inj given
        obtain ⟨trail, t, d, came, safe, left, after⟩ := each level s c _ _ _ (by omega) sent trivial ran
        exact ⟨trail, t, d, runs_turn came rfl, safe, left, after⟩
    | some .stop =>
        obtain ⟨rfl, given⟩ := rest
        obtain ⟨rfl, rfl⟩ := Prod.mk.inj given
        obtain ⟨trail, t, came, safe, after⟩ := each level s c _ _ _ (by omega) sent trivial ran
        exact ⟨trail, t, runs_turn came rfl, safe, after⟩
    | some (.last a) =>
        obtain ⟨rfl, given⟩ := rest
        obtain ⟨rfl, rfl⟩ := Prod.mk.inj given
        obtain ⟨trail, t, came, safe, after⟩ := each level s c _ _ _ (by omega) sent trivial ran
        exact ⟨trail, t, runs_turn came rfl, safe, after⟩
    | some (.more a) =>
        obtain ⟨others, values, u, later, rfl, given⟩ := rest
        obtain ⟨rfl, rfl⟩ := Prod.mk.inj given
        have first := trace_positive ran
        rw [List.length_append] at length
        obtain ⟨trail, t, came, safe, middle⟩ := each level s c _ _ _ (by omega) sent trivial ran
        have whole := ih others.length (by omega) t m others rfl values _ (by omega) middle trivial later
        cases values with
        | some values =>
            obtain ⟨trailLater, v, cameLater, safeLater, after⟩ := whole
            exact ⟨_, v, runs_more came cameLater, safe_append safe safeLater, after⟩
        | none =>
            obtain ⟨trailLater, v, d, cameLater, safeLater, left, after⟩ := whole
            exact ⟨_, v, d, runs_more came cameLater, safe_append safe safeLater, same c m _ d left, after⟩

theorem refines_many (item : Refines input limit bound back (fun _ => True) b p) :
    Refines input limit bound never (fun _ => True) (Program.many b) (Parser.many p) := by
  refine refines_rounds (refines_bind (refines_maybe item) (fun tried => ?_) (fun _ _ _ => id) fun _ _ _ _ => id)
    fun _ _ _ _ => id
  cases tried <;> exact refines_give _

theorem refines_attempts (item : Refines input limit bound anywhere (fun _ => True) b p) :
    Refines input limit bound never (fun _ => True) (Program.attempts b) (Parser.many p) :=
  refines_many (refines_restored item)

end Rounds

end Combinators

end ShellLine.Bytewise
