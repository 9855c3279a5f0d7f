import ShellLine.Proofs.Bytewise.Reaches

set_option autoImplicit false

namespace ShellLine.Bytewise

open Text Program

section Steps

variable {input : String} {limit bound : Nat} {ends : Ending} {here : List Char → Prop}
  {α β : Type} {b : Program α} {p : Parser α}

theorem comes_after (laterEnds : Ending) {next : α → Program β} {c d : Cursor} {a : α} {level : Nat} {s : State} {e g : ShellLine.State}
    {value : Option β} (reaches : Reaches input limit b c a d) (sent : Matches input s e) (from_ : e.cursor = c)
    (within : d.rest <:+ input.toList)
    (later : ∀ t, Matches input t { e with cursor := d } →
      Comes input limit laterEnds (next a) level t { e with cursor := d } value g)
    (missed : ∀ x, laterEnds { e with cursor := d } g x → ends e g x) :
    Comes input limit ends (b >>= next) level s e value g := by
  obtain ⟨trail, ran, safe⟩ := reaches level s e sent from_
  have came := later _ (sent.moved within)
  cases value with
  | some _ =>
      obtain ⟨trailLater, u, ranLater, safeLater, after⟩ := came
      exact ⟨_, u, runs_and_then ran ranLater, safe_append safe safeLater, after⟩
  | none =>
      obtain ⟨trailLater, u, x, ranLater, safeLater, left, after⟩ := came
      exact ⟨_, u, x, runs_and_then ran ranLater, safe_append safe safeLater, missed x left, after⟩

theorem comes_cut {next : α → Program β} {level : Nat} {s : State} {e g : ShellLine.State}
    (came : Comes input limit ends b level s e none g) : Comes input limit ends (b >>= next) level s e none g := by
  obtain ⟨trail, t, x, ran, safe, left, after⟩ := came
  exact ⟨trail, t, x, runs_cut ran, safe, left, after⟩

theorem run_of_look {following : List Char → Parser α} {level : Nat} {c : ShellLine.State} {trace : Trace}
    {result : Option α × ShellLine.State}
    (runs : ShellLine.Runs ⟨true, limit⟩ (Parser.look >>= following) level c trace result) :
    ∃ after, after.length ≤ trace.length ∧ ShellLine.Runs ⟨true, limit⟩ (following c.cursor.rest) level c after result := by
  rcases has_run_of_runs runs with ⟨ahead, m, before, after, ran, later, rfl⟩ | ⟨m, ran, -⟩
  · obtain ⟨rfl, same⟩ := has_run_of_runs ran
    cases same
    exact ⟨after, by simp, later⟩
  · cases (has_run_of_runs ran).2

theorem refines_looked {following : List Char → Parser α}
    (each : ∀ ahead, here ahead → Refines input limit bound ends (· = ahead) b (following ahead)) :
    Refines input limit bound ends here b (Parser.look >>= following) := by
  intro level s c trace value e short sent stands runs
  obtain ⟨after, shorter, later⟩ := run_of_look runs
  exact each _ stands level s c after value e (Nat.le_trans shorter short) sent rfl later

theorem refines_look {look : Program β} {next : β → Program α} {following : List Char → Parser α} (view : List Char → β)
    (sees : ∀ c : Cursor, c.rest <:+ input.toList → here c.rest → Reaches input limit look c (view c.rest) c)
    (each : ∀ ahead, here ahead → Refines input limit bound ends (· = ahead) (next (view ahead)) (following ahead)) :
    Refines input limit bound ends here (look >>= next) (Parser.look >>= following) := by
  refine refines_looked fun ahead stands level s c trace value e short sent same runs => ?_
  subst same
  exact comes_after _ (sees c.cursor sent.sound.cursor stands) sent rfl sent.sound.cursor
    (fun t sentLater => each _ stands level t c trace value e short sentLater rfl runs) fun _ => id

theorem refines_peeked {look : Program β} {next : β → Program α} {seen : β}
    (sees : ∀ c : Cursor, c.rest <:+ input.toList → here c.rest → Reaches input limit look c seen c)
    (later : Refines input limit bound ends here (next seen) p) :
    Refines input limit bound ends here (look >>= next) p := by
  intro level s c trace value e short sent stands runs
  exact comes_after _ (sees c.cursor sent.sound.cursor stands) sent rfl sent.sound.cursor
    (fun t sentLater => later level t c trace value e short sentLater stands runs) fun _ => id

theorem refines_peek {next : Option Char → Program α} {following : List Char → Parser α}
    (each : ∀ ahead, here ahead → Refines input limit bound ends (· = ahead) (next (lead ahead)) (following ahead)) :
    Refines input limit bound ends here (peek >>= next) (Parser.look >>= following) :=
  refines_look lead (fun _ _ _ => reaches_peek) each

theorem refines_rest {next : List Char → Program α} {following : List Char → Parser α}
    (each : ∀ ahead, here ahead → Refines input limit bound ends (· = ahead) (next ahead) (following ahead)) :
    Refines input limit bound ends here (rest >>= next) (Parser.look >>= following) :=
  refines_look id (fun _ _ _ => reaches_rest) each

theorem refines_over {b : Program Unit} {count : Nat}
    (each : ∀ c : Cursor, c.rest <:+ input.toList → here c.rest → Reaches input limit b c () (c.advance count)) :
    Refines input limit bound never here b (.skip count) := by
  intro level s c trace value e short sent stands runs
  obtain ⟨-, same⟩ := has_run_of_runs runs
  obtain ⟨rfl, rfl⟩ := Prod.mk.inj same
  obtain ⟨trail, ran, safe⟩ := each c.cursor sent.sound.cursor stands level s c sent rfl
  exact ⟨trail, _, ran, safe, sent.moved ((c.cursor.advance_suffix count).trans sent.sound.cursor)⟩

theorem refines_skip (front more : List Char) :
    Refines input limit bound never (· = front ++ more) (advance (byteLength front)) (.skip front.length) :=
  refines_over fun c within here =>
    reaches_advance within (by rw [Cursor.rest_advance, here, List.drop_left])

theorem refines_expected (e : Expected) : Refines input limit bound never here (fail e) (.expected e) := by
  intro level s c trace value d short sent stands runs
  obtain ⟨-, same⟩ := has_run_of_runs runs
  obtain ⟨rfl, rfl⟩ := Prod.mk.inj same
  exact ⟨_, _, runs_act _, safe_stands (sent.noted e), sent.noted e⟩

theorem comes_refuse {level : Nat} {s : State} {c : ShellLine.State} (sent : Matches input s c) (e : Expected) :
    Comes input limit back (refuse e : Program α) level s c none (c.note e) :=
  ⟨_, _, c.cursor, runs_and_then (runs_act _) runs_miss, safe_append (safe_stands (sent.noted e)) safe_nil, rfl,
    sent.noted e⟩

theorem refines_refused {e : Expected} (each : ∀ level s c, Matches input s c → here c.cursor.rest →
    Comes input limit back b level s c none (c.note e)) :
    Refines input limit bound back here b (Parser.refuse e) := by
  intro level s c trace value d short sent stands runs
  rcases has_run_of_runs runs with ⟨_, m, before, after, ran, later, rfl⟩ | ⟨m, ran, -⟩
  · cases (has_run_of_runs ran).2
    cases (has_run_of_runs later).2
    exact each level s c sent stands
  · cases (has_run_of_runs ran).2

theorem refines_refuse (e : Expected) :
    Refines input limit bound back here (refuse e : Program α) (Parser.refuse e) :=
  refines_refused fun _ _ _ sent _ => comes_refuse sent e

end Steps

section Plain

variable {input : String} {limit bound : Nat} {ends : Ending} {here : List Char → Prop} {α : Type} {b : Program α}
  {p : Parser α}

def noCalls (_ : Rule) (_ : Nat) (s : ShellLine.State) : Option Node × ShellLine.State := (none, s)

theorem run_of_plain {level : Nat} {c : ShellLine.State} {trace : Trace} {result : Option α × ShellLine.State}
    (plain : p.IsPlain) (sound : c.Sound input.toList) (runs : ShellLine.Runs ⟨true, limit⟩ p level c trace result) :
    result = p.run noCalls limit level c := by
  have none : ∀ rule level (t : ShellLine.State), t.Sound input.toList → rule.height t.cursor < 0 →
      ∃ trace, ShellLine.Runs ⟨true, limit⟩ (.call rule) level t trace (noCalls rule level t) :=
    fun _ _ _ _ impossible => absurd impossible (Nat.not_lt_zero _)
  obtain ⟨_, ran⟩ := parser_runs p none level c sound (Parser.calls_lower_of_plain plain _)
    (Parser.progresses_of_plain plain)
  exact (ShellLine.runs_unique runs ran).2

theorem refines_of_plain (plain : p.IsPlain)
    (each : ∀ level s c, Matches input s c → here c.cursor.rest →
      Comes input limit ends b level s c (p.run noCalls limit level c).1 (p.run noCalls limit level c).2) :
    Refines input limit bound ends here b p := by
  intro level s c trace value e short sent stands runs
  have same := run_of_plain plain sent.sound runs
  have came := each level s c sent stands
  rw [← same] at came
  exact came

theorem comes_of_reaches {level : Nat} {s : State} {c : ShellLine.State} {a : α} {d : Cursor}
    (reaches : Reaches input limit b c.cursor a d) (sent : Matches input s c) (within : d.rest <:+ input.toList) :
    Comes input limit ends b level s c (some a) { c with cursor := d } := by
  obtain ⟨trail, ran, safe⟩ := reaches level s c sent rfl
  exact ⟨trail, _, ran, safe, sent.moved within⟩

theorem refines_of_moves (place : Cursor → Cursor) (value : List Char → α) (plain : p.IsPlain)
    (moves : ∀ level c, here c.cursor.rest →
      p.run noCalls limit level c = (some (value c.cursor.rest), { c with cursor := place c.cursor }))
    (each : ∀ c : Cursor, c.rest <:+ input.toList → here c.rest →
      Reaches input limit b c (value c.rest) (place c) ∧ (place c).rest <:+ c.rest) :
    Refines input limit bound ends here b p := by
  refine refines_of_plain plain fun level s c sent stands => ?_
  obtain ⟨reaches, forward⟩ := each c.cursor sent.sound.cursor stands
  rw [moves level c stands]
  exact comes_of_reaches reaches sent (forward.trans sent.sound.cursor)

theorem take_while_run (accepts : Char → Bool) (level : Nat) (c : ShellLine.State) :
    (Parser.takeWhile accepts).run noCalls limit level c =
      (some (c.cursor.rest.takeWhile accepts),
        { c with cursor := c.cursor.advance (c.cursor.rest.takeWhile accepts).length }) := by
  have told : (Parser.takeWhile accepts).run noCalls limit level c =
      (some (c.cursor.rest.take (c.cursor.rest.takeWhile accepts).length),
        { c with cursor := c.cursor.advance (c.cursor.rest.takeWhile accepts).length }) := rfl
  rw [told, ← List.prefix_iff_eq_take.mp (List.takeWhile_prefix accepts)]

theorem refines_take_while {b : Program (List Char)} {accepts : Char → Bool}
    (each : ∀ c : Cursor, c.rest <:+ input.toList → here c.rest →
      Reaches input limit b c (c.rest.takeWhile accepts) (c.advance (c.rest.takeWhile accepts).length)) :
    Refines input limit bound ends here b (Parser.takeWhile accepts) :=
  refines_of_moves _ _ (Parser.plain_take_while accepts) (fun level c _ => take_while_run accepts level c)
    fun c within stands => ⟨each c within stands, c.advance_suffix _⟩

theorem run_behind_taken {accepts : Char → Bool} {following : List Char → Parser α} {level : Nat}
    {c : ShellLine.State} {trace : Trace} {result : Option α × ShellLine.State} (sound : c.Sound input.toList)
    (runs : ShellLine.Runs ⟨true, limit⟩ (Parser.takeWhile accepts >>= following) level c trace result) :
    ∃ after, after.length ≤ trace.length ∧
      ShellLine.Runs ⟨true, limit⟩ (following (c.cursor.rest.takeWhile accepts)) level
        { c with cursor := c.cursor.advance (c.cursor.rest.takeWhile accepts).length } after result := by
  rcases has_run_of_runs runs with ⟨chars, m, before, after, ran, later, rfl⟩ | ⟨m, ran, -⟩
  · have same := run_of_plain (Parser.plain_take_while accepts) sound ran
    rw [take_while_run] at same
    obtain ⟨taken, rfl⟩ := Prod.mk.inj same
    obtain rfl := Option.some.inj taken
    exact ⟨after, by simp, later⟩
  · have same := run_of_plain (Parser.plain_take_while accepts) sound ran
    rw [take_while_run] at same
    cases same

end Plain

end ShellLine.Bytewise
