import ShellLine.Proofs.Running.Runs

set_option autoImplicit false

namespace ShellLine

def State.recording (s : State) (failure : Failure) : State := { s with failure := failure }

-- The notes that a run takes, each where the run stands at some moment. Whatever the record is that
-- the run starts with, it goes on in the same way and ends with these notes in the record.
structure TakesNotes (mode : Mode) {α : Type} (p : Parser α) (level : Nat) (s : State) (trace : Trace)
    (result : Option α × State) (notes : List Note) : Prop where
  placed : ∀ n ∈ notes, ∃ t ∈ trace.states, t.cursor = n.1
  failure : result.2.failure = s.failure.absorb notes
  alike : ∀ failure, ∃ other, Runs mode p level (s.recording failure) other
    (result.1, result.2.recording (failure.absorb notes))

section Notes

variable {mode : Mode} {α β : Type} {level : Nat} {s t : State} {trace later : Trace} {notes more : List Note}

theorem replay_recording (entry : Entry) (failure : Failure) :
    replay entry (s.recording failure) = ((replay entry s).1, (replay entry s).2.recording failure) := by
  cases entry <;> rfl

theorem record_recording (rule : Rule) (before : Cursor) (value : Option Node) (failure : Failure) :
    mode.record rule before value (t.recording failure) =
      ((mode.record rule before value t).1, (mode.record rule before value t).2.recording failure) := by
  simp only [Mode.record]
  cases value <;> split <;> rfl

theorem takes_no_notes {p : Parser α} {value : Option α} (unnoted : t.failure = s.failure)
    (steps : ∀ failure, ∃ other, Runs mode p level (s.recording failure) other (value, t.recording failure)) :
    TakesNotes mode p level s trace (value, t) [] where
  placed := List.forall_mem_nil _
  failure := unnoted
  alike := steps

theorem takes_notes_around {p : Parser α} {q : Parser β} {inner : Nat} {value : Option α} {final : Option β}
    {u : State} (taken : TakesNotes mode p inner s trace (value, t) notes) (same : u.failure = t.failure)
    (around : ∀ {failure failureThen : Failure} {other : Trace},
      Runs mode p inner (s.recording failure) other (value, t.recording failureThen) →
        Runs mode q level (s.recording failure) other (final, u.recording failureThen)) :
    TakesNotes mode q level s trace (final, u) notes where
  placed := taken.placed
  failure := same.trans taken.failure
  alike failure := (taken.alike failure).imp fun _ => around

theorem takes_notes_in_turn {p : Parser α} {q : Parser β} {value : Option α} {result : Option β × State}
    (first : TakesNotes mode p level s trace (value, t) notes) (second : TakesNotes mode q level t later result more)
    {r : Parser β} {final : Option β}
    (joins : ∀ {s t u : State} {trace later : Trace}, Runs mode p level s trace (value, t) →
      Runs mode q level t later (result.1, u) → Runs mode r level s (trace ++ later) (final, u)) :
    TakesNotes mode r level s (trace ++ later) (final, result.2) (notes ++ more) where
  placed n member := by
    rw [Trace.states_append]
    rcases List.mem_append.mp member with early | late
    · exact (first.placed n early).imp fun u among => ⟨List.mem_append_left _ among.1, among.2⟩
    · exact (second.placed n late).imp fun u among => ⟨List.mem_append_right _ among.1, among.2⟩
  failure := by rw [Failure.absorb_append, ← first.failure, second.failure]
  alike failure := by
    obtain ⟨other, runs⟩ := first.alike failure
    obtain ⟨others, runsThen⟩ := second.alike (failure.absorb notes)
    rw [Failure.absorb_append]
    exact ⟨other ++ others, joins runs runsThen⟩

end Notes

theorem runs_take_notes {mode : Mode} {α : Type} {p : Parser α} {level : Nat} {s : State} {trace : Trace}
    {result : Option α × State} (runs : Runs mode p level s trace result) :
    ∃ notes, TakesNotes mode p level s trace result notes := by
  induction runs with
  | succeed value level s => exact ⟨[], takes_no_notes rfl fun failure => ⟨_, .succeed value level _⟩⟩
  | fail level s => exact ⟨[], takes_no_notes rfl fun failure => ⟨_, .fail level _⟩⟩
  | look level s => exact ⟨[], takes_no_notes rfl fun failure => ⟨_, .look level _⟩⟩
  | place level s => exact ⟨[], takes_no_notes rfl fun failure => ⟨_, .place level _⟩⟩
  | skip count level s => exact ⟨[], takes_no_notes rfl fun failure => ⟨_, .skip count level _⟩⟩
  | refused full => exact ⟨[], takes_no_notes rfl fun failure => ⟨_, .refused full⟩⟩
  | @replayed _ _ _ entry kept =>
      refine ⟨[], List.forall_mem_nil _, by cases entry <;> rfl, fun failure => ?_⟩
      rw [← replay_recording]
      exact ⟨_, .replayed kept⟩
  | expected e level s =>
      refine ⟨[(s.cursor, e)], ⟨List.forall_mem_singleton.mpr ⟨s, List.mem_cons_self, rfl⟩, rfl, fun failure => ?_⟩⟩
      exact ⟨_, .expected e level _⟩
  | andThen _ _ first later =>
      obtain ⟨notes, first⟩ := first
      obtain ⟨more, second⟩ := later
      exact ⟨notes ++ more, takes_notes_in_turn first second .andThen⟩
  | more _ _ first later =>
      obtain ⟨notes, first⟩ := first
      obtain ⟨more, second⟩ := later
      exact ⟨notes ++ more, takes_notes_in_turn first second .more⟩
  | cut _ ih => exact ih.imp fun _ taken => takes_notes_around taken rfl .cut
  | attempt _ ih => exact ih.imp fun _ taken => takes_notes_around taken rfl .attempt
  | missed _ ih =>
      obtain ⟨notes, taken⟩ := ih
      exact ⟨notes, takes_notes_around taken rfl .missed⟩
  | nested room _ ih => exact ih.imp fun _ taken => takes_notes_around taken rfl (.nested room)
  | broken _ ih => exact ih.imp fun _ taken => takes_notes_around taken rfl .broken
  | stop _ ih => exact ih.imp fun _ taken => takes_notes_around taken rfl .stop
  | last _ ih => exact ih.imp fun _ taken => takes_notes_around taken rfl .last
  | @called rule _ s t _ trace missing _ ih =>
      obtain ⟨notes, taken⟩ := ih
      refine ⟨notes, fun n member => ?_, (record_failure ..).trans taken.failure, fun failure => ?_⟩
      · obtain ⟨u, among, here⟩ := taken.placed n member
        refine ⟨u, ?_, here⟩
        rw [Trace.states_append]
        exact List.mem_append_left _ (List.mem_cons_of_mem _ among)
      · obtain ⟨other, runs⟩ := taken.alike failure
        rw [← record_recording]
        exact ⟨_, .called missing runs⟩

end ShellLine
