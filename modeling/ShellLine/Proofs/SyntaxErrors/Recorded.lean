import ShellLine.Proofs.Running.Runs

set_option autoImplicit false

namespace ShellLine

-- In a run an expectation is recorded at a place, told by the bytes behind it: a step notes it there
-- and the record is no longer what it was.
def Trace.Records (trace : Trace) (left : Nat) (e : Expected) : Prop :=
  ∃ s : State, .steps s (s.note e) ∈ trace ∧ s.note e ≠ s ∧ s.cursor.left = left

-- The record before and after a run, and what the run recorded in between.
structure Trace.Accounts (trace : Trace) (a b : Failure) : Prop where
  left : b.cursor.left ≤ a.cursor.left
  rightmost : ∀ left e, trace.Records left e → b.cursor.left ≤ left
  expected : ∀ e, e ∈ b.expected ↔
    trace.Records b.cursor.left e ∨ b.cursor.left = a.cursor.left ∧ e ∈ a.expected
  nonempty : b.cursor.left < a.cursor.left → b.expected ≠ []

namespace State

variable {s : State} {e f : Expected}

theorem note_of_left (behind : s.failure.cursor.left < s.cursor.left) : s.note e = s := by
  rw [note, Failure.note, if_pos behind]

theorem failure_of_note_ne (changed : s.note e ≠ s) : (s.note e).failure ≠ s.failure := by
  rintro same
  refine changed ?_
  change ({ s with failure := (s.note e).failure } : State) = s
  rw [same]

theorem note_of_not_left (reached : ¬ s.failure.cursor.left < s.cursor.left) :
    (s.note e).failure.cursor.left = s.cursor.left ∧
      (s.note e).failure.expected =
        e :: if s.cursor.left = s.failure.cursor.left then s.failure.expected else [] := by
  change (s.failure.note s.cursor e).cursor.left = _ ∧ (s.failure.note s.cursor e).expected = _
  rw [Failure.note, if_neg reached]
  by_cases further : s.cursor.left < s.failure.cursor.left
  · rw [if_pos further, if_neg (Nat.ne_of_lt further)]
    exact ⟨rfl, rfl⟩
  · have same : s.cursor.left = s.failure.cursor.left := by omega
    rw [if_neg further, if_pos same]
    exact ⟨same.symm, rfl⟩

theorem note_left_le (s : State) (e : Expected) : (s.note e).failure.cursor.left ≤ s.cursor.left :=
  s.failure.note_left_le s.cursor e

theorem note_ne_iff : s.note e ≠ s ↔ ¬ s.failure.cursor.left < s.cursor.left := by
  refine ⟨fun changed behind => changed (note_of_left behind), fun reached same => ?_⟩
  obtain ⟨place, expected⟩ := note_of_not_left (e := e) reached
  rw [same] at place expected
  rw [if_pos place.symm] at expected
  exact absurd (congrArg List.length expected) (by simp)

theorem note_injective (reached : ¬ s.failure.cursor.left < s.cursor.left) (same : s.note e = s.note f) :
    e = f := by
  have heads := (note_of_not_left (e := e) reached).2
  rw [same, (note_of_not_left reached).2] at heads
  exact (List.cons.inj heads).1.symm

end State

namespace Trace

variable {trace later : Trace} {a b c : Failure} {s t : State}

theorem records_append (left : Nat) (e : Expected) :
    (trace ++ later : Trace).Records left e ↔ trace.Records left e ∨ later.Records left e := by
  simp only [Records, List.mem_append, or_and_right, exists_or]

theorem not_records_unnoted (same : t.failure = s.failure) (left : Nat) (e : Expected) :
    ¬ Records [.steps s t] left e := by
  rintro ⟨u, member, changed, -⟩
  obtain ⟨rfl, noted⟩ := Moment.steps.inj (List.mem_singleton.mp member)
  exact State.failure_of_note_ne changed (noted ▸ same)

theorem records_note (left : Nat) (e f : Expected) : Records [.steps s (s.note e)] left f ↔
    ¬ s.failure.cursor.left < s.cursor.left ∧ s.cursor.left = left ∧ f = e := by
  constructor
  · rintro ⟨u, member, changed, rfl⟩
    obtain ⟨rfl, noted⟩ := Moment.steps.inj (List.mem_singleton.mp member)
    have reached := State.note_ne_iff.mp changed
    exact ⟨reached, rfl, (State.note_injective reached noted.symm).symm⟩
  · rintro ⟨reached, rfl, rfl⟩
    exact ⟨s, List.mem_singleton.mpr rfl, State.note_ne_iff.mpr reached, rfl⟩

theorem records_called (rule : Rule) (place : Cursor) (left : Nat) (e : Expected) :
    Records (.tries rule s :: trace ++ [.keeps rule place t]) left e ↔ trace.Records left e := by
  simp [Records]

theorem accounts_unnoted (same : t.failure = s.failure) :
    Accounts [.steps s t] s.failure t.failure where
  left := Nat.le_of_eq (by rw [same])
  rightmost left e recorded := absurd recorded (not_records_unnoted same left e)
  expected e := by
    rw [same]
    simp [not_records_unnoted same]
  nonempty lower := by
    rw [same] at lower
    exact absurd lower (Nat.lt_irrefl _)

theorem accounts_note (e : Expected) : Accounts [.steps s (s.note e)] s.failure (s.note e).failure := by
  by_cases behind : s.failure.cursor.left < s.cursor.left
  · exact accounts_unnoted (congrArg State.failure (State.note_of_left behind))
  · obtain ⟨place, expected⟩ := State.note_of_not_left (e := e) behind
    refine ⟨place ▸ Nat.le_of_not_lt behind, fun left f recorded => ?_, fun f => ?_, fun _ => ?_⟩
    · exact Nat.le_of_eq (place.trans ((records_note left e f).mp recorded).2.1)
    · rw [records_note, expected, place, List.mem_cons]
      by_cases stays : s.cursor.left = s.failure.cursor.left <;> simp [stays, behind]
    · rw [expected]
      exact List.cons_ne_nil _ _

theorem accounts_append (first : trace.Accounts a b) (second : later.Accounts b c) :
    (trace ++ later : Trace).Accounts a c := by
  have lower := first.left
  have lowest := second.left
  refine ⟨Nat.le_trans lowest lower, fun left e recorded => ?_, fun e => ?_, fun moved => ?_⟩
  · rcases (records_append left e).mp recorded with early | late
    · exact Nat.le_trans lowest (first.rightmost left e early)
    · exact second.rightmost left e late
  · rw [second.expected, first.expected, records_append]
    constructor
    · rintro (late | ⟨stays, early | ⟨stayed, old⟩⟩)
      · exact Or.inl (Or.inr late)
      · exact Or.inl (Or.inl (stays ▸ early))
      · exact Or.inr ⟨stays.trans stayed, old⟩
    · rintro ((early | late) | ⟨stays, old⟩)
      · have reached := first.rightmost _ _ early
        have stays : c.cursor.left = b.cursor.left := by omega
        exact Or.inr ⟨stays, Or.inl (stays ▸ early)⟩
      · exact Or.inl late
      · exact Or.inr ⟨by omega, Or.inr ⟨by omega, old⟩⟩
  · by_cases further : c.cursor.left < b.cursor.left
    · exact second.nonempty further
    · have stays : c.cursor.left = b.cursor.left := by omega
      obtain ⟨e, member⟩ := List.exists_mem_of_ne_nil _ (first.nonempty (stays ▸ moved))
      exact List.ne_nil_of_mem ((second.expected e).mpr (Or.inr ⟨stays, member⟩))

theorem accounts_called (accounts : trace.Accounts a b) (rule : Rule) (s : State) (place : Cursor) (t : State) :
    Accounts (.tries rule s :: trace ++ [.keeps rule place t]) a b where
  left := accounts.left
  rightmost left e recorded := accounts.rightmost left e ((records_called ..).mp recorded)
  expected e := by
    rw [records_called]
    exact accounts.expected e
  nonempty := accounts.nonempty

end Trace

theorem runs_account {mode : Mode} {α : Type} {p : Parser α} {level : Nat} {s : State} {trace : Trace}
    {result : Option α × State} (runs : Runs mode p level s trace result) :
    trace.Accounts s.failure result.2.failure := by
  induction runs with
  | succeed | fail | look | place | skip | refused => exact Trace.accounts_unnoted rfl
  | expected e => exact Trace.accounts_note e
  | andThen _ _ first later | more _ _ first later => exact Trace.accounts_append first later
  | cut _ ih | attempt _ ih | missed _ ih | nested _ _ ih | broken _ ih | stop _ ih | last _ ih => exact ih
  | @replayed _ _ _ entry _ =>
      refine Trace.accounts_unnoted ?_
      cases entry <;> rfl
  | called _ _ ih =>
      rw [record_failure]
      exact Trace.accounts_called ih ..

end ShellLine
