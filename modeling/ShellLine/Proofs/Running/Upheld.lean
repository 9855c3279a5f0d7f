import ShellLine.Proofs.Reading.MayEnd
import ShellLine.Proofs.Running.Runs

set_option autoImplicit false

namespace ShellLine

def Replies.Closed (replies : Replies) : Prop :=
  ∀ rule c node d, (grammar rule).MayEnd replies c (some (node, d)) → replies rule c node d

-- What is kept for a rule at a place of the text is among its replies.
def State.Upholds (text : List Char) (replies : Replies) (s : State) : Prop :=
  ∀ rule c node d, c.rest <:+ text → s.table[rule.height c]? = some (some (node, d)) → replies rule c node d

section

variable {text : List Char} {replies : Replies} {mode : Mode}

theorem fresh_upholds {s : State} (fresh : s.table = ∅) : s.Upholds text replies := by
  intro rule c node d _ found
  simp [fresh] at found

theorem upholds_of_table {s t : State} (upholds : s.Upholds text replies) (same : t.table = s.table) :
    t.Upholds text replies := by
  intro rule c node d within found
  exact upholds rule c node d within (same ▸ found)

theorem replies_of_kept {rule : Rule} {s : State} {node : Node} {d : Cursor} (within : s.cursor.rest <:+ text)
    (upholds : s.Upholds text replies) (kept : mode.kept? rule s = some (some (node, d))) :
    replies rule s.cursor node d := by
  obtain ⟨-, -, found⟩ := kept_in_table kept
  exact upholds rule s.cursor node d within found

theorem upholds_record {rule : Rule} {s t : State} {value : Option Node} (within : s.cursor.rest <:+ text)
    (upholds : t.Upholds text replies)
    (given : ∀ node, value = some node → replies rule s.cursor node t.cursor) :
    (mode.record rule s.cursor value t).2.Upholds text replies := by
  intro other c node d withinOther found
  rcases recorded_or_before found with ⟨-, height, told⟩ | before
  · obtain ⟨rfl, rfl⟩ := height_injective within withinOther height
    obtain ⟨kept, some, same⟩ := Option.map_eq_some_iff.mp told.symm
    obtain ⟨rfl, rfl⟩ := Prod.mk.inj same
    exact given kept some
  · exact upholds other c node d withinOther before

theorem runs_uphold (closed : replies.Closed) {α : Type} {p : Parser α} {level : Nat} {s : State}
    {trace : Trace} {result : Option α × State} (runs : Runs mode p level s trace result)
    (sound : s.Sound text) (upholds : s.Upholds text replies) :
    (∀ t ∈ trace.states, t.Upholds text replies) ∧ result.2.Upholds text replies ∧
      p.MayEnd replies s.cursor (result.1.map (·, result.2.cursor)) := by
  induction runs with
  | succeed | fail | look | place => exact ⟨Trace.forall_step upholds upholds, upholds, rfl⟩
  | expected e level s =>
      have noted : (s.note e).Upholds text replies := upholds_of_table upholds rfl
      exact ⟨Trace.forall_step upholds noted, noted, rfl⟩
  | skip count level s =>
      have moved : State.Upholds text replies { s with cursor := s.cursor.advance count } :=
        upholds_of_table upholds rfl
      exact ⟨Trace.forall_step upholds moved, moved, rfl⟩
  | andThen first _ firstUpholds laterUpholds =>
      obtain ⟨states, middle, ends⟩ := firstUpholds sound upholds
      obtain ⟨laterStates, last, laterEnds⟩ := laterUpholds (runs_sound first sound).2.1 middle
      exact ⟨Trace.forall_append states laterStates, last, Or.inr ⟨_, _, ends, laterEnds⟩⟩
  | cut _ ih =>
      obtain ⟨states, last, ends⟩ := ih sound upholds
      exact ⟨states, last, Or.inl ⟨ends, rfl⟩⟩
  | attempt _ ih =>
      obtain ⟨states, last, ends⟩ := ih sound upholds
      exact ⟨states, last, Or.inl ⟨_, _, ends, rfl⟩⟩
  | missed _ ih =>
      obtain ⟨states, last, ends⟩ := ih sound upholds
      exact ⟨states, upholds_of_table last rfl, Or.inr ⟨ends, rfl⟩⟩
  | @refused _ _ _ s full =>
      have deep : State.Upholds text replies { s with tooDeep := true } := upholds_of_table upholds rfl
      exact ⟨Trace.forall_step upholds deep, deep, Or.inl rfl⟩
  | nested _ _ ih =>
      obtain ⟨states, last, ends⟩ := ih sound upholds
      exact ⟨states, last, Or.inr ends⟩
  | broken _ ih =>
      obtain ⟨states, last, -⟩ := ih sound upholds
      exact ⟨states, last, fun _ _ impossible => by cases impossible⟩
  | stop _ ih =>
      obtain ⟨states, last, ends⟩ := ih sound upholds
      refine ⟨states, last, fun values d same => ?_⟩
      cases same
      exact .stop ends
  | last _ ih =>
      obtain ⟨states, last, ends⟩ := ih sound upholds
      refine ⟨states, last, fun values d same => ?_⟩
      cases same
      exact .last ends
  | more turn _ turnUpholds laterUpholds =>
      obtain ⟨states, middle, ends⟩ := turnUpholds sound upholds
      obtain ⟨laterStates, last, laterEnds⟩ := laterUpholds (runs_sound turn sound).2.1 middle
      refine ⟨Trace.forall_append states laterStates, last, fun values d same => ?_⟩
      obtain ⟨others, whole, place⟩ := Option.map_eq_some_iff.mp same
      cases place
      obtain ⟨rest, found, rfl⟩ := Option.map_eq_some_iff.mp whole
      exact .more ends (laterEnds rest _ (by rw [found]; rfl))
  | @replayed rule _ s entry kept =>
      cases entry with
      | none => exact ⟨Trace.forall_step upholds upholds, upholds, fun _ _ impossible => by cases impossible⟩
      | some pair =>
          have moved : (replay (some pair) s).2.Upholds text replies := upholds_of_table upholds rfl
          refine ⟨Trace.forall_step upholds moved, moved, fun node d same => ?_⟩
          cases same
          exact replies_of_kept sound.cursor upholds kept
  | @called rule _ s t value trace missing body ih =>
      obtain ⟨states, last, ends⟩ := ih sound upholds
      have known : ∀ node, value = some node → replies rule s.cursor node t.cursor := by
        rintro node rfl
        exact closed rule s.cursor node t.cursor ends
      have after : (mode.record rule s.cursor value t).2.Upholds text replies :=
        upholds_record sound.cursor last known
      refine ⟨Trace.forall_called upholds states last, after, fun node d same => ?_⟩
      rw [record_value] at same
      obtain ⟨found, rfl, place⟩ := Option.map_eq_some_iff.mp same
      rw [record_cursor] at place
      cases place
      exact known node rfl

end

end ShellLine
