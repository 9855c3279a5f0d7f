import ShellLine.Proofs.Bytewise.Calls
import ShellLine.Proofs.Nesting.Stacks

set_option autoImplicit false

namespace ShellLine.Bytewise

open Text

def OnBoundary (input : String) (offset : Nat) : Prop :=
  offset ≤ input.utf8ByteSize ∧ (⟨offset⟩ : String.Pos.Raw).IsValid input

-- The offsets that a state holds: where it stands, where something was missing, and of what was kept
-- where that starts and ends and the here-documents it opens, which are marked by the number of bytes
-- behind them.
inductive State.Holds (input : String) (s : State) : Nat → Prop
  | pos : s.Holds input s.pos
  | failPos : s.Holds input s.failPos
  | start {rule : Rule} {start : Nat} {entry : Option (Node × Nat)} (kept : ((rule, start), entry) ∈ s.memo) :
      s.Holds input start
  | stop {key : Rule × Nat} {node : Node} {stop : Nat} (kept : (key, some (node, stop)) ∈ s.memo) :
      s.Holds input stop
  | mark {key : Rule × Nat} {node inner : Node} {stop mark : Nat} (kept : (key, some (node, stop)) ∈ s.memo)
      (below : inner ∈ node.descendants) (marked : inner.mark = some mark) : s.Holds input (input.utf8ByteSize - mark)

-- Only a scan may stand inside a character, behind where it started and in front of the end. All else that
-- is held is then where it was at the start.
def Moment.OnBoundaries (input : String) : Moment → Prop
  | stands s => ∀ offset, s.Holds input offset → OnBoundary input offset
  | scans start s => start ≤ s.pos ∧ s.pos < input.utf8ByteSize ∧
      ∀ offset, State.Holds input { s with pos := start } offset → OnBoundary input offset
  | saves pos => OnBoundary input pos
  | slices start stop => OnBoundary input start ∧ OnBoundary input stop ∧ start ≤ stop

section Boundaries

variable {input : String} {s : State} {c : ShellLine.State}

theorem on_boundary_of_place {d : Cursor} (within : d.rest <:+ input.toList) : OnBoundary input (offsetOf input d.left) := by
  refine ⟨?_, (boundary_of_place within).2⟩
  rw [size_in_bytes]
  exact Nat.sub_le ..

theorem on_boundary_of_marked {node : Node} {mark : Nat} (marked : node.Marked (OpensHereDocument input.toList))
    (same : node.mark = some mark) : OnBoundary input (input.utf8ByteSize - mark) := by
  rw [Node.Marked] at marked
  split at marked
  · obtain ⟨other, told, d, within, rfl, -⟩ := marked
    obtain rfl : d.left = mark := Option.some.inj (told.symm.trans same)
    rw [size_in_bytes]
    exact on_boundary_of_place within
  · rw [same] at marked
    cases marked

theorem marks_on_boundaries {rule : Rule} {d e : Cursor} {node : Node} (within : d.rest <:+ input.toList)
    (known : attained none rule d node e) :
    ∀ inner ∈ node.descendants, ∀ mark, inner.mark = some mark → OnBoundary input (input.utf8ByteSize - mark) :=
  fun inner below _ => on_boundary_of_marked
    (stacks_marked (attained_stacks input.toList none rule d node e within known) inner below)

theorem held_on_boundary (sent : Matches input s c) {offset : Nat} (held : s.Holds input offset) : OnBoundary input offset := by
  cases held with
  | pos => exact sent.pos ▸ on_boundary_of_place sent.sound.cursor
  | failPos => exact sent.failPos ▸ on_boundary_of_place sent.sound.failure
  | start kept =>
      obtain ⟨d, within, rfl, -⟩ := sent.recalls kept
      exact on_boundary_of_place within
  | stop kept =>
      obtain ⟨d, within, -, told⟩ := sent.recalls kept
      obtain ⟨e, known, rfl⟩ := told _ _ rfl
      exact on_boundary_of_place ((attained_forward _ _ _ _ _ known).trans within)
  | mark kept below marked =>
      obtain ⟨d, within, -, told⟩ := sent.recalls kept
      obtain ⟨e, known, -⟩ := told _ _ rfl
      exact marks_on_boundaries within known _ below _ marked

theorem on_boundaries_of_safe {m : Moment} (safe : m.Safe input) : m.OnBoundaries input := by
  cases m with
  | stands s =>
      obtain ⟨c, sent⟩ := safe
      exact fun offset => held_on_boundary sent
  | scans start s =>
      obtain ⟨⟨c, sent⟩, started, before⟩ := safe
      rw [bytes_length, ← size_in_bytes] at before
      exact ⟨started, before, fun offset => held_on_boundary sent⟩
  | saves pos =>
      obtain ⟨d, within, rfl⟩ := safe
      exact on_boundary_of_place within
  | slices start stop =>
      obtain ⟨d, e, within, behind, rfl, rfl⟩ := safe
      have order := Cursor.left_le_of_suffix e d behind
      exact ⟨on_boundary_of_place within, on_boundary_of_place (behind.trans within),
        Nat.sub_le_sub_left order _⟩

end Boundaries

section Program

variable {input : String} {limit : Nat}

theorem tree_on_boundaries {tree : Node} (given : (ShellLine.readProgram ⟨true, limit⟩ input.toList).1 = some tree) :
    ∀ inner ∈ tree.descendants, ∀ mark, inner.mark = some mark → OnBoundary input (input.utf8ByteSize - mark) := by
  obtain ⟨trace, runs⟩ := program_runs ⟨true, limit⟩ input.toList
  have known := (runs_sound runs (start_sound input.toList)).2.2 tree given
  exact fun inner below _ => on_boundary_of_marked (stacked_marked (attained_program_stacks known) inner below)

theorem program_refines (input : String) (limit : Nat) : ∃ trail tree final,
    Runs input.toList limit program 0 .start trail (.gave tree final) ∧ Trail.Safe input trail ∧
      (ShellLine.readProgram ⟨true, limit⟩ input.toList).1 = some tree ∧
      Matches input final (ShellLine.readProgram ⟨true, limit⟩ input.toList).2 := by
  obtain ⟨trace, runs⟩ := program_runs ⟨true, limit⟩ input.toList
  have whole : Refines input limit trace.length never (fun _ => True) program Grammar.program :=
    refines_program (calls_refine input limit trace.length)
  generalize ShellLine.readProgram ⟨true, limit⟩ input.toList = result at runs ⊢
  obtain ⟨value, e⟩ := result
  have came := whole 0 .start (.start input.toList) trace value e (Nat.le_refl _) (matches_start input) trivial runs
  cases value with
  | some tree =>
      obtain ⟨trail, final, ran, safe, sent⟩ := came
      exact ⟨trail, tree, final, ran, safe, rfl, sent⟩
  | none =>
      obtain ⟨_, _, _, -, -, left, -⟩ := came
      exact left.elim

/-- Every text is read on its bytes to the end without a panic, in one way, and to what it is read to on its
characters. Except in the middle of a scan every offset that is held, saved or sliced at is between characters. -/
theorem reading_on_boundaries (config : Config) (input : String) : ∃ trail tree final,
    (∃ fuel, readProgram fuel config.maxDepth input.toList = some (trail, .gave tree final)) ∧
      (∀ fuel, readProgram fuel config.maxDepth input.toList = none ∨
        readProgram fuel config.maxDepth input.toList = some (trail, .gave tree final)) ∧
      (∀ m ∈ trail, m.OnBoundaries input) ∧
      (∀ node ∈ tree.descendants, ∀ mark, node.mark = some mark → OnBoundary input (input.utf8ByteSize - mark)) ∧
      (ShellLine.readProgram ⟨true, config.maxDepth⟩ input.toList).1 = some tree ∧
      Matches input final (ShellLine.readProgram ⟨true, config.maxDepth⟩ input.toList).2 := by
  obtain ⟨trail, tree, final, runs, safe, given, sent⟩ := program_refines input config.maxDepth
  have whole : Trail.Safe input (.stands .start :: trail) := safe_cons ⟨_, matches_start input⟩ safe
  refine ⟨.stands .start :: trail, tree, final, ?_, fun fuel => ?_, fun m member => on_boundaries_of_safe (whole m member),
    tree_on_boundaries given, given, sent⟩
  · obtain ⟨fuel, ran⟩ := runs
    exact ⟨fuel, by rw [readProgram, ran, Option.map_some]⟩
  · rw [readProgram]
    cases ran : program.run input.toList config.maxDepth (evaluate rules input.toList config.maxDepth fuel) fuel 0 .start with
    | none => exact Or.inl rfl
    | some result =>
        obtain ⟨before, outcome⟩ := result
        obtain ⟨rfl, rfl⟩ := runs_unique ⟨fuel, ran⟩ runs
        exact Or.inr rfl

-- The first byte of a character of two is passed over on its own.
theorem scan_stands_inside_character : ∃ fuel trail outcome start s,
    readProgram fuel Config.default.maxDepth "é".toList = some (trail, outcome) ∧ .scans start s ∈ trail ∧
      ¬ OnBoundary "é" s.pos := by
  have found : (readProgram 5 Config.default.maxDepth "é".toList).any (fun result => result.1.any fun
      | .scans _ s => s.pos = 1
      | _ => false) = true := by decide +kernel
  obtain ⟨⟨trail, outcome⟩, ran, scanned⟩ := Option.any_eq_true _ _ |>.mp found
  obtain ⟨m, member, stands⟩ := List.any_eq_true.mp scanned
  match m, stands with
  | .scans start s, stands =>
      refine ⟨5, trail, outcome, start, s, ran, member, fun between => ?_⟩
      rw [of_decide_eq_true stands] at between
      exact absurd between.2 (by decide)

end Program

end ShellLine.Bytewise
