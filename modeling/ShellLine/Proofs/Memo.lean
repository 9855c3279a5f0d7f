import ShellLine.Proofs.Expected.Sorted
import ShellLine.Proofs.Reading.Program

set_option autoImplicit false

namespace ShellLine

-- Errors depend on the set of what was expected at the rightmost place, not on the notes.
theorem judge_congr (config : Config) (input : String) (result : Option Node) (s t : State)
    (cursor : s.cursor = t.cursor) (failure : s.failure.Agrees t.failure)
    (deep : s.tooDeep = t.tooDeep) :
    judge config input result s = judge config input result t := by
  have noted : (s.note .endOfInput).failure.Agrees (t.note .endOfInput).failure := by
    rw [State.note]
    rw [cursor]
    exact Failure.note_agrees failure t.cursor .endOfInput
  have malformed : s.syntaxError config.errorStyle input = t.syntaxError config.errorStyle input := by
    unfold State.syntaxError
    dsimp only
    rw [noted.cursor, Expected.sorted_congr _ _ noted.expected]
  simp only [judge]
  rw [cursor, deep, malformed]

-- Without a table a run is cut short as soon as the reading goes too deep, with one at most then.
theorem kept_shallow_of_plain_shallow (limit : Nat) (text : List Char)
    (shallow : limit = 0 ∨ (readProgram ⟨false, limit⟩ text).2.tooDeep = false) (keeps : Bool) :
    (readProgram ⟨keeps, limit⟩ text).2.tooDeep = false := by
  have fits : Fits limit 0 (Grammar.program.read (reading grammar) (.start text)).depth := by
    rcases shallow with unlimited | shallow
    · exact Or.inl unlimited
    · exact (program_follows ⟨false, limit⟩ text).plain shallow rfl
  cases deep : (readProgram ⟨keeps, limit⟩ text).2.tooDeep with
  | false => rfl
  | true => exact absurd fits ((program_follows ⟨keeps, limit⟩ text).deep deep)

-- Runs that cannot be told apart by what they read or by where they broke down.
structure SameRun (a b : Option Node × State) : Prop where
  value : a.1 = b.1
  cursor : a.2.cursor = b.2.cursor
  failure : a.2.failure.Agrees b.2.failure
  tooDeep : a.2.tooDeep = b.2.tooDeep

theorem shallow_runs_same (mode other : Mode) (text : List Char)
    (shallow : (readProgram mode text).2.tooDeep = false)
    (otherShallow : (readProgram other text).2.tooDeep = false) :
    SameRun (readProgram mode text) (readProgram other text) := by
  obtain ⟨tree, d, read⟩ := program_reads text
  obtain ⟨value, cursor, failure⟩ := program_faithful mode text tree d read shallow
  obtain ⟨otherValue, otherCursor, otherFailure⟩ :=
    program_faithful other text tree d read otherShallow
  exact ⟨value.trans otherValue.symm, cursor.trans otherCursor.symm,
    Failure.agrees_trans failure (Failure.agrees_symm otherFailure),
    shallow.trans otherShallow.symm⟩

theorem parse_with_congr (config : Config) (input : String)
    (same : SameRun (readProgram ⟨true, config.maxDepth⟩ input.toList)
      (readProgram ⟨false, config.maxDepth⟩ input.toList)) :
    parseWith true config input = parseWith false config input := by
  unfold parseWith
  by_cases long : config.maxInputLength ≠ 0 ∧
      config.maxInputLength < Text.byteLength input.toList
  · rw [if_pos long, if_pos long]
  · rw [if_neg long, if_neg long]
    dsimp only
    rw [same.value]
    exact judge_congr config input _ _ _ same.cursor same.failure same.tooDeep

/-- A table of results changes neither what is read nor where reading breaks down. -/
theorem memo_transparent (config : Config) (input : String)
    (shallow : config.maxDepth = 0 ∨
      (readProgram ⟨false, config.maxDepth⟩ input.toList).2.tooDeep = false) :
    SameRun (readProgram ⟨true, config.maxDepth⟩ input.toList)
        (readProgram ⟨false, config.maxDepth⟩ input.toList) ∧
      parseWith true config input = parseWith false config input := by
  have keptShallow := kept_shallow_of_plain_shallow config.maxDepth input.toList shallow true
  have plainShallow := kept_shallow_of_plain_shallow config.maxDepth input.toList shallow false
  have same := shallow_runs_same _ _ input.toList keptShallow plainShallow
  exact ⟨same, parse_with_congr config input same⟩

theorem memo_transparent_backtracking :
    (readProgram ⟨false, 3⟩ "f x=1 $((a)|b) (".toList).2.tooDeep = false ∧
      parseWith true { maxDepth := 3 } "f x=1 $((a)|b) (" =
        parseWith false { maxDepth := 3 } "f x=1 $((a)|b) (" := by
  have shallow : (readProgram ⟨false, 3⟩ "f x=1 $((a)|b) (".toList).2.tooDeep = false := by
    decide +kernel
  exact ⟨shallow, (memo_transparent { maxDepth := 3 } "f x=1 $((a)|b) (" (Or.inr shallow)).2⟩

end ShellLine
