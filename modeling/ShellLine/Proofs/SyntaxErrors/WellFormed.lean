import ShellLine.Proofs.Expected.Sorted
import ShellLine.Proofs.HereDocuments
import ShellLine.Proofs.Reading.Program
import ShellLine.Proofs.SyntaxErrors.Message
import ShellLine.Proofs.SyntaxErrors.Notes
import ShellLine.Proofs.Text.Boundaries

set_option autoImplicit false

namespace ShellLine

open Text

def Trace.RecordsAt (trace : Trace) (input : String) (offset : Nat) (e : Expected) : Prop :=
  ∃ left, trace.Records left e ∧ offsetOf input left = offset

-- A syntax error in view of the run of the program over its input and of the place where that stopped.
-- The end of the input is expected by the run as a whole, the rest is recorded on the way.
structure SyntaxError.WellFormed (e : SyntaxError) (trace : Trace) (stop : Cursor) : Prop where
  within : e.offset ≤ byteLength e.input.toList
  boundary : (⟨e.offset⟩ : String.Pos.Raw).IsValid e.input
  short : offsetOf e.input stop.left < byteLength e.input.toList
  reached : offsetOf e.input stop.left ≤ e.offset
  rightmost : ∀ offset x, trace.RecordsAt e.input offset x → offset ≤ e.offset
  expected : ∀ x, x ∈ e.expected ↔
    trace.RecordsAt e.input e.offset x ∨ x = .endOfInput ∧ offsetOf e.input stop.left = e.offset
  ended : .endOfInput ∈ e.expected ↔ offsetOf e.input stop.left = e.offset
  nonempty : e.expected ≠ []
  ordered : e.expected.Pairwise fun a b => a.key < b.key
  distinct : e.expected.Nodup
  found : ∃ before after, e.input.toList = before ++ after ∧ byteLength before = e.offset ∧
    e.found = after.head?
  exhausted : e.found = none ↔ e.offset = byteLength e.input.toList
  sentence : ∃ init last, e.expected = init ++ [last] ∧
    e.message.toList = "Expected ".toList ++ Expected.listed init last ++ " but ".toList ++
      Expected.describeFound e.found ++ " found.".toList
  one_line : '\n' ∉ e.message.toList
  bare : (e.withStyle .bare).render.toList.splitOn '\n' = [e.message.toList]
  context : (e.withStyle .context).render.toList.splitOn '\n' = [e.message.toList,
    e.location.lineContent, List.replicate (e.location.column - 1) ' ' ++ ['^']]

section Stopped

variable {config : Config} {input : String} {s : State} {trace : Trace}

theorem judged_malformed {result : Option Node} {e : SyntaxError}
    (judged : judge config input result s = .error (.malformed e)) :
    s.tooDeep = false ∧ (s.cursor.rest ≠ [] ∨ result = none) ∧ e = s.syntaxError config.errorStyle input := by
  simp only [judge] at judged
  split at judged
  · cases judged
  · refine ⟨by simpa using ‹¬ s.tooDeep = true›, ?_⟩
    split at judged
    · split at judged <;> cases judged
    · rename_i other
      cases judged
      refine ⟨(Option.eq_none_or_eq_some _).elim Or.inr fun found => Or.inl fun ended => ?_, rfl⟩
      obtain ⟨tree, found⟩ := found
      exact other tree ended found

-- What is malformed was not read to its end, for a program can be read from every text.
theorem malformed_remains {e : SyntaxError} (malformed : parse config input = .error (.malformed e)) :
    (readProgram ⟨true, config.maxDepth⟩ input.toList).2.cursor.rest ≠ [] ∧
      e = (readProgram ⟨true, config.maxDepth⟩ input.toList).2.syntaxError config.errorStyle input := by
  rcases parse_judges config input with ⟨length, long⟩ | judged
  · rw [long] at malformed
    cases malformed
  · rw [malformed] at judged
    obtain ⟨shallow, remains | none, rfl⟩ := judged_malformed judged.symm
    · exact ⟨remains, rfl⟩
    · obtain ⟨tree, d, read⟩ := program_reads input.toList
      obtain ⟨value, -⟩ := program_faithful _ _ tree d read shallow
      rw [none] at value
      cases value

end Stopped

theorem offset_of_eq_iff {input : String} {left other : Nat} (bound : left ≤ byteLength input.toList)
    (otherBound : other ≤ byteLength input.toList) : offsetOf input left = offsetOf input other ↔ left = other := by
  rw [offsetOf, offsetOf]
  omega

section Final

variable {input : String} {mode : Mode} {trace : Trace} {result : Option Node × State}
  (runs : Runs mode Grammar.program 0 (.start input.toList) trace result)

include runs

theorem final_accounts :
    Trace.Accounts (trace ++ [.steps result.2 (result.2.note .endOfInput)]) ⟨.start input.toList, []⟩
      (result.2.note .endOfInput).failure :=
  Trace.accounts_append (runs_account runs) (Trace.accounts_note .endOfInput)

theorem final_expected (x : Expected) : x ∈ (result.2.note .endOfInput).failure.expected ↔
    trace.Records (result.2.note .endOfInput).failure.cursor.left x ∨
      x = .endOfInput ∧ result.2.cursor.left = (result.2.note .endOfInput).failure.cursor.left := by
  rw [(final_accounts runs).expected, Trace.records_append, Trace.records_note]
  constructor
  · rintro ((early | ⟨-, place, rfl⟩) | ⟨-, old⟩)
    · exact Or.inl early
    · exact Or.inr ⟨rfl, place⟩
    · cases old
  · rintro (early | ⟨rfl, place⟩)
    · exact Or.inl (Or.inl early)
    · refine Or.inl (Or.inr ⟨fun behind => ?_, place, rfl⟩)
      rw [State.note_of_left behind] at place
      exact Nat.ne_of_gt behind place

theorem records_between {left : Nat} {x : Expected} (recorded : trace.Records left x) :
    (result.2.note .endOfInput).failure.cursor.left ≤ left ∧ left ≤ byteLength input.toList := by
  refine ⟨(final_accounts runs).rightmost left x ((Trace.records_append left x).mpr (Or.inl recorded)), ?_⟩
  obtain ⟨states, -⟩ := runs_sound runs (start_sound input.toList)
  obtain ⟨s, member, -, rfl⟩ := recorded
  have among : s ∈ trace.states := List.mem_flatMap.mpr ⟨_, member, List.mem_cons_self⟩
  exact (boundary_of_place (states s among).cursor).1

theorem final_nonempty : (result.2.note .endOfInput).failure.expected ≠ [] := by
  by_cases moved : (result.2.note .endOfInput).failure.cursor.left < byteLength input.toList
  · exact (final_accounts runs).nonempty moved
  · obtain ⟨-, sound, -⟩ := runs_sound runs (start_sound input.toList)
    have stopped := (boundary_of_place sound.cursor).1
    have reached := State.note_left_le result.2 .endOfInput
    exact List.ne_nil_of_mem ((final_expected runs .endOfInput).mpr (Or.inr ⟨rfl, by omega⟩))

theorem final_recorded_at (style : ErrorStyle) (x : Expected) :
    x ∈ (result.2.syntaxError style input).expected ↔
      trace.RecordsAt input (result.2.syntaxError style input).offset x ∨
        x = .endOfInput ∧ offsetOf input result.2.cursor.left = (result.2.syntaxError style input).offset := by
  obtain ⟨-, sound, -⟩ := runs_sound runs (start_sound input.toList)
  have bounded := (boundary_of_place (sound_note sound .endOfInput).failure).1
  have stopped := (boundary_of_place sound.cursor).1
  have there : ∀ left ≤ byteLength input.toList, offsetOf input left = (result.2.syntaxError style input).offset ↔
      left = (result.2.note .endOfInput).failure.cursor.left :=
    fun left bound => offset_of_eq_iff bound bounded
  rw [there _ stopped]
  refine (Expected.mem_sorted x _).trans ((final_expected runs x).trans (or_congr_left ?_))
  constructor
  · exact fun recorded => ⟨_, recorded, rfl⟩
  · rintro ⟨left, recorded, same⟩
    exact (there left (records_between runs recorded).2).mp same ▸ recorded

theorem final_well_formed (style : ErrorStyle) (remains : result.2.cursor.rest ≠ []) :
    (result.2.syntaxError style input).WellFormed trace result.2.cursor := by
  obtain ⟨-, sound, -⟩ := runs_sound runs (start_sound input.toList)
  have place := (sound_note sound .endOfInput).failure
  have stopped := boundary_of_place sound.cursor
  have boundary := boundary_of_place place
  have reached := State.note_left_le result.2 .endOfInput
  have recorded := final_recorded_at runs style
  have nonempty : (result.2.syntaxError style input).expected ≠ [] := by
    obtain ⟨x, member⟩ := List.exists_mem_of_ne_nil _ (final_nonempty runs)
    exact List.ne_nil_of_mem ((Expected.mem_sorted x _).mpr member)
  refine ⟨Nat.sub_le _ _, boundary.2, ?short, Nat.sub_le_sub_left reached _, ?rightmost, recorded, ?ended,
    nonempty, Expected.sorted_in_order _, Expected.sorted_distinct _, ?found, ?exhausted, ?sentence,
    Expected.message_one_line _ _, ?bare, context_lines _⟩
  case short =>
    have positive : result.2.cursor.left ≠ 0 := by
      rw [result.2.cursor.left_eq]
      exact (byte_length_eq_zero _).not.mpr remains
    have bounded := stopped.1
    change offsetOf input result.2.cursor.left < byteLength input.toList
    rw [offsetOf]
    omega
  case rightmost =>
    rintro offset x ⟨left, noted, rfl⟩
    exact Nat.sub_le_sub_left (records_between runs noted).1 _
  case ended =>
    rw [recorded]
    refine ⟨fun member => ?_, fun stop => Or.inr ⟨rfl, stop⟩⟩
    rcases member with ⟨left, noted, -⟩ | ⟨-, stop⟩
    · exact absurd rfl (records_allowed Grammar.grammar_notes_missing runs Grammar.program_notes_missing noted)
    · exact stop
  case found =>
    obtain ⟨before, whole⟩ := place
    obtain ⟨-, offset, -⟩ := bytes_of_whole whole
    exact ⟨before, _, whole.symm, (utf8_encode_size before ▸ offset).symm, rfl⟩
  case exhausted =>
    have bounded := boundary.1
    change (result.2.note .endOfInput).failure.cursor.rest.head? = none ↔
      offsetOf input (result.2.note .endOfInput).failure.cursor.left = byteLength input.toList
    rw [List.head?_eq_none_iff, ← byte_length_eq_zero, ← Cursor.left_eq, offsetOf]
    omega
  case sentence =>
    have whole := List.dropLast_append_getLast nonempty
    refine ⟨_, _, whole.symm, ?_⟩
    rw [← Expected.enumerate_concat, whole]
    exact Expected.message_chars _ _
  case bare => exact List.splitOn_eq_singleton (Expected.message_one_line _ _)

end Final

/-- Every syntax error is well formed, for any input and any configuration. -/
theorem syntax_errors_well_formed {config : Config} {input : String} {e : SyntaxError}
    (malformed : parse config input = .error (.malformed e)) :
    e.input = input ∧ e.style = config.errorStyle ∧
      ∃ trace, Runs ⟨true, config.maxDepth⟩ Grammar.program 0 (.start input.toList) trace
          (readProgram ⟨true, config.maxDepth⟩ input.toList) ∧
        e.WellFormed trace (readProgram ⟨true, config.maxDepth⟩ input.toList).2.cursor := by
  obtain ⟨remains, rfl⟩ := malformed_remains malformed
  obtain ⟨trace, runs⟩ := program_runs ⟨true, config.maxDepth⟩ input.toList
  exact ⟨rfl, rfl, trace, runs, final_well_formed runs config.errorStyle remains⟩

theorem open_quote_error_well_formed :
    ∃ e : SyntaxError, parse {} "é \"ß" = .error (.malformed e) ∧ e.offset = 6 ∧ e.found = none ∧
      Expected.endOfInput ∉ e.expected ∧
      ∃ trace, Runs ⟨true, 64⟩ Grammar.program 0 (.start "é \"ß".toList) trace
          (readProgram ⟨true, 64⟩ "é \"ß".toList) ∧
        e.WellFormed trace (readProgram ⟨true, 64⟩ "é \"ß".toList).2.cursor := by
  have told : parse {} "é \"ß" = .error (.malformed
      { expected := [.literal "\"", .literal "$", .literal "\\", .literal "`", .token .doubleQuoted]
        found := none, input := "é \"ß", offset := 6, style := .context }) := by decide +kernel
  exact ⟨_, told, rfl, rfl, by decide, (syntax_errors_well_formed told).2.2⟩

end ShellLine
