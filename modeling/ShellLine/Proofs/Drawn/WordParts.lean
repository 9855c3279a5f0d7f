import ShellLine.Proofs.Drawn.Commands
import ShellLine.Proofs.Running.Restore

set_option autoImplicit false

namespace ShellLine

open ShellLine.Parser

-- A state that an engine comes to when it runs some parser from some place of a text on.
def Reached (mode : Mode) (text : List Char) (s : State) : Prop :=
  ∃ (α : Type) (p : Parser α) (c : Cursor) (level : Nat) (trace : Trace) (result : Option α × State),
    c.rest <:+ text ∧ Runs mode p level { State.start text with cursor := c } trace result ∧ s ∈ trace.states

variable {mode : Mode} {text : List Char} {s : State}

theorem reached_fresh {c : Cursor} (within : c.rest <:+ text) :
    Reached mode text { State.start text with cursor := c } :=
  ⟨Unit, .succeed (), c, 0, _, _, within, .succeed () 0 _, List.mem_cons_self ..⟩

theorem reached_upholds (reached : Reached mode text s) :
    s.Sound text ∧ s.Upholds text drawnReplies := by
  obtain ⟨α, p, c, level, trace, result, within, runs, member⟩ := reached
  have sound := sound_moved (start_sound text) within
  exact ⟨(runs_sound runs sound).1 s member,
    (runs_uphold drawn_closed runs sound (fresh_upholds rfl)).1 s member⟩

/-- From whatever state an engine has come to in a text and at whatever level, parts of words are read. If
no command and no arithmetic is substituted in them, the text that is passed over is the parts as they are
written. And the word behind an operator that is one sign does not start with that sign, if it is not quoted
or escaped. -/
theorem word_parts_lossless (reached : Reached mode text s) (braced : Bool) (level : Nat) :
    ∃ parts t passed,
      (Grammar.wordParts braced).run (evaluate grammar mode) mode.limit level s = (some parts, t) ∧
      s.cursor.rest = passed ++ t.cursor.rest ∧
      ((∀ part ∈ parts, ∀ inner ∈ part.descendants,
          inner.kind ≠ .commandExpansion ∧ inner.kind ≠ .arithmeticExpansion) →
        passed = parts.flatMap Node.written) ∧
      ∀ part ∈ parts, ∀ inner ∈ part.descendants, inner.SignStands := by
  obtain ⟨sound, upholds⟩ := reached_upholds reached
  have lower : (Grammar.wordParts braced).CallsLower attained (6 * s.cursor.left + 6) s.cursor :=
    calls_lower_of_left attained_forward _ _ (Nat.le_refl _)
  obtain ⟨trace, runs⟩ := parser_runs (Grammar.wordParts braced)
    (fun rule level s sound _ => rule_runs mode rule level s sound) level s sound lower
    (Grammar.progresses_word_parts attained_forward attained_advance braced)
  obtain ⟨-, -, ends⟩ := runs_uphold drawn_closed runs sound upholds
  cases outcome : (Grammar.wordParts braced).run (evaluate grammar mode) mode.limit level s with
  | mk read t =>
      rw [outcome] at ends
      obtain ⟨parts, rfl⟩ : ∃ parts, read = some parts := by
        refine Option.ne_none_iff_exists'.mp fun refused => ?_
        exact lasts_many (Grammar.wordPart braced) level s ((congrArg Prod.fst outcome).trans refused)
      obtain ⟨passed, kept, strung⟩ := Grammar.takes_word_parts braced parts t.cursor ends
      refine ⟨parts, t, passed, rfl, (kept.2 rfl).symm, fun plain => ?_, fun part member inner below => ?_⟩
      · refine written_of_strung strung fun part member inner below => ?_
        obtain ⟨command, arithmetic⟩ := plain part member inner below
        cases kind : inner.kind <;> first | rfl | contradiction
      · exact (tidy_of_strung strung part member inner below).2

theorem quoted_operand_lossless :
    let text := "é \"a$\x7bb%'%'c\x7d\x60\\$d\x60\\\n\"'e'$f g".toList
    let s : State := { State.start text with cursor := (Cursor.start text).advance 2 }
    ∃ parts t, (Grammar.wordParts false).run (evaluate grammar ⟨true, 1⟩) 1 0 s = (some parts, t) ∧
      parts.length = 3 ∧ s.cursor.rest = parts.flatMap Node.written ++ " g".toList := by
  intro text s
  have reached : Reached ⟨true, 1⟩ text s := reached_fresh (Cursor.advance_suffix 2 (Cursor.start text))
  obtain ⟨parts, t, passed, read, whole, written, -⟩ := word_parts_lossless reached false 0
  have seen : ((Grammar.wordParts false).run (evaluate grammar ⟨true, 1⟩) 1 0 s).1.map (fun parts =>
      (parts.length, parts.all fun part => part.descendants.all fun inner =>
        inner.kind ≠ .commandExpansion ∧ inner.kind ≠ .arithmeticExpansion)) = some (3, true) := by
    decide +kernel
  have rest : ((Grammar.wordParts false).run (evaluate grammar ⟨true, 1⟩) 1 0 s).2.cursor.rest = " g".toList := by
    decide +kernel
  rw [read] at seen rest
  simp only [Option.map_some, Option.some.injEq, Prod.mk.injEq, List.all_eq_true, decide_eq_true_eq] at seen
  exact ⟨parts, t, read, seen.1, rest ▸ written seen.2 ▸ whole⟩

end ShellLine
