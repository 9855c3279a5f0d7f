import ShellLine.Proofs.Followed.Program
import ShellLine.Proofs.Memo
import ShellLine.Proofs.Running.Restore
import ShellLine.Proofs.Running.Steering
import ShellLine.Proofs.Running.Unique
import ShellLine.Proofs.Source.Behind
import ShellLine.Proofs.SyntaxErrors.WellFormed

set_option autoImplicit false

namespace ShellLine

open Text ShellLine.Parser Grammar

section Run

variable {calls : Rule → Nat → State → Option Node × State} {limit level : Nat}

def State.pastBreak (s : State) : State :=
  if s.cursor.rest.head? = some '\n' then { s with cursor := s.cursor.pastLines }
  else s.note (.token .newline)

theorem run_blanks (s : State) :
    blanks.run calls limit level s = (some (), { s with cursor := s.cursor.pastBlanks }) := rfl

theorem run_line_break (s : State) : lineBreak.run calls limit level s = (some (), s.pastBreak) := by
  have tried : newlines.run calls limit level s =
      if s.cursor.rest.head? = some '\n' then (some (), { s with cursor := s.cursor.pastLines })
      else (none, s.note (.token .newline)) := by
    rw [newlines, run_bind]
    change (ite (_ = some '\n') _ _ : Parser Unit).run calls limit level s = _
    split <;> rfl
  rw [lineBreak, Parser.optional, run_bind, run_attempt, tried, State.pastBreak]
  split <;> rfl

theorem cursor_past_break (s : State) : s.pastBreak.cursor = s.cursor.pastBreak := by
  rw [State.pastBreak, Cursor.pastBreak]
  split <;> rfl

theorem deep_past_break (s : State) : s.pastBreak.tooDeep = s.tooDeep := by
  rw [State.pastBreak]
  split <;> rfl

end Run

section Ends

variable {mode : Mode}

def State.entered (text : List Char) : State :=
  State.pastBreak { State.start text with cursor := (Cursor.start text).pastBlanks }

theorem lasts_complete_commands (calls : Rule → Nat → State → Option Node × State) (limit : Nat) :
    completeCommands.Avoids calls limit (· = none) := by
  refine avoids_bind (fun _ => lasts_attempt) fun tried => ?_
  cases tried with
  | none => exact avoids_pure (Option.some_ne_none _)
  | some first => exact avoids_bind (fun _ => lasts_many _) fun _ => avoids_pure (Option.some_ne_none _)

theorem read_program_parts (mode : Mode) (text : List Char) : ∃ commands u,
    completeCommands.run (evaluate grammar mode) mode.limit 0 (State.entered text) = (some commands, u) ∧
      readProgram mode text = (some (.ofNodes .program commands), u.pastBreak) := by
  have lasts := lasts_complete_commands (evaluate grammar mode) mode.limit 0 (State.entered text)
  have parts : readProgram mode text =
      chain (completeCommands.run (evaluate grammar mode) mode.limit 0 (State.entered text)) fun commands t =>
        (some (.ofNodes .program commands), t.pastBreak) := by
    rw [readProgram, program, run_bind, run_blanks, chain, run_bind, run_line_break, chain, run_bind]
    refine congrArg (chain _) (funext fun commands => funext fun t => ?_)
    rw [run_bind, run_line_break]
    rfl
  rw [parts]
  generalize completeCommands.run (evaluate grammar mode) mode.limit 0 (State.entered text) = result at lasts ⊢
  obtain ⟨value, u⟩ := result
  cases value with
  | none => exact absurd rfl lasts
  | some commands => exact ⟨commands, u, rfl, rfl⟩

theorem entered_state (text : List Char) : ∃ failure,
    State.entered text = (State.start (Cursor.start text).pastLines.rest).recording failure ∧
      (failure = ⟨.start text, []⟩ ∨
        failure = (⟨.start text, []⟩ : Failure).note (Cursor.start text).pastLines (.token .newline)) := by
  have place := Grammar.past_blanks_and_break (Cursor.start text)
  have start : Cursor.start (Cursor.start text).pastLines.rest = (Cursor.start text).pastLines :=
    Cursor.ext_rest _ _ rfl
  rw [State.entered, State.pastBreak]
  rw [Cursor.pastBreak] at place
  split
  · rename_i newline
    rw [if_pos newline] at place
    refine ⟨_, ?_, Or.inl rfl⟩
    rw [State.recording, State.start, State.start, start, ← place]
  · rename_i missing
    rw [if_neg missing] at place
    refine ⟨_, ?_, Or.inr rfl⟩
    rw [State.recording, State.start, State.start, start, ← place]
    rfl

-- The commands at the start of a text and the notes that reading them takes, whatever is on record of
-- a text that has this one at its end.
structure ReadAlike (mode : Mode) (text : List Char) (value : Option (List Node)) (u : State) (notes : List Note) :
    Prop where
  reached : u.cursor.rest <:+ text
  placed : ∀ n ∈ notes, n.1.rest <:+ text
  alike : ∀ {whole : List Char} {failure : Failure}, text <:+ whole → failure.cursor.rest <:+ whole →
    completeCommands.run (evaluate grammar mode) mode.limit 0 ((State.start text).recording failure) =
      (value, u.recording (failure.absorb notes))

theorem commands_read_alike (mode : Mode) (text : List Char) :
    ∃ value u notes, ReadAlike mode text value u notes := by
  have ends {whole : List Char} {s : State} (sound : s.Sound whole) : ∃ trace,
      Runs mode completeCommands 0 s trace (completeCommands.run (evaluate grammar mode) mode.limit 0 s) :=
    parser_runs completeCommands (fun rule level s sound _ => rule_runs mode rule level s sound) 0 s sound
      (calls_lower_of_left attained_forward _ _ (Nat.le_refl _))
      (progresses_complete_commands attained_forward attained_advance)
  obtain ⟨trace, runs⟩ := ends (start_sound text)
  generalize completeCommands.run (evaluate grammar mode) mode.limit 0 (State.start text) = result at runs
  obtain ⟨value, u⟩ := result
  obtain ⟨states, last, -⟩ := runs_sound runs (start_sound text)
  obtain ⟨notes, taken⟩ := runs_take_notes runs
  refine ⟨value, u, notes, last.cursor, fun n member => ?_, fun {whole failure} within noted => ?_⟩
  · obtain ⟨s, among, here⟩ := taken.placed n member
    exact here ▸ (states s among).cursor
  · have sound : ((State.start text).recording failure).Sound whole :=
      ⟨within, noted, fun found => by simp [State.recording, State.start] at found⟩
    obtain ⟨_, again⟩ := ends sound
    obtain ⟨_, alike⟩ := taken.alike failure
    exact (runs_unique again alike).2

-- What is missed behind the commands: a newline, where none stands, and behind the layout the end of the input.
def endNotes (c : Cursor) : List Note :=
  (if c.rest.head? = some '\n' then [] else [(c, .token .newline)]) ++ [(c.pastBreak, .endOfInput)]

theorem failure_of_end (s : State) : (s.pastBreak.note .endOfInput).failure = s.failure.absorb (endNotes s.cursor) := by
  have noted : (s.pastBreak.note .endOfInput).failure = s.pastBreak.failure.note s.pastBreak.cursor .endOfInput := rfl
  rw [noted, cursor_past_break, State.pastBreak, endNotes]
  split <;> rfl

theorem end_notes_placed (c : Cursor) : ∀ n ∈ endNotes c, n.1.rest <:+ c.rest := by
  have behind : c.pastBreak.rest <:+ c.rest := by
    rw [Cursor.pastBreak]
    split
    · exact c.advance_suffix _
    · exact List.suffix_refl _
  rw [endNotes]
  split
  · exact List.forall_mem_singleton.mpr behind
  · exact List.forall_mem_cons.mpr ⟨List.suffix_refl _, List.forall_mem_singleton.mpr behind⟩

-- That a newline was missed in front of the commands is told by what is missed behind them.
theorem newline_covered (a : Failure) (notes : List Note) {c d : Cursor} (behind : d.rest <:+ c.rest) :
    (a.absorb (notes ++ endNotes d)).Covers (c, .token .newline) := by
  have reached := Cursor.left_le_of_suffix d c behind
  have covers := fun n member => Failure.absorb_covers_mem a (notes ++ endNotes d) n (List.mem_append_right _ member)
  by_cases newline : d.rest.head? = some '\n'
  · have ended := covers (d.pastBreak, .endOfInput) (List.mem_append_right _ (List.mem_singleton_self _))
    have further : d.pastBreak.left < d.left := by
      rw [Cursor.pastBreak, if_pos newline]
      have moves : newlines.Advances attained := newlines_advance
      exact moves none d () _ ((may_give_newlines ..).mpr ⟨newline, rfl⟩)
    exact Or.inl (by rcases ended with right | ⟨level, -⟩ <;> dsimp only at * <;> omega)
  · have missed := covers (d, .token .newline) (by simp [endNotes, newline])
    rcases missed with right | ⟨level, known⟩
    · exact Or.inl (Nat.lt_of_lt_of_le right reached)
    · rcases Nat.lt_or_eq_of_le reached with further | same
      · exact Or.inl (Nat.lt_of_le_of_lt (Nat.le_of_eq level) further)
      · exact Or.inr ⟨level.trans same, known⟩

-- Where the record stands in front of the layout, and whether a newline was missed behind it, does not matter.
theorem absorb_entered {c d place : Cursor} {notes : List Note} {failure : Failure} (inside : c.rest <:+ place.rest)
    (reached : d.rest <:+ c.rest) (placed : ∀ n ∈ notes, n.1.rest <:+ c.rest)
    (missed : failure = ⟨place, []⟩ ∨ failure = (⟨place, []⟩ : Failure).note c (.token .newline)) :
    (failure.absorb (notes ++ endNotes d)).Agrees (Failure.absorb ⟨c, []⟩ (notes ++ endNotes d)) := by
  have within : ∀ n ∈ notes ++ endNotes d, n.1.rest <:+ c.rest :=
    List.forall_mem_append.mpr ⟨placed, fun n member => (end_notes_placed d n member).trans reached⟩
  have nonempty : notes ++ endNotes d ≠ [] := by simp [endNotes]
  have moved : Failure.absorb ⟨place, []⟩ (notes ++ endNotes d) = Failure.absorb ⟨c, []⟩ (notes ++ endNotes d) :=
    Failure.absorb_empty nonempty inside within
  rcases missed with rfl | rfl
  · exact moved ▸ Failure.agrees_refl _
  · have last := Failure.absorb_note ⟨place, []⟩ (.token .newline) inside fun n member => (within n member).trans inside
    rw [moved] at last
    exact Failure.agrees_trans last (Failure.note_of_covers _ _ _ (newline_covered _ _ reached))

-- A program over a text, with the end of the input missed where reading stopped.
def readToEnd (mode : Mode) (text : List Char) : Option Node × State :=
  ((readProgram mode text).1, (readProgram mode text).2.note .endOfInput)

theorem read_to_end {mode : Mode} {text : List Char} {value : Option (List Node)} {u : State} {notes : List Note}
    (commands : ReadAlike mode (Cursor.start text).pastLines.rest value u notes) :
    SameRun (readToEnd mode text) (value.map (.ofNodes .program), { u with
      cursor := u.cursor.pastBreak
      failure := Failure.absorb ⟨(Cursor.start text).pastLines, []⟩ (notes ++ endNotes u.cursor) }) := by
  obtain ⟨read, v, given, ends⟩ := read_program_parts mode text
  obtain ⟨failure, entered, missed⟩ := entered_state text
  have inside : (Cursor.start text).pastLines.rest <:+ text := Cursor.advance_suffix _ _
  have within : failure.cursor.rest <:+ text := by
    rcases missed with rfl | rfl
    · exact List.suffix_refl _
    · rw [Failure.note_empty _ inside]
      exact inside
  rw [entered, commands.alike inside within] at given
  obtain ⟨rfl, rfl⟩ := Prod.mk.inj given
  rw [readToEnd, ends]
  refine ⟨rfl, cursor_past_break _, ?_, deep_past_break _⟩
  dsimp only
  rw [failure_of_end]
  change ((failure.absorb notes).absorb (endNotes u.cursor)).Agrees _
  rw [← Failure.absorb_append]
  exact absorb_entered inside commands.reached commands.placed missed

theorem same_run_of_both {a b c : Option Node × State} (first : SameRun a c) (second : SameRun b c) : SameRun a b :=
  ⟨first.value.trans second.value.symm, first.cursor.trans second.cursor.symm,
    Failure.agrees_trans first.failure (Failure.agrees_symm second.failure),
    first.tooDeep.trans second.tooDeep.symm⟩

theorem read_to_end_alike (mode : Mode) {text other : List Char}
    (same : (Cursor.start text).pastLines = (Cursor.start other).pastLines) :
    SameRun (readToEnd mode text) (readToEnd mode other) := by
  obtain ⟨value, u, notes, commands⟩ := commands_read_alike mode (Cursor.start text).pastLines.rest
  have first := read_to_end commands
  rw [same] at commands first
  exact same_run_of_both first (read_to_end commands)

end Ends

section Errors

variable {config : Config} {padding : List Char} {input : String}

-- Where an error is told when a text stands in front of the input.
def ParseError.behind (front : List Char) : ParseError → ParseError
  | malformed e => malformed { e with input := .ofList front ++ e.input, offset := byteLength front + e.offset }
  | hereDocument line column =>
      let moved := Location.behind front ⟨line, column, []⟩
      hereDocument moved.line moved.column
  | other => other

theorem layout_padded (isLayout : ∀ ch ∈ padding, ch = ' ' ∨ ch = '\t' ∨ ch = '\n') (text : List Char) :
    layoutLength true false (padding ++ text) = padding.length + layoutLength true false text := by
  induction padding with
  | nil => rw [List.nil_append, List.length_nil, Nat.zero_add]
  | cons first padding ih =>
      obtain ⟨here, others⟩ := List.forall_mem_cons.mp isLayout
      rw [List.cons_append, List.length_cons, Nat.add_comm padding.length 1, Nat.add_assoc, ← ih others]
      rcases here with rfl | rfl | rfl <;> rfl

theorem past_lines_padded (isLayout : ∀ ch ∈ padding, ch = ' ' ∨ ch = '\t' ∨ ch = '\n') (text : List Char) :
    (Cursor.start (padding ++ text)).pastLines = (Cursor.start text).pastLines := by
  apply Cursor.ext_rest
  rw [Cursor.pastLines, Cursor.pastLines, Cursor.rest_advance, Cursor.rest_advance]
  change (padding ++ text).drop (layoutLength true false (padding ++ text)) = _
  rw [layout_padded isLayout, ← List.drop_drop, List.drop_left]
  rfl

theorem offset_behind {left : Nat} (bound : left ≤ byteLength input.toList) :
    byteLength (String.ofList padding ++ input).toList - left =
      byteLength padding + (byteLength input.toList - left) := by
  rw [String.toList_append, String.toList_ofList, byte_length_append]
  omega

theorem syntax_error_behind {s t : State} (style : ErrorStyle)
    (failure : (s.note .endOfInput).failure.Agrees (t.note .endOfInput).failure)
    (bound : (t.note .endOfInput).failure.cursor.left ≤ byteLength input.toList) :
    s.syntaxError style (String.ofList padding ++ input) =
      { t.syntaxError style input with
        input := String.ofList padding ++ input
        offset := byteLength padding + (t.syntaxError style input).offset } := by
  unfold State.syntaxError
  dsimp only
  rw [failure.cursor, Expected.sorted_congr _ _ failure.expected, offset_behind bound]

theorem judge_behind {result : Option Node} {s t : State}
    (same : SameRun (result, s.note .endOfInput) (result, t.note .endOfInput))
    (bound : (t.note .endOfInput).failure.cursor.left ≤ byteLength input.toList)
    (marked : ∀ tree mark, result = some tree → tree.firstHereDocument? = some mark →
      mark ≤ byteLength input.toList) :
    judge config (String.ofList padding ++ input) result s =
      match judge config input result t with
      | .ok tree => .ok tree
      | .error e => .error (e.behind padding) := by
  have cursor : s.cursor = t.cursor := same.cursor
  have deep : s.tooDeep = t.tooDeep := same.tooDeep
  have malformed : s.syntaxError config.errorStyle (String.ofList padding ++ input) = _ :=
    syntax_error_behind config.errorStyle same.failure bound
  simp only [judge]
  rw [cursor, deep, malformed]
  by_cases tooDeep : t.tooDeep = true
  · rw [if_pos tooDeep, if_pos tooDeep]
    rfl
  · rw [if_neg tooDeep, if_neg tooDeep]
    cases t.cursor.rest with
    | cons => rfl
    | nil =>
        cases result with
        | none => rfl
        | some tree =>
            cases first : tree.firstHereDocument? with
            | none => simp only [first]
            | some mark =>
                simp only [first, ParseError.behind]
                rw [offset_behind (marked tree mark rfl first), locate_behind]
                rfl

theorem read_to_end_bounded (mode : Mode) (input : String) :
    (readToEnd mode input.toList).2.failure.cursor.left ≤ byteLength input.toList ∧
      ∀ tree mark, (readToEnd mode input.toList).1 = some tree → tree.firstHereDocument? = some mark →
        mark ≤ byteLength input.toList := by
  obtain ⟨trace, runs⟩ := program_runs mode input.toList
  have told : ∀ tree, (readProgram mode input.toList).1 = some tree →
      ∀ inner ∈ tree.descendants, inner.Marked (OpensHereDocument input.toList) := fun tree => run_tree_marked
  rw [readToEnd]
  generalize readProgram mode input.toList = result at runs told
  obtain ⟨-, sound, -⟩ := runs_sound runs (start_sound input.toList)
  refine ⟨(boundary_of_place (sound_note sound .endOfInput).failure).1, fun tree mark given first => ?_⟩
  obtain ⟨attained, -⟩ := List.max?_eq_some_iff.mp first
  obtain ⟨leftmost, member, rfl⟩ := List.mem_map.mp attained
  obtain ⟨below, opens⟩ := List.mem_filter.mp member
  obtain ⟨offset, ⟨-, mark⟩, -⟩ := opened_at_of_marked opens (told tree given leftmost below)
  rw [mark]
  exact Nat.sub_le _ _

theorem parse_behind (unlimited : config.maxInputLength = 0)
    (isLayout : ∀ ch ∈ padding, ch = ' ' ∨ ch = '\t' ∨ ch = '\n') (input : String) :
    parse config (String.ofList padding ++ input) =
      match parse config input with
      | .ok tree => .ok tree
      | .error e => .error (e.behind padding) := by
  have same := read_to_end_alike ⟨true, config.maxDepth⟩ (past_lines_padded isLayout input.toList)
  have bounded := read_to_end_bounded ⟨true, config.maxDepth⟩ input
  have whole : (String.ofList padding ++ input).toList = padding ++ input.toList := by
    rw [String.toList_append, String.toList_ofList]
  rw [parse, parse, parse_with_judges true config _ (Or.inl unlimited),
    parse_with_judges true config _ (Or.inl unlimited), whole]
  rw [readToEnd] at bounded same
  rw [readToEnd] at same
  generalize readProgram _ (padding ++ input.toList) = padded at same ⊢
  generalize readProgram _ input.toList = plain at same bounded ⊢
  obtain ⟨value, s⟩ := padded
  obtain ⟨value, t⟩ := plain
  obtain rfl := same.value
  exact judge_behind same bounded.1 bounded.2

end Errors

/-- Blanks and newlines in front of a command line move what is told about it and change nothing else: it has
the same tree; or the same syntax error with the same message, as many bytes further on; or a here-document,
told where its operator stands behind the padding; or it is nested too deep as well. -/
theorem padding_moves_results (config : Config) (unlimited : config.maxInputLength = 0) (padding : List Char)
    (isLayout : ∀ ch ∈ padding, ch = ' ' ∨ ch = '\t' ∨ ch = '\n') (input : String) :
    let padded := String.ofList padding ++ input
    (∀ tree, parse config padded = .ok tree ↔ parse config input = .ok tree) ∧
      (∀ e, parse config padded = .error (.malformed e) ↔
        ∃ f, parse config input = .error (.malformed f) ∧ e.message = f.message ∧
          e = { f with input := padded, offset := byteLength padding + f.offset }) ∧
      (∀ line column, parse config padded = .error (.hereDocument line column) ↔
        ∃ location : Location, parse config input = .error (.hereDocument location.line location.column) ∧
          line = (location.behind padding).line ∧ column = (location.behind padding).column) ∧
      (∀ limit, parse config padded = .error (.nestingTooDeep limit) ↔
        parse config input = .error (.nestingTooDeep limit)) ∧
      ∀ offset, locate padded (byteLength padding + offset) = (locate input offset).behind padding := by
  have moved := parse_behind unlimited isLayout input
  have within : ∀ e, parse config input = .error (.malformed e) → e.input = input := by
    intro e malformed
    obtain ⟨-, rfl⟩ := malformed_remains malformed
    rfl
  dsimp only
  rw [moved]
  generalize parse config input = result at within ⊢
  refine ⟨?tree, fun e => ⟨?malformed, ?malformedThen⟩, fun line column => ⟨?hereDocument, ?hereDocumentThen⟩,
    fun limit => ⟨?deep, ?deepThen⟩, locate_behind padding input⟩
  case tree => cases result <;> simp
  case malformed =>
    rcases result with (f | _ | _ | _) | _
    · rintro ⟨⟩
      exact ⟨f, rfl, rfl, by rw [within f rfl]⟩
    all_goals rintro ⟨⟩
  case malformedThen =>
    rintro ⟨f, rfl, -, rfl⟩
    simp only [ParseError.behind, within f rfl]
  case hereDocument =>
    rcases result with (_ | ⟨line, column⟩ | _ | _) | _
    case error.hereDocument =>
      rintro ⟨⟩
      exact ⟨⟨line, column, []⟩, rfl, rfl, rfl⟩
    all_goals rintro ⟨⟩
  case hereDocumentThen =>
    rintro ⟨location, rfl, rfl, rfl⟩
    rfl
  case deep =>
    rcases result with (_ | _ | _ | _) | _
    all_goals rintro ⟨⟩
    rfl
  case deepThen =>
    rintro rfl
    rfl

theorem padding_moves_brackets :
    let config : Config := { maxInputLength := 0, maxDepth := 2 }
    let padding := ['\t', '\n', ' ', '\n', ' ', ' ']
    (∃ tree, parse config "a; b" = .ok tree ∧ parse config (String.ofList padding ++ "a; b") = .ok tree) ∧
      (∃ e f, parse config (String.ofList padding ++ ")") = .error (.malformed e) ∧
        parse config ")" = .error (.malformed f) ∧ e.message = f.message ∧ .token .newline ∈ f.expected ∧
          f.offset = 0 ∧ e.offset = 6) ∧
      parse config (String.ofList padding ++ "a <<b") = .error (.hereDocument 3 5) ∧
      parse config (String.ofList padding ++ "a\nb <<c") = .error (.hereDocument 4 3) ∧
      parse config (String.ofList padding ++ "(((a)))") = .error (.nestingTooDeep 2) := by
  intro config padding
  have isLayout : ∀ ch ∈ padding, ch = ' ' ∨ ch = '\t' ∨ ch = '\n' := by decide
  have moves := padding_moves_results config rfl padding isLayout
  refine ⟨?list, ?bracket, ?first, ?second, ?deep⟩
  case list =>
    obtain ⟨tree, parsed, -⟩ := parse_ok_of_view config "a; b" (fun _ => ()) () (by decide +kernel)
    exact ⟨tree, parsed, ((moves "a; b").1 tree).mpr parsed⟩
  case bracket =>
    let plain : SyntaxError :=
      { expected := ["!", "<", "<&", "<<", "<<-", "<>", ">", ">&", ">>", ">|"].map .literal ++
          [.digit, .name, .newline, .unquoted].map .token ++ [.endOfInput]
        found := some ')', input := ")", offset := 0, style := .context }
    have told : parse config ")" = .error (.malformed plain) := by decide +kernel
    let padded : SyntaxError := { plain with input := String.ofList padding ++ ")", offset := 6 }
    have moved := ((moves ")").2.1 padded).mpr ⟨plain, told, rfl, rfl⟩
    exact ⟨padded, plain, moved, told, rfl, by decide, rfl, rfl⟩
  case first => exact ((moves "a <<b").2.2.1 3 5).mpr ⟨⟨1, 3, []⟩, by decide +kernel, rfl, rfl⟩
  case second => exact ((moves "a\nb <<c").2.2.1 4 3).mpr ⟨⟨2, 3, []⟩, by decide +kernel, rfl, rfl⟩
  case deep => exact ((moves "(((a)))").2.2.2.1 2).mpr (by decide +kernel)

end ShellLine
