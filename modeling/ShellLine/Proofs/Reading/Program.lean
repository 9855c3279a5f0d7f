import ShellLine.Parse
import ShellLine.Proofs.Grammar.Calls
import ShellLine.Proofs.Reading.Table

set_option autoImplicit false

namespace ShellLine

namespace Parser

abbrev Reads {α : Type} (p : Parser α) (c : Cursor) (value : α) (d : Cursor) : Prop :=
  p.Gives (reading grammar) c value d

abbrev Rejects {α : Type} (p : Parser α) (c : Cursor) : Prop := p.Fails (reading grammar) c

theorem reads_call (rule : Rule) (c d : Cursor) (node : Node) :
    (call rule).Reads c node d ↔ (grammar rule).Reads c node d := by
  change (reading grammar rule c).outcome = some (node, d) ↔ _
  rw [reading_grammar]
  rfl

theorem rejects_call (rule : Rule) (c : Cursor) :
    (call rule).Rejects c ↔ (grammar rule).Rejects c := by
  change (reading grammar rule c).outcome = none ↔ _
  rw [reading_grammar]
  rfl

theorem reads_forward {α : Type} {p : Parser α} {c d : Cursor} {value : α}
    (read : p.Reads c value d) : d.rest <:+ c.rest :=
  gives_forward (reading_forward grammar) read

theorem reads_left_le {α : Type} {p : Parser α} {c d : Cursor} {value : α}
    (read : p.Reads c value d) : d.left ≤ c.left :=
  Cursor.left_le_of_suffix d c (reads_forward read)

section Steps

variable {α β : Type} {p q : Parser α} {next : α → Parser β} {c d e : Cursor}

theorem reads_pure (a : α) (c : Cursor) : (pure a : Parser α).Reads c a c :=
  (gives_pure a a c c).mpr ⟨rfl, rfl⟩

theorem reads_bind {a : α} {b : β} (first : p.Reads c a d) (later : (next a).Reads d b e) :
    (p >>= next).Reads c b e := (gives_bind p next c e b).mpr ⟨a, d, first, later⟩

theorem reads_atomic {a : α} (read : p.Reads c a d) : (atomic p).Reads c a d :=
  (gives_atomic p c d a).mpr read

theorem reads_first {a : α} (read : p.Reads c a d) : (p <|> q).Reads c a d :=
  (gives_or_else p q c d a).mpr (Or.inl read)

theorem reads_second {a : α} (rejected : p.Rejects c) (read : q.Reads c a d) :
    (p <|> q).Reads c a d := (gives_or_else p q c d a).mpr (Or.inr ⟨rejected, read⟩)

theorem reads_tried {a : α} (read : p.Reads c a d) : (attempt p).Reads c (some a) d :=
  (gives_attempt p c d (some a)).mpr (Or.inl ⟨a, rfl, read⟩)

theorem reads_missed (rejected : p.Rejects c) : (attempt p).Reads c none c :=
  (gives_attempt p c c none).mpr (Or.inr ⟨rfl, rejected, rfl⟩)

theorem reads_many {values : List α} (items : Items (reading grammar) p c values d) :
    (many p).Reads c values d := (gives_many p c d values).mpr items

theorem reads_rounds {turn : Parser (Turn α)} {values : List α}
    (turns : Turns (reading grammar) turn c values d) : (rounds turn).Reads c values d :=
  (gives_rounds turn c d values).mpr turns

end Steps

end Parser

theorem program_follows (mode : Mode) (text : List Char) :
    Follows grammar text mode 0 (.start text) (readProgram mode text)
      (Grammar.program.read (reading grammar) (.start text)) := by
  refine run_follows (evaluate_simulates grammar text mode) Grammar.program 0 (.start text)
    (List.suffix_refl text) ?_ rfl
  intro rule c entry _ found
  simp [State.start] at found

theorem program_reads (text : List Char) :
    ∃ tree d, Grammar.program.Reads (.start text) tree d := by
  rcases Parser.gives_or_fails (reading grammar) Grammar.program (.start text) with
    given | failed
  · exact given
  · simp only [Grammar.program, Parser.fails_bind, Grammar.fails_blanks,
      Grammar.fails_line_break, false_or, Parser.fails_pure, and_false, exists_false, or_false]
      at failed
    obtain ⟨_, c, -, _, d, -, failed⟩ := failed
    simp [Grammar.completeCommands] at failed

theorem program_faithful (mode : Mode) (text : List Char) (tree : Node) (d : Cursor)
    (read : Grammar.program.Reads (.start text) tree d)
    (shallow : (readProgram mode text).2.tooDeep = false) :
    (readProgram mode text).1 = some tree ∧ (readProgram mode text).2.cursor = d ∧
      (readProgram mode text).2.failure.Agrees ((State.start text).failure.absorb
        (Grammar.program.read (reading grammar) (.start text)).notes) := by
  have faithful := (program_follows mode text).faithful shallow
  refine ⟨?_, faithful.cursor tree d read, faithful.failure⟩
  rw [faithful.value]
  rw [read]
  rfl

theorem parse_ok_short (config : Config) (input : String) (tree : Node)
    (parsed : parse config input = .ok tree) :
    config.maxInputLength = 0 ∨ Text.byteLength input.toList ≤ config.maxInputLength := by
  rw [parse, parseWith] at parsed
  by_cases long : config.maxInputLength ≠ 0 ∧ config.maxInputLength < Text.byteLength input.toList
  · rw [if_pos long] at parsed
    cases parsed
  · omega

theorem parse_with_judges (keeps : Bool) (config : Config) (input : String)
    (short : config.maxInputLength = 0 ∨ Text.byteLength input.toList ≤ config.maxInputLength) :
    parseWith keeps config input =
      judge config input (readProgram ⟨keeps, config.maxDepth⟩ input.toList).1
        (readProgram ⟨keeps, config.maxDepth⟩ input.toList).2 := by
  have allowed : ¬ (config.maxInputLength ≠ 0 ∧
      config.maxInputLength < Text.byteLength input.toList) := by omega
  rw [parseWith, if_neg allowed]

theorem parse_ok (config : Config) (input : String) (tree : Node)
    (parsed : parse config input = .ok tree) :
    ∃ d, Grammar.program.Reads (.start input.toList) tree d ∧ d.rest = [] ∧
      tree.firstHereDocument? = none := by
  obtain ⟨other, d, read⟩ := program_reads input.toList
  have short := parse_ok_short config input tree parsed
  rw [parse, parse_with_judges true config input short] at parsed
  simp only [judge] at parsed
  cases deep : (readProgram ⟨true, config.maxDepth⟩ input.toList).2.tooDeep with
  | true => simp [deep] at parsed
  | false =>
      obtain ⟨value, cursor, -⟩ := program_faithful _ _ other d read deep
      simp only [deep, value, cursor] at parsed
      cases rest : d.rest with
      | cons c others => simp [rest] at parsed
      | nil =>
          cases mark : other.firstHereDocument? with
          | some m => simp [rest, mark] at parsed
          | none =>
              simp [rest, mark] at parsed
              subst parsed
              exact ⟨d, read, rest, mark⟩

theorem parse_of_whole (config : Config) (text : List Char) (tree : Node) (d : Cursor)
    (short : config.maxInputLength = 0 ∨ Text.byteLength text ≤ config.maxInputLength)
    (read : Grammar.program.Reads (.start text) tree d) (whole : d.rest = [])
    (noHereDocument : tree.firstHereDocument? = none) :
    parse config (String.ofList text) =
      if (readProgram ⟨true, config.maxDepth⟩ text).2.tooDeep then
        .error (.nestingTooDeep config.maxDepth)
      else .ok tree := by
  have allowed : config.maxInputLength = 0 ∨
      Text.byteLength (String.ofList text).toList ≤ config.maxInputLength := by
    rwa [String.toList_ofList]
  rw [parse, parse_with_judges true config _ allowed, String.toList_ofList]
  simp only [judge]
  cases deep : (readProgram ⟨true, config.maxDepth⟩ text).2.tooDeep with
  | true => rfl
  | false =>
      obtain ⟨value, cursor, -⟩ := program_faithful ⟨true, config.maxDepth⟩ text tree d read deep
      simp [value, cursor, whole, noHereDocument]

theorem parse_ok_shallow (config : Config) (input : String) (tree : Node)
    (limited : 0 < config.maxDepth) (parsed : parse config input = .ok tree) :
    (Grammar.program.read (reading grammar) (.start input.toList)).depth ≤ config.maxDepth ∨
      parseWith false config input = .error (.nestingTooDeep config.maxDepth) := by
  cases deep : (readProgram ⟨false, config.maxDepth⟩ input.toList).2.tooDeep with
  | true =>
      have short := parse_ok_short config input tree parsed
      rw [parse_with_judges false config input short]
      simp only [judge, if_pos deep, or_true]
  | false =>
      apply Or.inl
      have fits := (program_follows ⟨false, config.maxDepth⟩ input.toList).plain deep rfl
      rw [Fits] at fits
      dsimp only at fits
      omega

theorem parse_of_reads (style : ErrorStyle) (text : List Char) (tree : Node) (d : Cursor)
    (read : Grammar.program.Reads (.start text) tree d) (whole : d.rest = [])
    (noHereDocument : tree.firstHereDocument? = none) :
    parse { Config.unlimited with errorStyle := style } (String.ofList text) = .ok tree := by
  rw [parse_of_whole _ text tree d (Or.inl rfl) read whole noHereDocument]
  refine if_neg fun deep => ?_
  exact absurd (Or.inl rfl) ((program_follows ⟨true, 0⟩ text).deep deep)

theorem parse_ok_of_view {α : Type} (config : Config) (input : String) (view : Node → α) (seen : α)
    (found : (parse config input).toOption.map view = some seen) :
    ∃ tree, parse config input = .ok tree ∧ view tree = seen := by
  cases parsed : parse config input with
  | error e =>
      rw [parsed] at found
      cases found
  | ok tree =>
      rw [parsed] at found
      exact ⟨tree, rfl, Option.some.inj found⟩

end ShellLine
