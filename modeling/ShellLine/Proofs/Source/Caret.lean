import ShellLine.Proofs.Source.Location

set_option autoImplicit false

namespace ShellLine

open Text

-- The last two lines of a block: the line of a place of a source behind a lead, parted where the place
-- is, and a line with a caret in a column.
structure EndsWithCaret (block source : String) (offset : Nat) (lead before behind : List Char) (column : Nat) :
    Prop where
  place : ∃ lines after, Placed source.toList lines before after ∧
    byteLength (endedLines lines) + byteLength before = offset ∧ after.takeWhile (· ≠ '\n') = behind
  lines : ∃ earlier under, block.toList.splitOn '\n' = earlier ++ [lead ++ (before ++ behind), under ++ ['^']] ∧
    under.length = column ∧ '^' ∉ under

-- The caret in the last line of a block stands so many columns left of what the line above it shows of
-- a source from an offset on; at the end of a line this is the column behind its last character.
def CaretShort (block source : String) (offset short : Nat) : Prop :=
  ∃ lead before behind column, EndsWithCaret block source offset lead before behind column ∧
    column + short = lead.length + before.length

section Blocks

variable {block source : String} {offset short other : Nat} {lines : List (List Char)}
  {before behind after : List Char}

-- The columns are counted in the block and in the source, so they can differ in one way only.
theorem caret_short_unique (first : CaretShort block source offset short)
    (second : CaretShort block source offset other) : short = other := by
  obtain ⟨lead, before, behind, column, ⟨⟨lines, after, placed, ends, rfl⟩, earlier, under, split, width, -⟩, apart⟩ :=
    first
  obtain ⟨leadThen, beforeThen, behindThen, columnThen, ⟨⟨linesThen, afterThen, placedThen, endsThen, rfl⟩,
    earlierThen, underThen, splitThen, widthThen, -⟩, apartThen⟩ := second
  have located := locate_placed placed
  have locatedThen := locate_placed placedThen
  rw [ends] at located
  rw [endsThen, located, Location.mk.injEq] at locatedThen
  obtain ⟨-, columns, content⟩ := locatedThen
  rw [split] at splitThen
  obtain ⟨-, last⟩ := List.append_inj' splitThen rfl
  obtain ⟨shown, carets⟩ := List.cons.inj last
  rw [content] at shown
  have leads := congrArg List.length (List.append_cancel_right shown)
  have unders := congrArg List.length (List.append_cancel_right (List.cons.inj carets).1)
  omega

theorem caret_line_plain (column : Nat) : '\n' ∉ caretLine column := by
  simp [caretLine]

theorem split_block {head shown caret : List Char} (plain : '\n' ∉ shown) (caretPlain : '\n' ∉ caret) :
    (head ++ '\n' :: (shown ++ '\n' :: caret)).splitOn '\n' = head.splitOn '\n' ++ [shown, caret] := by
  rw [List.splitOn_append_cons_self, List.splitOn_append_cons_self_of_not_mem plain,
    List.splitOn_eq_singleton caretPlain]

theorem line_plain (placed : Placed source.toList lines before after) :
    '\n' ∉ before ++ after.takeWhile (· ≠ '\n') := by
  have plain := content_one_line source (byteLength (endedLines lines) + byteLength before)
  rwa [locate_placed placed] at plain

theorem number_plain (n : Nat) : '\n' ∉ Nat.toDigits 10 n := by
  intro member
  have digit := Nat.isDigit_of_mem_toDigits (by decide) (by decide) member
  cases digit

theorem caret_of_line (placed : Placed source.toList lines before after) :
    CaretShort (caretContext source (byteLength (endedLines lines) + byteLength before)) source
      (byteLength (endedLines lines) + byteLength before) 0 := by
  have plain := line_plain placed
  refine ⟨[], before, _, before.length, ⟨⟨lines, after, placed, rfl, rfl⟩,
    [], List.replicate before.length ' ', ?_, by simp, by simp⟩, by simp⟩
  rw [caretContext, locate_placed placed, String.toList_ofList, List.splitOn_append_cons_self_of_not_mem plain,
    List.splitOn_eq_singleton (caret_line_plain _), caretLine, Nat.add_sub_cancel_left]
  rfl

theorem pad_left_length (width : Nat) (chars : List Char) :
    (padLeft width chars).length = max width chars.length := by
  rw [padLeft, List.length_append, List.length_replicate]
  omega

theorem pad_left_plain {chars : List Char} (plain : '\n' ∉ chars) (width : Nat) : '\n' ∉ padLeft width chars := by
  simp [padLeft, plain]

theorem diagnostic_chars (source message : String) (offset : Nat) :
    (diagnosticContext source offset message).toList =
      "error: ".toList ++ message.toList ++ "\n  --> line ".toList ++ Nat.toDigits 10 (locate source offset).line ++
        ", column ".toList ++ Nat.toDigits 10 (locate source offset).column ++ "\n   |\n".toList ++
        padLeft 3 (Nat.toDigits 10 (locate source offset).line) ++ " | ".toList ++
        (locate source offset).lineContent ++ "\n   | ".toList ++ caretLine (locate source offset).column :=
  String.toList_ofList

theorem diagnostic_block (source message : String) (offset : Nat) :
    ∃ head, (diagnosticContext source offset message).toList = head ++ '\n' ::
      (padLeft 3 (Nat.toDigits 10 (locate source offset).line) ++ " | ".toList ++
        (locate source offset).lineContent ++ '\n' ::
          ("   | ".toList ++ caretLine (locate source offset).column)) := by
  have corner : "\n   |\n".toList = "\n   |".toList ++ ['\n'] := by decide
  have ruler : "\n   | ".toList = '\n' :: "   | ".toList := by decide
  rw [diagnostic_chars, corner, ruler]
  refine ⟨"error: ".toList ++ message.toList ++ "\n  --> line ".toList ++
    Nat.toDigits 10 (locate source offset).line ++ ", column ".toList ++
      Nat.toDigits 10 (locate source offset).column ++ "\n   |".toList, ?_⟩
  simp only [List.append_assoc, List.cons_append, List.nil_append]

-- The ruler beside the caret is two columns short of the number and the ruler behind it.
theorem caret_of_numbered_line (placed : Placed source.toList lines before after) (message : String) :
    CaretShort (diagnosticContext source (byteLength (endedLines lines) + byteLength before) message) source
      (byteLength (endedLines lines) + byteLength before)
      (max 3 (Nat.toDigits 10 (1 + lines.length)).length - 2) := by
  obtain ⟨head, block⟩ := diagnostic_block source message (byteLength (endedLines lines) + byteLength before)
  rw [locate_placed placed] at block
  have leadPlain : '\n' ∉ padLeft 3 (Nat.toDigits 10 (1 + lines.length)) ++ " | ".toList := by
    simp [pad_left_plain (number_plain _) 3]
  have shownPlain : '\n' ∉ padLeft 3 (Nat.toDigits 10 (1 + lines.length)) ++ " | ".toList ++
      (before ++ after.takeWhile (· ≠ '\n')) :=
    fun member => (List.mem_append.mp member).elim leadPlain (line_plain placed)
  have caretPlain : '\n' ∉ "   | ".toList ++ caretLine (1 + before.length) := by
    simp [caret_line_plain]
  have ruler : "   | ".length = 5 := rfl
  have numberRuler : " | ".length = 3 := rfl
  refine ⟨padLeft 3 (Nat.toDigits 10 (1 + lines.length)) ++ " | ".toList, before, _, 5 + before.length,
    ⟨⟨lines, after, placed, rfl, rfl⟩,
      head.splitOn '\n', "   | ".toList ++ List.replicate before.length ' ', ?_, ?_, by simp⟩, ?_⟩
  · rw [block, split_block shownPlain caretPlain, caretLine, Nat.add_sub_cancel_left, List.append_assoc "   | ".toList]
  · rw [List.length_append, String.length_toList, ruler, List.length_replicate]
  · rw [List.length_append, pad_left_length, String.length_toList, numberRuler]
    omega

end Blocks

/-- Whatever the message, the caret of a line that stands by itself is under what is at its offset, and the
caret of a numbered line is one column left of it while the number has at most three digits, and one more for
each further digit. -/
theorem carets_stand (source message : String) (offset : Nat) (between : (⟨offset⟩ : String.Pos.Raw).IsValid source) :
    (∀ short, CaretShort (caretContext source offset) source offset short ↔ short = 0) ∧
      ∀ short, CaretShort (diagnosticContext source offset message) source offset short ↔
        short + 2 = max 3 (Nat.toDigits 10 (locate source offset).line).length := by
  obtain ⟨lines, before, after, placed, rfl⟩ := placed_of_valid between
  have number : (locate source _).line = 1 + lines.length := congrArg Location.line (locate_placed placed)
  have line := caret_of_line placed
  have numbered := caret_of_numbered_line placed message
  rw [← number] at numbered
  constructor
  · intro short
    constructor
    · exact fun stands => caret_short_unique stands line
    · rintro rfl
      exact line
  · intro short
    constructor
    · intro stands
      have same := caret_short_unique stands numbered
      omega
    · intro width
      rw [Nat.eq_sub_of_add_eq width]
      exact numbered

theorem carets_stand_in_second_line :
    (⟨4⟩ : String.Pos.Raw).IsValid "é\nab" ∧ caretContext "é\nab" 4 = "ab\n ^" ∧
      CaretShort (caretContext "é\nab" 4) "é\nab" 4 0 ∧
      diagnosticContext "é\nab" 4 "m" = "error: m\n  --> line 2, column 2\n   |\n  2 | ab\n   |  ^" ∧
      CaretShort (diagnosticContext "é\nab" 4 "m") "é\nab" 4 1 := by
  have between : (⟨4⟩ : String.Pos.Raw).IsValid "é\nab" := by decide +kernel
  obtain ⟨line, numbered⟩ := carets_stand "é\nab" "m" 4 between
  exact ⟨between, by decide +kernel, (line 0).mpr rfl, by decide +kernel, (numbered 1).mpr (by decide +kernel)⟩

theorem numbered_caret_left_of_place : ¬ CaretShort (diagnosticContext "a" 0 "m") "a" 0 0 := by
  have placed : Placed "a".toList [] [] ['a'] := ⟨rfl, List.forall_mem_nil _, List.not_mem_nil⟩
  intro under
  have short := caret_short_unique under (caret_of_numbered_line placed "m")
  exact absurd short (by decide)

end ShellLine
