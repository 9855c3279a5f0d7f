import ShellLine.Proofs.Source.Location

set_option autoImplicit false

namespace ShellLine

open Text

def lastLine (text : List Char) : List Char := (text.reverse.takeWhile (· ≠ '\n')).reverse

-- Where a location is when a text stands in front of its source.
def Location.behind (front : List Char) (location : Location) : Location where
  line := front.count '\n' + location.line
  column := if location.line = 1 then (lastLine front).length + location.column else location.column
  lineContent := if location.line = 1 then lastLine front ++ location.lineContent else location.lineContent

theorem count_newlines {text last : List Char} {lines : List (List Char)} (placed : Placed text lines last []) :
    text.count '\n' = lines.length := by
  obtain ⟨rfl, ended, unended⟩ := placed
  rw [List.append_nil, List.count_append, List.count_eq_zero.mpr unended, Nat.add_zero]
  induction lines with
  | nil => rfl
  | cons first lines ih =>
      obtain ⟨plain, others⟩ := List.forall_mem_cons.mp ended
      rw [ended_lines_cons, List.count_append, List.count_eq_zero.mpr plain, List.count_cons_self, ih others,
        List.length_cons, Nat.zero_add]

theorem last_line_placed {text last : List Char} {lines : List (List Char)} (placed : Placed text lines last []) :
    lastLine text = last := by
  obtain ⟨rfl, -, unended⟩ := placed
  have plain : '\n' ∉ last.reverse := fun member => unended (List.mem_reverse.mp member)
  have stops : (endedLines lines).reverse.takeWhile (· ≠ '\n') = [] := by
    rcases List.eq_nil_or_concat lines with rfl | ⟨init, content, rfl⟩
    · rfl
    · simp [endedLines]
  rw [lastLine, List.append_nil, List.reverse_append, take_line plain, stops, List.append_nil, List.reverse_reverse]

namespace Location

variable {line column : Nat} {fromStart : List Char}

theorem line_le_advance (text : List Char) (n : Nat) : line ≤ (advance line column fromStart text n).line := by
  fun_induction advance line column fromStart text n with
  | case1 | case2 => exact Nat.le_refl _
  | case3 _ _ _ _ _ _ ih => exact Nat.le_of_succ_le ih
  | case4 _ _ _ _ _ _ _ _ ih => exact ih

theorem advance_lower (lines : Nat) (text : List Char) (n : Nat) :
    advance (lines + line) column fromStart text n =
      { advance line column fromStart text n with line := lines + (advance line column fromStart text n).line } := by
  fun_induction advance line column fromStart text n with
  | case1 => rfl
  | case2 => exact advance_zero _
  | case3 _ _ _ _ _ ahead ih =>
      rw [advance_cons ahead, if_pos rfl]
      exact ih
  | case4 _ _ _ _ _ _ ahead newline ih =>
      rw [advance_cons ahead, if_neg newline]
      exact ih

theorem advance_further (more : List Char) (plain : '\n' ∉ more) (text : List Char) (n : Nat) :
    advance line (more.length + column) (more ++ fromStart) text n =
      if (advance line column fromStart text n).line = line then
        ⟨line, more.length + (advance line column fromStart text n).column,
          more ++ (advance line column fromStart text n).lineContent⟩
      else advance line column fromStart text n := by
  induction text generalizing column n with
  | nil => rw [advance, advance, if_pos rfl, take_line plain]
  | cons c rest ih =>
      by_cases stop : n = 0
      · subst stop
        rw [advance_zero, advance_zero, if_pos rfl, take_line plain]
      · rw [advance_cons stop, advance_cons stop]
        by_cases newline : c = '\n'
        · have lower : line + 1 ≤ (advance (line + 1) 1 rest rest (n - c.utf8Size)).line := line_le_advance _ _
          rw [if_pos newline, if_pos newline, if_neg (by omega)]
        · rw [if_neg newline, if_neg newline, Nat.add_assoc]
          exact ih (n - c.utf8Size)

end Location

theorem locate_behind (front : List Char) (source : String) (offset : Nat) :
    locate (String.ofList front ++ source) (byteLength front + offset) = (locate source offset).behind front := by
  obtain ⟨lines, last, placed⟩ := exists_lines front
  have count := count_newlines placed
  have ending := last_line_placed placed
  have whole : (String.ofList front ++ source).toList = endedLines lines ++ (last ++ source.toList) := by
    rw [String.toList_append, String.toList_ofList, placed.whole, List.append_nil, List.append_assoc]
  have bytes : byteLength front + offset = byteLength (endedLines lines) + (byteLength last + offset) := by
    rw [placed.whole, List.append_nil, byte_length_append, Nat.add_assoc]
  have started : 1 + lines.length = lines.length + 1 := Nat.add_comm ..
  rw [locate, whole, bytes, Location.advance_lines placed.ended, Location.advance_in_line placed.unended, started,
    Location.advance_lower, Nat.add_comm 1, Location.advance_further last placed.unended]
  rw [Location.behind, count, ending, locate]
  split
  · rename_i same
    rw [same]
  · rfl

end ShellLine
