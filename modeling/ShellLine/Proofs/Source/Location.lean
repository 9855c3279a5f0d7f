import Mathlib.Data.List.Basic
import ShellLine.Proofs.Text.Boundaries
import ShellLine.Source.Location

set_option autoImplicit false

namespace ShellLine

open Text

def endedLines (lines : List (List Char)) : List Char := lines.flatMap (· ++ ['\n'])

-- A place in a text: the lines that have ended in front of it, what stands in front of it in its own
-- line, and all that is behind it.
structure Placed (text : List Char) (lines : List (List Char)) (last after : List Char) : Prop where
  whole : text = endedLines lines ++ (last ++ after)
  ended : ∀ line ∈ lines, '\n' ∉ line
  unended : '\n' ∉ last

def bytesBeforeLine (source : String) (line : Nat) : Nat :=
  byteLength (endedLines ((source.toList.splitOn '\n').take (line - 1)))

-- A location names the place in front of a column in a line, each counted from 1, by its offset.
structure Location.PointsAt (location : Location) (source : String) (offset : Nat) : Prop where
  line : 1 ≤ location.line
  content : (source.toList.splitOn '\n')[location.line - 1]? = some location.lineContent
  column : 1 ≤ location.column
  within : location.column - 1 ≤ location.lineContent.length
  offset : bytesBeforeLine source location.line +
    byteLength (location.lineContent.take (location.column - 1)) = offset

section Lines

variable {lines : List (List Char)} {text last after : List Char}

@[simp] theorem ended_lines_nil : endedLines [] = [] := rfl

@[simp] theorem ended_lines_cons (first : List Char) (lines : List (List Char)) :
    endedLines (first :: lines) = first ++ '\n' :: endedLines lines := by
  simp [endedLines]

theorem bytes_ended_lines_cons (first : List Char) (lines : List (List Char)) :
    byteLength (endedLines (first :: lines)) = byteLength first + (1 + byteLength (endedLines lines)) := by
  rw [ended_lines_cons, byte_length_append]
  rfl

theorem bytes_ended_lines_append (lines more : List (List Char)) :
    byteLength (endedLines (lines ++ more)) = byteLength (endedLines lines) + byteLength (endedLines more) := by
  rw [endedLines, List.flatMap_append, byte_length_append]
  rfl

theorem placed_behind_line {first : List Char} (plain : '\n' ∉ first) (placed : Placed text lines last after) :
    Placed (first ++ '\n' :: text) (first :: lines) last after where
  whole := by rw [placed.whole, ended_lines_cons, List.append_assoc, List.cons_append]
  ended := List.forall_mem_cons.mpr ⟨plain, placed.ended⟩
  unended := placed.unended

theorem exists_lines (text : List Char) : ∃ lines last, Placed text lines last [] := by
  induction text with
  | nil => exact ⟨[], [], rfl, List.forall_mem_nil _, List.not_mem_nil⟩
  | cons c rest ih =>
      obtain ⟨lines, last, rfl, ended, unended⟩ := ih
      by_cases newline : c = '\n'
      · subst newline
        exact ⟨[] :: lines, last, placed_behind_line List.not_mem_nil ⟨rfl, ended, unended⟩⟩
      · cases lines with
        | nil => exact ⟨[], c :: last, rfl, ended, by simp [Ne.symm newline, unended]⟩
        | cons first lines =>
            obtain ⟨plain, others⟩ := List.forall_mem_cons.mp ended
            refine ⟨(c :: first) :: lines, last, by simp, ?_, unended⟩
            exact List.forall_mem_cons.mpr ⟨by simp [Ne.symm newline, plain], others⟩

theorem exists_place (before after : List Char) : ∃ lines last,
    Placed (before ++ after) lines last after ∧ before = endedLines lines ++ last := by
  obtain ⟨lines, last, rfl, ended, unended⟩ := exists_lines before
  exact ⟨lines, last, ⟨by simp, ended, unended⟩, by simp⟩

theorem split_ended_lines (ended : ∀ line ∈ lines, '\n' ∉ line) (rest : List Char) :
    (endedLines lines ++ rest).splitOn '\n' = lines ++ rest.splitOn '\n' := by
  induction lines with
  | nil => rfl
  | cons first lines ih =>
      obtain ⟨plain, others⟩ := List.forall_mem_cons.mp ended
      rw [ended_lines_cons, List.append_assoc, List.cons_append,
        List.splitOn_append_cons_self_of_not_mem plain, ih others, List.cons_append]

theorem take_line (plain : '\n' ∉ last) (after : List Char) :
    (last ++ after).takeWhile (· ≠ '\n') = last ++ after.takeWhile (· ≠ '\n') :=
  List.takeWhile_append_of_pos fun _ member => decide_eq_true fun same => plain (same ▸ member)

theorem split_first_line (text : List Char) :
    ∃ others, text.splitOn '\n' = text.takeWhile (· ≠ '\n') :: others := by
  have plain : '\n' ∉ text.takeWhile (· ≠ '\n') := fun member => by
    simpa using List.all_eq_true.mp List.all_takeWhile _ member
  have whole := List.takeWhile_append_dropWhile (p := (· ≠ '\n')) (l := text)
  cases dropped : text.dropWhile (· ≠ '\n') with
  | nil =>
      rw [dropped, List.append_nil] at whole
      rw [whole] at plain ⊢
      exact ⟨[], List.splitOn_eq_singleton plain⟩
  | cons c rest =>
      have stops := List.head?_dropWhile_not (· ≠ '\n') text
      rw [dropped] at stops whole
      obtain rfl : c = '\n' := by simpa using stops
      refine ⟨rest.splitOn '\n', ?_⟩
      rw [← List.splitOn_append_cons_self_of_not_mem plain, whole]

theorem split_placed (placed : Placed text lines last after) : ∃ others,
    text.splitOn '\n' = lines ++ (last ++ after.takeWhile (· ≠ '\n')) :: others := by
  obtain ⟨others, first⟩ := split_first_line (last ++ after)
  exact ⟨others, by rw [placed.whole, split_ended_lines placed.ended, first, take_line placed.unended]⟩

theorem line_placed {i : Nat} {content : List Char} (text : List Char)
    (found : (text.splitOn '\n')[i]? = some content) :
    ∃ lines rest, Placed text lines content rest ∧ lines.length = i ∧ rest.takeWhile (· ≠ '\n') = [] := by
  obtain ⟨all, last, rfl, ended, unended⟩ := exists_lines text
  rw [List.append_nil, split_ended_lines ended, List.splitOn_eq_singleton unended] at found
  rw [List.append_nil]
  induction all generalizing i with
  | nil =>
      obtain ⟨rfl, rfl⟩ : i = 0 ∧ last = content := by cases i <;> simp_all
      exact ⟨[], [], ⟨by simp, ended, unended⟩, rfl, rfl⟩
  | cons first others ih =>
      obtain ⟨plain, later⟩ := List.forall_mem_cons.mp ended
      rw [ended_lines_cons, List.append_assoc, List.cons_append]
      cases i with
      | zero =>
          obtain rfl : first = content := by simpa using found
          exact ⟨[], '\n' :: (endedLines others ++ last), ⟨rfl, List.forall_mem_nil _, plain⟩, rfl, rfl⟩
      | succ i =>
          obtain ⟨lines, rest, placed, rfl, stops⟩ := ih later (by simpa using found)
          exact ⟨first :: lines, rest, placed_behind_line plain placed, rfl, stops⟩

end Lines

namespace Location

variable {line column : Nat} {fromStart : List Char}

theorem advance_zero (after : List Char) :
    advance line column fromStart after 0 = ⟨line, column, fromStart.takeWhile (· ≠ '\n')⟩ := by
  cases after <;> rfl

theorem advance_cons {c : Char} {rest : List Char} {n : Nat} (ahead : n ≠ 0) :
    advance line column fromStart (c :: rest) n =
      if c = '\n' then advance (line + 1) 1 rest rest (n - c.utf8Size)
      else advance line (column + 1) fromStart rest (n - c.utf8Size) := by
  rw [advance, if_neg ahead]

theorem advance_newline (rest : List Char) (n : Nat) :
    advance line column fromStart ('\n' :: rest) (1 + n) = advance (line + 1) 1 rest rest n := by
  rw [advance_cons (by omega), if_pos rfl]
  exact congrArg _ (Nat.add_sub_cancel_left 1 n)

theorem advance_in_line {passed : List Char} (plain : '\n' ∉ passed) (after : List Char) (n : Nat) :
    advance line column fromStart (passed ++ after) (byteLength passed + n) =
      advance line (column + passed.length) fromStart after n := by
  induction passed generalizing column with
  | nil => rw [byteLength, Nat.zero_add]; rfl
  | cons c passed ih =>
      obtain ⟨same, others⟩ := not_or.mp (List.mem_cons.not.mp plain)
      have wide := c.utf8Size_pos
      rw [byteLength, Nat.add_assoc, List.cons_append, advance_cons (by omega), if_neg (Ne.symm same),
        Nat.add_sub_cancel_left, ih others, List.length_cons]
      exact congrArg (advance line · fromStart after n) (by omega)

theorem advance_lines {lines : List (List Char)} (ended : ∀ content ∈ lines, '\n' ∉ content)
    (rest : List Char) (n : Nat) :
    advance line 1 (endedLines lines ++ rest) (endedLines lines ++ rest) (byteLength (endedLines lines) + n) =
      advance (line + lines.length) 1 rest rest n := by
  induction lines generalizing line with
  | nil => rw [ended_lines_nil, byteLength, Nat.zero_add]; rfl
  | cons first lines ih =>
      obtain ⟨plain, others⟩ := List.forall_mem_cons.mp ended
      rw [bytes_ended_lines_cons, Nat.add_assoc, Nat.add_assoc, ended_lines_cons, List.append_assoc,
        List.cons_append, advance_in_line plain, advance_newline, ih others, List.length_cons]
      exact congrArg (advance · 1 rest rest n) (by omega)

theorem advance_past_end (text : List Char) {n : Nat} (past : byteLength text ≤ n) :
    advance line column fromStart text n = advance line column fromStart text (byteLength text) := by
  induction text generalizing line column fromStart n with
  | nil => rfl
  | cons c rest ih =>
      have wide := c.utf8Size_pos
      rw [byteLength] at past ⊢
      have later : byteLength rest ≤ n - c.utf8Size := by omega
      rw [advance_cons (by omega), advance_cons (by omega), Nat.add_sub_cancel_left, ih later, ih later]

theorem advance_one_line (line column : Nat) (fromLineStart chars : List Char) (offset : Nat) :
    '\n' ∉ (advance line column fromLineStart chars offset).lineContent := by
  have stops : ∀ text : List Char, '\n' ∉ text.takeWhile (· ≠ '\n') := fun text member => by
    simpa using List.all_eq_true.mp List.all_takeWhile _ member
  fun_induction advance line column fromLineStart chars offset with
  | case1 => exact stops _
  | case2 => exact stops _
  | case3 => assumption
  | case4 => assumption

end Location

section Located

variable {source : String} {lines : List (List Char)} {last after : List Char} {offset : Nat}
  {location : Location}

theorem locate_placed (placed : Placed source.toList lines last after) :
    locate source (byteLength (endedLines lines) + byteLength last) =
      ⟨1 + lines.length, 1 + last.length, last ++ after.takeWhile (· ≠ '\n')⟩ := by
  rw [locate, placed.whole, Location.advance_lines placed.ended, ← Nat.add_zero (byteLength last),
    Location.advance_in_line placed.unended, Location.advance_zero, take_line placed.unended]

theorem points_at_placed (placed : Placed source.toList lines last after) :
    Location.PointsAt ⟨1 + lines.length, 1 + last.length, last ++ after.takeWhile (· ≠ '\n')⟩ source
      (byteLength (endedLines lines) + byteLength last) := by
  obtain ⟨others, split⟩ := split_placed placed
  refine ⟨Nat.le_add_right .., ?_, Nat.le_add_right .., ?_, ?_⟩
  · rw [split, Nat.add_sub_cancel_left, List.getElem?_append_right (Nat.le_refl _), Nat.sub_self]
    rfl
  · rw [Nat.add_sub_cancel_left, List.length_append]
    exact Nat.le_add_right ..
  · rw [bytesBeforeLine, split, Nat.add_sub_cancel_left, List.take_left, Nat.add_sub_cancel_left, List.take_left]

theorem placed_of_points_at (points : location.PointsAt source offset) : ∃ lines last after,
    Placed source.toList lines last after ∧ byteLength (endedLines lines) + byteLength last = offset ∧
      location = ⟨1 + lines.length, 1 + last.length, last ++ after.takeWhile (· ≠ '\n')⟩ := by
  obtain ⟨line, column, content⟩ := location
  obtain ⟨counted, found, positive, within, rfl⟩ := points
  obtain ⟨lines, rest, placed, length, stops⟩ := line_placed _ found
  dsimp only at *
  have whole : content.take (column - 1) ++ content.drop (column - 1) = content := List.take_append_drop ..
  have plain : '\n' ∉ content.drop (column - 1) := fun member => placed.unended (List.mem_of_mem_drop member)
  refine ⟨lines, content.take (column - 1), content.drop (column - 1) ++ rest,
    ⟨?_, placed.ended, fun member => placed.unended (List.mem_of_mem_take member)⟩, ?_, ?_⟩
  · rw [← List.append_assoc (content.take _), whole, placed.whole]
  · rw [bytesBeforeLine, ← length, placed.whole, split_ended_lines placed.ended, List.take_left]
  · rw [take_line plain, stops, List.append_nil, whole, List.length_take_of_le within, length,
      Nat.add_sub_cancel' counted, Nat.add_sub_cancel' positive]

theorem valid_of_placed (placed : Placed source.toList lines last after) :
    (⟨byteLength (endedLines lines) + byteLength last⟩ : String.Pos.Raw).IsValid source := by
  refine String.Pos.Raw.isValid_iff_exists_append.mpr ⟨.ofList (endedLines lines ++ last), .ofList after, ?_, ?_⟩
  · rw [← String.ofList_append, List.append_assoc, ← placed.whole, String.ofList_toList]
  · rw [← byte_length_append, ← utf8_encode_size, ← String.toByteArray_ofList]
    rfl

theorem placed_of_valid (valid : (⟨offset⟩ : String.Pos.Raw).IsValid source) : ∃ lines last after,
    Placed source.toList lines last after ∧ byteLength (endedLines lines) + byteLength last = offset := by
  obtain ⟨before, after, rfl, ends⟩ := String.Pos.Raw.isValid_iff_exists_append.mp valid
  obtain ⟨lines, last, placed, whole⟩ := exists_place before.toList after.toList
  refine ⟨lines, last, after.toList, String.toList_append ▸ placed, ?_⟩
  rw [← byte_length_append, ← whole, ← utf8_encode_size, ← String.toByteArray_ofList, String.ofList_toList]
  exact (congrArg String.Pos.Raw.byteIdx ends).symm

theorem content_one_line (source : String) (offset : Nat) : '\n' ∉ (locate source offset).lineContent :=
  Location.advance_one_line 1 1 _ _ _

theorem locate_past_end (past : source.utf8ByteSize ≤ offset) :
    locate source offset = locate source source.utf8ByteSize := by
  rw [size_in_bytes] at past ⊢
  exact Location.advance_past_end source.toList past

end Located

section Order

variable {source : String} {offset further : Nat} {a b : Location}

theorem byte_length_le_of_prefix {chars more : List Char} (starts : chars <+: more) :
    byteLength chars ≤ byteLength more := by
  obtain ⟨rest, rfl⟩ := starts
  rw [byte_length_append]
  exact Nat.le_add_right ..

theorem offset_before_later_line (points : a.PointsAt source offset) {line : Nat} (later : a.line < line) :
    offset < bytesBeforeLine source line := by
  obtain ⟨counted, found, -, -, rfl⟩ := points
  rw [bytesBeforeLine, bytesBeforeLine]
  generalize source.toList.splitOn '\n' = rows at found ⊢
  obtain ⟨inside, content⟩ := List.getElem?_eq_some_iff.mp found
  have here : (rows.take (line - 1)).drop (a.line - 1) =
      a.lineContent :: (rows.take (line - 1)).drop (a.line - 1 + 1) := by
    rw [List.drop_eq_getElem_cons (by rw [List.length_take]; omega), List.getElem_take, content]
  have front : (rows.take (line - 1)).take (a.line - 1) = rows.take (a.line - 1) := by
    rw [List.take_take, Nat.min_eq_left (by omega)]
  have short := byte_length_le_of_prefix (List.take_prefix (a.column - 1) a.lineContent)
  rw [← List.take_append_drop (a.line - 1) (rows.take (line - 1)), bytes_ended_lines_append, front, here,
    bytes_ended_lines_cons]
  omega

theorem points_further (points : a.PointsAt source offset) (pointsThen : b.PointsAt source further)
    (less : offset < further) : a.line < b.line ∨ a.line = b.line ∧ a.column < b.column := by
  rcases Nat.lt_trichotomy a.line b.line with earlier | same | later
  · exact Or.inl earlier
  · refine Or.inr ⟨same, Nat.lt_of_not_le fun back => ?_⟩
    have content := points.content
    rw [same, pointsThen.content] at content
    have bytes := byte_length_le_of_prefix
      (List.take_prefix_take_left (l := a.lineContent) (Nat.sub_le_sub_right back 1))
    have start := points.offset
    have startThen := pointsThen.offset
    rw [same] at start
    rw [Option.some.inj content] at startThen
    omega
  · have bound := offset_before_later_line pointsThen later
    have start := points.offset
    omega

end Order

/-- Between two characters of a source the location that is told points at the offset and is the only one that
does; of two such offsets the larger one has the larger line, or the larger column in the same line; and an
offset past the end has the location of the end. -/
theorem locate_invertible (source : String) :
    (∀ offset, (⟨offset⟩ : String.Pos.Raw).IsValid source → (locate source offset).PointsAt source offset) ∧
    (∀ location offset, Location.PointsAt location source offset →
      (⟨offset⟩ : String.Pos.Raw).IsValid source ∧ locate source offset = location) ∧
    (∀ offset further, (⟨offset⟩ : String.Pos.Raw).IsValid source →
      (⟨further⟩ : String.Pos.Raw).IsValid source → offset < further →
        (locate source offset).line < (locate source further).line ∨
          (locate source offset).line = (locate source further).line ∧
            (locate source offset).column < (locate source further).column) ∧
    ∀ offset, source.utf8ByteSize ≤ offset → locate source offset = locate source source.utf8ByteSize := by
  have points : ∀ offset, (⟨offset⟩ : String.Pos.Raw).IsValid source →
      (locate source offset).PointsAt source offset := by
    intro offset valid
    obtain ⟨lines, last, after, placed, rfl⟩ := placed_of_valid valid
    rw [locate_placed placed]
    exact points_at_placed placed
  refine ⟨points, ?_, ?_, ?_⟩
  · intro location offset pointed
    obtain ⟨lines, last, after, placed, rfl, rfl⟩ := placed_of_points_at pointed
    exact ⟨valid_of_placed placed, locate_placed placed⟩
  · exact fun offset further valid validThen => points_further (points offset valid) (points further validThen)
  · exact fun offset past => locate_past_end past

theorem locate_invertible_beyond_ascii :
    (⟨6⟩ : String.Pos.Raw).IsValid "ß\n€a\n" ∧ (⟨8⟩ : String.Pos.Raw).IsValid "ß\n€a\n" ∧
      Location.PointsAt ⟨2, 2, "€a".toList⟩ "ß\n€a\n" 6 ∧ Location.PointsAt ⟨3, 1, []⟩ "ß\n€a\n" 8 ∧
      ((locate "ß\n€a\n" 6).line < (locate "ß\n€a\n" 8).line ∨
        (locate "ß\n€a\n" 6).line = (locate "ß\n€a\n" 8).line ∧
          (locate "ß\n€a\n" 6).column < (locate "ß\n€a\n" 8).column) ∧
      locate "ß\n€a\n" 90 = ⟨3, 1, []⟩ := by
  obtain ⟨points, -, further, past⟩ := locate_invertible "ß\n€a\n"
  have inside : (⟨6⟩ : String.Pos.Raw).IsValid "ß\n€a\n" := by decide +kernel
  have atEnd : (⟨8⟩ : String.Pos.Raw).IsValid "ß\n€a\n" := by decide +kernel
  have place : locate "ß\n€a\n" 6 = ⟨2, 2, "€a".toList⟩ := by decide +kernel
  have last : locate "ß\n€a\n" 8 = ⟨3, 1, []⟩ := by decide +kernel
  exact ⟨inside, atEnd, place ▸ points 6 inside, last ▸ points 8 atEnd,
    further 6 8 inside atEnd (by decide), (past 90 (by decide)).trans last⟩

end ShellLine
