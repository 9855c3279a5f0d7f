import Mathlib.Order.Bounds.Basic
import ShellLine.Proofs.Source.Location

set_option autoImplicit false

namespace ShellLine

open Text

-- The offsets between two characters of a source, its start and its end among them.
def boundaries (source : String) : Set Nat := {offset | (⟨offset⟩ : String.Pos.Raw).IsValid source}

def fromLine (source : String) (line : Nat) : List Char :=
  ['\n'].intercalate ((source.toList.splitOn '\n').drop (line - 1))

-- The characters that the first bytes of a text are made of, if they are made of whole characters.
def slice? : List Char → Nat → Option (List Char)
  | [], bytes => if bytes = 0 then some [] else none
  | c :: rest, bytes =>
      if bytes = 0 then some []
      else if bytes < c.utf8Size then none
      else (slice? rest (bytes - c.utf8Size)).map (c :: ·)

def charOffsets : Nat → List Char → List (Nat × Char)
  | _, [] => []
  | start, c :: rest => (start, c) :: charOffsets (start + c.utf8Size) rest

-- How many characters of a text that starts at an offset start in front of another.
def scan (start : Nat) (text : List Char) (offset : Nat) : Nat :=
  ((charOffsets start text).takeWhile fun entry => entry.1 < offset).length

def columnBySlice? (source : String) (line offset : Nat) : Option Nat :=
  (slice? (fromLine source line) (offset - bytesBeforeLine source line)).map (·.length + 1)

def columnByScan (source : String) (line offset : Nat) : Nat :=
  scan (bytesBeforeLine source line) (fromLine source line) offset + 1

section Bytes

variable {source : String} {text before passed rest after : List Char} {c : Char} {offset : Nat}

theorem between_or_inside (text : List Char) (bytes : Nat) (bound : bytes ≤ byteLength text) :
    (∃ before after, text = before ++ after ∧ byteLength before = bytes) ∨
      ∃ before c rest, text = before ++ c :: rest ∧ byteLength before < bytes ∧
        bytes < byteLength before + c.utf8Size := by
  induction text generalizing bytes with
  | nil => exact Or.inl ⟨[], [], rfl, (Nat.le_zero.mp bound).symm⟩
  | cons c rest ih =>
      rw [byteLength] at bound
      by_cases none : bytes = 0
      · exact Or.inl ⟨[], c :: rest, rfl, none.symm⟩
      · by_cases short : bytes < c.utf8Size
        · refine Or.inr ⟨[], c, rest, rfl, ?_, ?_⟩ <;> rw [byteLength] <;> omega
        · cases ih (bytes - c.utf8Size) (by omega) with
          | inl between =>
              obtain ⟨before, after, rfl, ends⟩ := between
              exact Or.inl ⟨c :: before, after, rfl, by rw [byteLength]; omega⟩
          | inr inside =>
              obtain ⟨before, d, others, rfl, starts, ends⟩ := inside
              refine Or.inr ⟨c :: before, d, others, rfl, ?_, ?_⟩ <;> rw [byteLength] <;> omega

theorem boundary_iff : offset ∈ boundaries source ↔
    ∃ before after, source.toList = before ++ after ∧ byteLength before = offset := by
  constructor
  · intro valid
    obtain ⟨lines, last, after, placed, ends⟩ := placed_of_valid valid
    exact ⟨endedLines lines ++ last, after, by rw [placed.whole, List.append_assoc],
      by rw [byte_length_append, ends]⟩
  · rintro ⟨before, after, whole, rfl⟩
    obtain ⟨lines, last, placed, same⟩ := exists_place before after
    rw [same, byte_length_append]
    exact valid_of_placed (whole ▸ placed)

theorem boundary_beside (boundary : offset ∈ boundaries source) (whole : source.toList = before ++ c :: rest) :
    offset ≤ byteLength before ∨ byteLength before + c.utf8Size ≤ offset := by
  obtain ⟨front, behind, same, rfl⟩ := boundary_iff.mp boundary
  rw [whole] at same
  cases List.append_eq_append_iff.mp same with
  | inl longer =>
      obtain ⟨more, rfl, split⟩ := longer
      cases more with
      | nil => exact Or.inl (by rw [List.append_nil])
      | cons d more =>
          obtain ⟨rfl, -⟩ := List.cons.inj split
          refine Or.inr ?_
          rw [byte_length_append, byteLength]
          omega
  | inr shorter =>
      obtain ⟨more, rfl, -⟩ := shorter
      rw [byte_length_append]
      exact Or.inl (Nat.le_add_right ..)

theorem greatest_inside (whole : source.toList = before ++ c :: rest) (starts : byteLength before ≤ offset)
    (ends : offset < byteLength before + c.utf8Size) :
    IsGreatest (boundaries source ∩ Set.Iic offset) (byteLength before) := by
  refine ⟨⟨boundary_iff.mpr ⟨before, c :: rest, whole, rfl⟩, starts⟩, ?_⟩
  rintro other ⟨boundary, within⟩
  cases boundary_beside boundary whole with
  | inl front => exact front
  | inr behind => exact absurd (Nat.le_trans behind within) (Nat.not_le_of_lt ends)

theorem least_inside (whole : source.toList = before ++ c :: rest) (starts : byteLength before < offset)
    (ends : offset ≤ byteLength before + c.utf8Size) :
    IsLeast (boundaries source ∩ Set.Ici offset) (byteLength before + c.utf8Size) := by
  refine ⟨⟨boundary_iff.mpr ⟨before ++ [c], rest, by simp [whole], ?_⟩, ends⟩, ?_⟩
  · rw [byte_length_append, byteLength, byteLength, Nat.add_zero]
  · rintro other ⟨boundary, within⟩
    cases boundary_beside boundary whole with
    | inl front => exact absurd (Nat.le_trans within front) (Nat.not_le_of_lt starts)
    | inr behind => exact behind

end Bytes

section Columns

variable {source : String} {lines : List (List Char)} {passed last after rest : List Char} {c : Char}
  {start bytes : Nat}

theorem slice_zero (text : List Char) : slice? text 0 = some [] := by
  cases text <;> rfl

theorem slice_inside (starts : bytes ≠ 0) (ends : bytes < c.utf8Size) : slice? (c :: rest) bytes = none := by
  rw [slice?, if_neg starts, if_pos ends]

theorem slice_passed (passed after : List Char) (bytes : Nat) :
    slice? (passed ++ after) (byteLength passed + bytes) = (slice? after bytes).map (passed ++ ·) := by
  induction passed with
  | nil => simp [byteLength]
  | cons c passed ih =>
      have wide := c.utf8Size_pos
      rw [List.cons_append, slice?, byteLength, if_neg (by omega), if_neg (by omega), Nat.add_assoc,
        Nat.add_sub_cancel_left, ih, Option.map_map]
      rfl

theorem scan_stops (text : List Char) (reached : bytes ≤ start) : scan start text bytes = 0 := by
  cases text with
  | nil => rfl
  | cons c rest =>
      rw [scan, charOffsets, List.takeWhile_cons_of_neg (by simpa using reached)]
      rfl

theorem scan_goes_on (ahead : start < bytes) :
    scan start (c :: rest) bytes = scan (start + c.utf8Size) rest bytes + 1 := by
  rw [scan, charOffsets, List.takeWhile_cons_of_pos (by simpa using ahead)]
  rfl

theorem scan_passed (passed after : List Char) (start bytes : Nat) :
    scan start (passed ++ after) (start + byteLength passed + bytes) =
      passed.length + scan (start + byteLength passed) after (start + byteLength passed + bytes) := by
  induction passed generalizing start with
  | nil => rw [byteLength, List.nil_append, List.length_nil, Nat.add_zero, Nat.zero_add]
  | cons c passed ih =>
      have wide := c.utf8Size_pos
      rw [byteLength, ← Nat.add_assoc, List.cons_append, scan_goes_on (by omega), ih, List.length_cons]
      omega

theorem bytes_before_placed (placed : Placed source.toList lines last after) :
    bytesBeforeLine source (1 + lines.length) = byteLength (endedLines lines) := by
  rw [bytesBeforeLine, placed.whole, split_ended_lines placed.ended, Nat.add_sub_cancel_left, List.take_left]

theorem from_line_placed (placed : Placed source.toList lines last after) :
    fromLine source (1 + lines.length) = last ++ after := by
  rw [fromLine, placed.whole, split_ended_lines placed.ended, Nat.add_sub_cancel_left, List.drop_left,
    List.intercalate_splitOn]

theorem column_by_slice (placed : Placed source.toList lines last after) (bytes : Nat) :
    columnBySlice? source (1 + lines.length) (byteLength (endedLines lines) + byteLength last + bytes) =
      (slice? after bytes).map (1 + last.length + ·.length) := by
  have columns : ∀ chars, (last ++ chars).length + 1 = 1 + last.length + chars.length := by
    intro chars
    rw [List.length_append]
    omega
  rw [columnBySlice?, from_line_placed placed, bytes_before_placed placed, Nat.add_assoc, Nat.add_sub_cancel_left,
    slice_passed, Option.map_map]
  exact congrArg (Option.map · (slice? after bytes)) (funext columns)

theorem column_by_scan (placed : Placed source.toList lines last after) (bytes : Nat) :
    columnByScan source (1 + lines.length) (byteLength (endedLines lines) + byteLength last + bytes) =
      1 + last.length + scan (byteLength (endedLines lines) + byteLength last) after
        (byteLength (endedLines lines) + byteLength last + bytes) := by
  rw [columnByScan, from_line_placed placed, bytes_before_placed placed, scan_passed]
  omega

end Columns

-- An offset lies between two boundaries of a source. It is located where the one above is: in the line
-- of the one below, and one column further if there is a character between them. The scan over the
-- line finds the column always, and a slice of the line finds it where the offset is a boundary.
structure RoundsUp (source : String) (offset below above : Nat) : Prop where
  greatest : IsGreatest (boundaries source ∩ Set.Iic offset) below
  least : IsLeast (boundaries source ∩ Set.Ici offset) above
  located : locate source offset = locate source above
  further : locate source offset = { locate source below with
    column := (locate source below).column + if below = above then 0 else 1 }
  scanned : columnByScan source (locate source offset).line offset = (locate source offset).column
  sliced : columnBySlice? source (locate source offset).line offset =
    if below = above then some (locate source offset).column else none

section Rounding

variable {source : String} {lines : List (List Char)} {last after rest : List Char} {c : Char} {bytes : Nat}

theorem locate_min (source : String) (offset : Nat) :
    locate source offset = locate source (min offset source.utf8ByteSize) := by
  by_cases within : offset ≤ source.utf8ByteSize
  · rw [Nat.min_eq_left within]
  · have past : source.utf8ByteSize ≤ offset := Nat.le_of_not_le within
    rw [Nat.min_eq_right past]
    exact locate_past_end past

theorem ne_newline_inside (starts : bytes ≠ 0) (ends : bytes < c.utf8Size) : c ≠ '\n' := by
  rintro rfl
  have single : '\n'.utf8Size = 1 := rfl
  omega

theorem locate_inside (placed : Placed source.toList lines last (c :: rest)) (starts : bytes ≠ 0)
    (ends : bytes < c.utf8Size) : locate source (byteLength (endedLines lines) + byteLength last + bytes) =
      ⟨1 + lines.length, 1 + last.length + 1, last ++ (c :: rest).takeWhile (· ≠ '\n')⟩ := by
  have other := ne_newline_inside starts ends
  have passed : bytes - c.utf8Size = 0 := by omega
  rw [locate, placed.whole, Nat.add_assoc, Location.advance_lines placed.ended,
    Location.advance_in_line placed.unended, Location.advance_cons starts, if_neg other, passed,
    Location.advance_zero, take_line placed.unended]

theorem rounded_between {before after : List Char} (whole : source.toList = before ++ after) :
    RoundsUp source (byteLength before) (byteLength before) (byteLength before) := by
  have boundary : byteLength before ∈ boundaries source := boundary_iff.mpr ⟨before, after, whole, rfl⟩
  obtain ⟨lines, last, placed, same⟩ := exists_place before after
  rw [← whole] at placed
  have bytes : byteLength before = byteLength (endedLines lines) + byteLength last + 0 := by
    rw [same, byte_length_append, Nat.add_zero]
  have located := locate_placed placed
  rw [← Nat.add_zero (byteLength (endedLines lines) + byteLength last), ← bytes] at located
  refine ⟨⟨⟨boundary, Nat.le_refl _⟩, fun _ other => other.2⟩, ⟨⟨boundary, Nat.le_refl _⟩, fun _ other => other.2⟩, rfl,
    ?_, ?_, ?_⟩
  · rw [if_pos rfl]
    rfl
  · rw [located, bytes, column_by_scan placed, scan_stops _ (by omega)]
    rfl
  · rw [if_pos rfl, located, bytes, column_by_slice placed, slice_zero]
    rfl

-- Inside a character there is no slice, and the scan counts the character.
theorem rounded_inside {before : List Char} {offset : Nat} (whole : source.toList = before ++ c :: rest)
    (starts : byteLength before < offset) (ends : offset < byteLength before + c.utf8Size) :
    RoundsUp source offset (byteLength before) (byteLength before + c.utf8Size) := by
  obtain ⟨lines, last, placed, same⟩ := exists_place before (c :: rest)
  rw [← whole] at placed
  obtain ⟨bytes, rfl⟩ := Nat.exists_eq_add_of_lt starts
  have front : byteLength before = byteLength (endedLines lines) + byteLength last := by
    rw [same, byte_length_append]
  have inside : byteLength before + bytes + 1 = byteLength (endedLines lines) + byteLength last + (bytes + 1) := by
    rw [front, Nat.add_assoc]
  have other : c ≠ '\n' := ne_newline_inside (Nat.succ_ne_zero bytes) (by omega)
  have behind : Placed source.toList lines (last ++ [c]) rest := by
    refine ⟨by rw [placed.whole, List.append_assoc, List.singleton_append], placed.ended, ?_⟩
    simpa [Ne.symm other] using placed.unended
  have located := locate_inside placed (Nat.succ_ne_zero bytes) (by omega)
  have locatedBelow := locate_placed placed
  have locatedAbove := locate_placed behind
  rw [← inside] at located
  rw [← front] at locatedBelow
  rw [byte_length_append, ← Nat.add_assoc, ← front, byteLength, byteLength, Nat.add_zero] at locatedAbove
  have apart : byteLength before ≠ byteLength before + c.utf8Size := by omega
  refine ⟨greatest_inside whole (Nat.le_of_lt starts) ends, least_inside whole starts (Nat.le_of_lt ends), ?_, ?_, ?_, ?_⟩
  · rw [located, locatedAbove, List.takeWhile_cons_of_pos (by simpa using other), List.length_append,
      List.append_assoc]
    rfl
  · rw [located, locatedBelow, if_neg apart]
  · rw [located, inside, column_by_scan placed, scan_goes_on (by omega), scan_stops _ (by omega)]
  · rw [if_neg apart, located, inside, column_by_slice placed, slice_inside (Nat.succ_ne_zero bytes) (by omega)]
    rfl

theorem rounded (source : String) {offset : Nat} (within : offset ≤ source.utf8ByteSize) :
    ∃ below above, RoundsUp source offset below above := by
  rw [size_in_bytes] at within
  cases between_or_inside source.toList offset within with
  | inl between =>
      obtain ⟨before, after, whole, rfl⟩ := between
      exact ⟨_, _, rounded_between whole⟩
  | inr inside =>
      obtain ⟨before, c, rest, whole, starts, ends⟩ := inside
      exact ⟨_, _, rounded_inside whole starts ends⟩

end Rounding

/-- An offset inside a character is located at the end of that character and not at its start; every other
offset is located as it is, or at the end of the source if it is past it. -/
theorem locate_rounds_up (source : String) (offset : Nat) :
    ∃ below above, RoundsUp source (min offset source.utf8ByteSize) below above ∧
      locate source offset = locate source above ∧
      (locate source offset = locate source below ↔ below = min offset source.utf8ByteSize) := by
  obtain ⟨below, above, rounds⟩ := rounded source (Nat.min_le_right offset source.utf8ByteSize)
  have cut := locate_min source offset
  refine ⟨below, above, rounds, cut.trans rounds.located, ?_⟩
  constructor
  · intro same
    have columns := congrArg Location.column (same.symm.trans (cut.trans rounds.further))
    by_cases level : below = above
    · exact Nat.le_antisymm rounds.greatest.1.2 (level ▸ rounds.least.1.2)
    · rw [if_neg level] at columns
      exact absurd columns (Nat.ne_of_lt (Nat.lt_succ_self _))
  · intro same
    rw [cut, ← same]

theorem locate_inside_character :
    IsGreatest (boundaries "é" ∩ Set.Iic (min 1 "é".utf8ByteSize)) 0 ∧ locate "é" 1 ≠ locate "é" 0 ∧
      locate "é" 1 = locate "é" 2 := by
  have whole : "é".toList = [] ++ 'é' :: [] := rfl
  exact ⟨greatest_inside whole (Nat.zero_le _) (by decide), by decide, by decide⟩

end ShellLine
