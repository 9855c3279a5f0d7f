import ShellLine.Proofs.Grammar.Halt

set_option autoImplicit false

namespace ShellLine.Closure

open ShellLine.Parser Grammar

def closed (c : Cursor) : Cursor := .start (c.rest ++ [')'])

variable {c d : Cursor} {text part : List Char}

section Places

@[simp] theorem closed_rest (c : Cursor) : (closed c).rest = c.rest ++ [')'] := rfl

theorem closed_left (c : Cursor) : (closed c).left = c.left + 1 := by
  rw [(closed c).left_eq, closed_rest, Text.byte_length_append, ← c.left_eq]
  rfl

theorem closed_left_lt : (closed d).left < (closed c).left ↔ d.left < c.left := by
  rw [closed_left, closed_left]
  exact Nat.add_lt_add_iff_right

theorem closed_advance {count : Nat} (within : count ≤ c.rest.length) :
    (closed c).advance count = closed (c.advance count) := by
  apply Cursor.ext_rest
  rw [Cursor.rest_advance, closed_rest, closed_rest, Cursor.rest_advance, List.drop_append_of_le_length within]

theorem head_closed {ch : Char} (other : ch ≠ ')') :
    (text ++ [')']).head? = some ch ↔ text.head? = some ch := by
  cases text with
  | nil => simpa using other.symm
  | cons first others => rfl

theorem head_of_nonempty (nonempty : text ≠ []) : (text ++ [')']).head? = text.head? :=
  List.head?_append_of_ne_nil _ nonempty

theorem prefix_closed (noParen : ')' ∉ part) : part <+: text ++ [')'] ↔ part <+: text := by
  rw [List.prefix_concat_iff]
  refine or_iff_right ?_
  rintro rfl
  simp at noParen

theorem take_while_closed {accepts : Char → Bool} (stops : accepts ')' = false) :
    (text ++ [')']).takeWhile accepts = text.takeWhile accepts := by
  induction text with
  | nil => simp [stops]
  | cons ch others ih => simp only [List.cons_append, List.takeWhile_cons, ih]

theorem take_while_within (accepts : Char → Bool) (text : List Char) :
    (text.takeWhile accepts).length ≤ text.length := (List.takeWhile_prefix accepts).length_le

end Places

section Layout

theorem layout_within (lines comment : Bool) (text : List Char) :
    layoutLength lines comment text ≤ text.length := by
  fun_induction layoutLength lines comment text <;> simp only [List.length_cons, Nat.zero_le] <;> omega

theorem layout_closed (lines : Bool) (uncommented : '#' ∉ text) :
    layoutLength lines false (text ++ [')']) = layoutLength lines false text := by
  have outside : ∀ comment, comment = false →
      layoutLength lines comment (text ++ [')']) = layoutLength lines comment text := by
    intro comment plain
    fun_induction layoutLength lines comment text with
    | case1 => simp [plain, layoutLength]
    | case2 _ rest between ih =>
        simp only [List.mem_cons, not_or] at uncommented
        rw [List.cons_append, layoutLength, if_pos between, ih uncommented.2 rfl]
    | case3 _ rest single => rw [List.cons_append, layoutLength, if_neg single]
    | case4 => cases plain
    | case5 rest ih | case6 rest ih =>
        simp only [List.mem_cons, not_or] at uncommented
        rw [List.cons_append, layoutLength, ih uncommented.2 rfl]
    | case7 => simp at uncommented
    | case8 rest ih =>
        simp only [List.mem_cons, not_or] at uncommented
        rw [List.cons_append, List.cons_append, layoutLength, ih uncommented.2.2 rfl]
    | case9 text nonempty noNewline noSpace noTab noComment noEscape =>
        obtain ⟨first, rest, rfl⟩ := List.exists_cons_of_ne_nil nonempty
        cases rest <;> simp_all [layoutLength]
  exact outside false rfl

theorem uncommented_behind (uncommented : '#' ∉ c.rest) (behind : d.rest <:+ c.rest) : '#' ∉ d.rest :=
  fun member => uncommented (behind.subset member)

theorem past_blanks_closed (uncommented : '#' ∉ c.rest) :
    (closed c).pastBlanks = closed c.pastBlanks := by
  rw [Cursor.pastBlanks, closed_rest, layout_closed false uncommented]
  exact closed_advance (layout_within false false c.rest)

theorem past_lines_closed (uncommented : '#' ∉ c.rest) : (closed c).pastLines = closed c.pastLines := by
  rw [Cursor.pastLines, closed_rest, layout_closed true uncommented]
  exact closed_advance (layout_within true false c.rest)

theorem past_break_closed (uncommented : '#' ∉ c.rest) : (closed c).pastBreak = closed c.pastBreak := by
  simp only [Cursor.pastBreak, closed_rest, head_closed (by decide : '\n' ≠ ')'), past_lines_closed uncommented]
  split <;> rfl

end Layout

section Marks

variable {word : String} {ch : Char} {chars : List Char}

theorem stands_alone_closed (other : ch ≠ ')') :
    standsAlone ch (text ++ [')']) ↔ standsAlone ch text := by
  cases text with
  | nil => simpa [standsAlone] using other.symm
  | cons first others =>
      simp only [standsAlone, List.cons_append, List.head?_cons, List.tail_cons, ne_eq, head_closed other]

theorem starts_reserved_closed (noParen : ')' ∉ part) :
    startsReserved part (text ++ [')']) = startsReserved part text := by
  rw [startsReserved, startsReserved]
  by_cases here : part <+: text
  · have within := here.length_le
    rw [List.drop_append_of_le_length within, List.isPrefixOf_iff_prefix.mpr here,
      List.isPrefixOf_iff_prefix.mpr ((prefix_closed noParen).mpr here)]
    cases text.drop part.length <;> rfl
  · have absent : part.isPrefixOf text = false := Bool.eq_false_iff.mpr fun found =>
      here (List.isPrefixOf_iff_prefix.mp found)
    have absentClosed : part.isPrefixOf (text ++ [')']) = false := Bool.eq_false_iff.mpr fun found =>
      here ((prefix_closed noParen).mp (List.isPrefixOf_iff_prefix.mp found))
    rw [absent, absentClosed]
    rfl

theorem solid_start_closed (text : List Char) : solidStart (text ++ [')']) = solidStart text :=
  take_while_closed (by decide)

theorem reserved_ahead_closed (text : List Char) : reservedAhead (text ++ [')']) = reservedAhead text := by
  rw [Bool.eq_iff_iff, reserved_ahead_iff, reserved_ahead_iff, solid_start_closed]

theorem reads_literal_closed (read : (literal word).Reads c () d) :
    (literal word).Reads (closed c) () (closed d) := by
  obtain ⟨here, rfl⟩ := (gives_literal _ _ _ _).mp read
  have within := here.length_le
  rw [String.length_toList] at within
  exact (gives_literal _ _ _ _).mpr ⟨here.trans (List.prefix_append _ _), closed_advance within⟩

theorem rejects_literal_closed (noParen : ')' ∉ word.toList) (rejected : (literal word).Rejects c) :
    (literal word).Rejects (closed c) := by
  rw [Rejects, fails_literal] at rejected ⊢
  exact fun here => rejected ((prefix_closed noParen).mp here)

theorem reads_blanks_closed (uncommented : '#' ∉ c.rest) (read : blanks.Reads c () d) :
    blanks.Reads (closed c) () (closed d) := by
  rw [Reads, gives_blanks] at read ⊢
  rw [past_blanks_closed uncommented, read]

theorem reads_line_break_closed (uncommented : '#' ∉ c.rest) (read : lineBreak.Reads c () d) :
    lineBreak.Reads (closed c) () (closed d) := by
  rw [Reads, gives_line_break] at read ⊢
  rw [past_break_closed uncommented, read]

theorem reads_newlines_closed (uncommented : '#' ∉ c.rest) (read : newlines.Reads c () d) :
    newlines.Reads (closed c) () (closed d) := by
  rw [Reads, gives_newlines] at read ⊢
  rw [closed_rest, head_closed (by decide), past_lines_closed uncommented, read.2]
  exact ⟨read.1, rfl⟩

theorem rejects_newlines_closed (rejected : newlines.Rejects c) : newlines.Rejects (closed c) := by
  rw [Rejects, fails_newlines] at rejected ⊢
  rwa [closed_rest, Ne, head_closed (by decide)]

theorem reads_operator_closed (uncommented : '#' ∉ c.rest) (read : (operator word).Reads c () d) :
    (operator word).Reads (closed c) () (closed d) := by
  obtain ⟨_, e, here, passed⟩ := (gives_bind _ _ _ _ _).mp read
  exact reads_bind (reads_literal_closed here)
    (reads_blanks_closed (uncommented_behind uncommented (reads_forward here)) passed)

theorem rejects_operator_closed (noParen : ')' ∉ word.toList) (rejected : (operator word).Rejects c) :
    (operator word).Rejects (closed c) := by
  rw [Rejects, fails_operator, ← fails_literal] at rejected ⊢
  exact rejects_literal_closed noParen rejected

theorem reads_lone_closed (uncommented : '#' ∉ c.rest) (other : ch ≠ ')')
    (read : (loneOperator ch).Reads c () d) : (loneOperator ch).Reads (closed c) () (closed d) := by
  rw [Reads, gives_lone_operator] at read ⊢
  obtain ⟨alone, rfl⟩ := read
  have within := List.length_pos_iff.mpr (ne_nil_of_head alone.1)
  rw [closed_advance within, past_blanks_closed (uncommented_behind uncommented (c.advance_suffix 1))]
  exact ⟨(stands_alone_closed other).mpr alone, rfl⟩

theorem rejects_lone_closed (other : ch ≠ ')') (rejected : (loneOperator ch).Rejects c) :
    (loneOperator ch).Rejects (closed c) := by
  rw [Rejects, fails_lone_operator] at rejected ⊢
  exact fun alone => rejected ((stands_alone_closed other).mp alone)

theorem reads_keyword_closed (uncommented : '#' ∉ c.rest) (noParen : ')' ∉ word.toList)
    (read : (keyword word).Reads c () d) : (keyword word).Reads (closed c) () (closed d) := by
  rw [Reads, gives_keyword] at read ⊢
  obtain ⟨here, rfl⟩ := read
  have within := (starts_of_starts_reserved _ _ here).length_le
  rw [String.length_toList] at within
  rw [closed_advance within, past_blanks_closed (uncommented_behind uncommented (c.advance_suffix _)),
    closed_rest, starts_reserved_closed noParen]
  exact ⟨here, rfl⟩

theorem rejects_keyword_closed (noParen : ')' ∉ word.toList) (rejected : (keyword word).Rejects c) :
    (keyword word).Rejects (closed c) := by
  rw [Rejects, fails_keyword] at rejected ⊢
  rwa [closed_rest, starts_reserved_closed noParen]

theorem reads_take_while_closed {accepts : Char → Bool} (stops : accepts ')' = false)
    (read : (takeWhile accepts).Reads c chars d) : (takeWhile accepts).Reads (closed c) chars (closed d) := by
  rw [Reads, gives_take_while] at read ⊢
  obtain ⟨rfl, rfl⟩ := read
  rw [closed_rest, take_while_closed stops]
  exact ⟨rfl, closed_advance (take_while_within accepts c.rest)⟩

theorem head_any_closed {accepts : Char → Bool} (stops : accepts ')' = false) (text : List Char) :
    (text ++ [')']).head?.any accepts = text.head?.any accepts := by
  cases text with
  | nil => simpa using stops
  | cons first others => rfl

theorem reads_name_closed (read : name.Reads c chars d) : name.Reads (closed c) chars (closed d) := by
  rw [Reads, gives_name] at read ⊢
  obtain ⟨starts, rfl, rfl⟩ := read
  rw [closed_rest, head_any_closed (by decide), take_while_closed (by decide)]
  exact ⟨starts, rfl, closed_advance (take_while_within continuesName c.rest)⟩

theorem rejects_name_closed (rejected : name.Rejects c) : name.Rejects (closed c) := by
  rw [Rejects, fails_name] at rejected ⊢
  rwa [closed_rest, head_any_closed (by decide)]

theorem reads_literal_among_closed {operators : List (String × Kind)} {kind : Kind}
    (noParen : ∀ pair ∈ operators, ')' ∉ pair.1.toList)
    (read : (literalAmong operators).Reads c kind d) :
    (literalAmong operators).Reads (closed c) kind (closed d) := by
  induction operators with
  | nil => exact absurd read (gives_fail c d kind)
  | cons first others ih =>
      obtain ⟨here, later⟩ := List.forall_mem_cons.mp noParen
      rcases (gives_or_else _ _ _ _ _).mp read with found | ⟨missing, found⟩
      · obtain ⟨_, e, here, made⟩ := (gives_bind _ _ _ _ _).mp found
        obtain ⟨rfl, rfl⟩ := (gives_pure _ _ _ _).mp made
        exact reads_first (reads_bind (reads_literal_closed here) (reads_pure _ _))
      · refine reads_second ?_ (ih later found)
        simp only [Rejects, fails_bind, fails_pure, and_false, exists_false, or_false] at missing ⊢
        exact rejects_literal_closed here missing

theorem rejects_literal_among_closed {operators : List (String × Kind)}
    (noParen : ∀ pair ∈ operators, ')' ∉ pair.1.toList)
    (rejected : (literalAmong operators).Rejects c) : (literalAmong operators).Rejects (closed c) := by
  induction operators with
  | nil => exact fails_fail _
  | cons first others ih =>
      obtain ⟨here, later⟩ := List.forall_mem_cons.mp noParen
      obtain ⟨missing, rest⟩ := (fails_or_else _ _ _).mp rejected
      refine (fails_or_else _ _ _).mpr ⟨?_, ih later rest⟩
      simp only [fails_bind, fails_pure, and_false, exists_false, or_false] at missing ⊢
      exact rejects_literal_closed here missing

end Marks

end ShellLine.Closure
