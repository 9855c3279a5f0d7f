import ShellLine.Proofs.Grammar.Literal

set_option autoImplicit false

namespace ShellLine

namespace Cursor

theorem eq_start {c : Cursor} {text : List Char} (here : c.rest = text) : c = start text :=
  ext_rest c (start text) here

@[simp] theorem rest_start (text : List Char) : (start text).rest = text := rfl

theorem advance_start (passed rest : List Char) :
    (start (passed ++ rest)).advance passed.length = start rest := by
  apply ext_rest
  exact rest_advance_append _ passed rest rfl

@[simp] theorem advance_start_one (ch : Char) (rest : List Char) :
    (Cursor.start (ch :: rest)).advance 1 = .start rest :=
  Cursor.advance_start [ch] rest

@[simp] theorem advance_start_two (ch next : Char) (rest : List Char) :
    (Cursor.start (ch :: next :: rest)).advance 2 = .start rest :=
  Cursor.advance_start [ch, next] rest

end Cursor

namespace Grammar

open ShellLine.Parser

theorem take_while_stops {accepts : Char → Bool} {chars rest : List Char}
    (accepted : ∀ ch ∈ chars, accepts ch = true)
    (stops : ∀ ch, rest.head? = some ch → accepts ch = false) :
    (chars ++ rest).takeWhile accepts = chars := by
  rw [List.takeWhile_append_of_pos accepted]
  cases rest with
  | nil => simp
  | cons ch others => simp [stops ch rfl]

theorem past_blank {text : List Char} (idle : layoutLength false false text = 0) :
    (Cursor.start (' ' :: text)).pastBlanks = .start text := by
  apply Cursor.ext_rest
  rw [Cursor.pastBlanks, Cursor.rest_advance]
  simp [layoutLength, idle]

theorem reads_single {braced : Bool} {chars : List Char} (closed : '\'' ∉ chars) (rest : List Char) :
    (wordPart braced).Reads (.start ('\'' :: chars ++ '\'' :: rest)) (.leaf .singleQuote chars)
      (.start rest) := by
  have passed : (chars ++ '\'' :: rest).takeWhile (fun ch => !decide (ch = '\'')) = chars := by
    apply take_while_stops
    · intro ch member
      simpa using ne_of_mem_of_not_mem member closed
    · simp
  simp [wordPart, singleQuote, passed, Cursor.advance_start]

theorem reads_bare_escape {braced : Bool} (ch : Char) (rest : List Char) :
    (wordPart braced).Reads (.start ('\\' :: ch :: rest))
      (.leaf .bareEscape (if ch = '\n' then [] else [ch])) (.start rest) := by
  simp [wordPart, bareEscape]

theorem reads_escape {braced : Bool} {ch : Char} (sameLine : ch ≠ '\n') (rest : List Char) :
    (wordPart braced).Reads (.start ('\\' :: ch :: rest)) (.leaf .bareEscape [ch]) (.start rest) := by
  have read := @reads_bare_escape braced ch rest
  rwa [if_neg sameLine] at read

theorem reads_plain {braced : Bool} {chars : List Char} (nonempty : chars ≠ [])
    (unbroken : ∀ ch ∈ chars, isWordBreak braced ch = false) {rest : List Char}
    (ends : ∀ ch, rest.head? = some ch → isWordBreak braced ch = true) :
    (wordPart braced).Reads (.start (chars ++ rest)) (.leaf .unquotedLiteral chars) (.start rest) := by
  have passed : (chars ++ rest).takeWhile (fun ch => !isWordBreak braced ch) = chars := by
    apply take_while_stops
    · simpa using unbroken
    · simpa using ends
  have read : (unquotedLiteral braced).Reads (.start (chars ++ rest)) (.leaf .unquotedLiteral chars)
      (.start rest) := by
    simp [unquotedLiteral, passed, nonempty, Cursor.advance_start]
  obtain ⟨first, others, rfl⟩ := List.exists_cons_of_ne_nil nonempty
  have unquoted := unbroken first (List.mem_cons_self ..)
  rw [wordPart, Reads, gives_look_bind]
  have head : (Cursor.start (first :: others ++ rest)).rest.head? = some first := rfl
  rw [head]
  split
  all_goals
    first
    | exact read
    | (rename_i same; cases same; exact absurd unquoted (by simp [isWordBreak, backtick]))

def writeDouble (ch : Char) : List Char := if isDoubleQuotedEscape ch then ['\\', ch] else [ch]

theorem double_quoted_text_iff (ch : Char) :
    isDoubleQuotedText ch = !isDoubleQuotedEscape ch := by
  simp only [isDoubleQuotedText, isDoubleQuotedEscape, List.mem_cons, List.not_mem_nil, or_false]
  grind

theorem write_double_text {chars : List Char} (plain : ∀ ch ∈ chars, isDoubleQuotedText ch = true) :
    chars.flatMap writeDouble = chars := by
  induction chars with
  | nil => rfl
  | cons ch others ih =>
      obtain ⟨first, later⟩ := List.forall_mem_cons.mp plain
      rw [double_quoted_text_iff, Bool.not_eq_true'] at first
      rw [List.flatMap_cons, ih later, writeDouble, if_neg (by simp [first])]
      rfl

theorem write_double_split (chars : List Char) :
    chars.flatMap writeDouble =
      chars.takeWhile isDoubleQuotedText ++ (chars.dropWhile isDoubleQuotedText).flatMap writeDouble := by
  have plain : ∀ ch ∈ chars.takeWhile isDoubleQuotedText, isDoubleQuotedText ch = true :=
    fun ch => List.all_eq_true.mp List.all_takeWhile ch
  rw [← write_double_text plain, ← List.flatMap_append, List.takeWhile_append_dropWhile]

theorem double_quoted_run_stops (chars rest : List Char) :
    ∀ ch, ((chars.dropWhile isDoubleQuotedText).flatMap writeDouble ++ '"' :: rest).head? = some ch →
      isDoubleQuotedText ch = false := by
  intro ch head
  cases dropped : chars.dropWhile isDoubleQuotedText with
  | nil =>
      obtain rfl : '"' = ch := by simpa [dropped] using head
      rfl
  | cons first others =>
      have escaped : isDoubleQuotedEscape first = true := by
        have head : (chars.dropWhile isDoubleQuotedText).head? = some first := by rw [dropped]; rfl
        simpa [double_quoted_text_iff] using head_drop_while head
      obtain rfl : '\\' = ch := by simpa [dropped, writeDouble, escaped] using head
      rfl

theorem reads_double_run {chars rest : List Char} (nonempty : chars ≠ [])
    (plain : ∀ ch ∈ chars, isDoubleQuotedText ch = true)
    (stops : ∀ ch, rest.head? = some ch → isDoubleQuotedText ch = false) :
    doubleQuotedPart.Reads (.start (chars ++ rest)) (.more (.text chars)) (.start rest) := by
  have passed := take_while_stops plain stops
  obtain ⟨first, others, rfl⟩ := List.exists_cons_of_ne_nil nonempty
  have text := plain first (List.mem_cons_self ..)
  rw [doubleQuotedPart, Reads, gives_look_bind]
  rw [List.cons_append] at passed ⊢
  have noTick : first ≠ backtick := by
    rintro rfl
    simp [isDoubleQuotedText] at text
  have read : ((takeWhile isDoubleQuotedText) >>= fun chars => pure (Turn.more (Child.text chars))).Reads
      (.start (first :: (others ++ rest))) (.more (.text (first :: others))) (.start rest) := by
    simp only [Reads, gives_bind, gives_take_while, Cursor.rest_start, passed, gives_pure]
    exact ⟨_, _, ⟨rfl, Cursor.advance_start (first :: others) rest⟩, rfl, rfl⟩
  rw [Cursor.rest_start]
  split
  case h_1 => contradiction
  case h_5 same =>
    cases same
    rw [if_neg noTick]
    exact read
  all_goals
    rename_i same
    cases same
    exact absurd text (by decide)

theorem turns_double (chars rest : List Char) :
    ∃ parts, Turns (reading grammar) doubleQuotedPart
        (.start (chars.flatMap writeDouble ++ '"' :: rest)) parts (.start rest) ∧
      unquoteDouble? parts = some chars := by
  cases chars with
  | nil => exact ⟨[], .stop (by simp [doubleQuotedPart]), rfl⟩
  | cons first others =>
      cases escaped : isDoubleQuotedEscape first with
      | true =>
          obtain ⟨parts, turns, text⟩ := turns_double others rest
          have special : first = '$' ∨ first = backtick ∨ first = '"' ∨ first = '\\' := by
            simpa [isDoubleQuotedEscape] using escaped
          refine ⟨.node (.leaf .doubleQuotedEscape [first]) :: parts, ?_, ?_⟩
          · refine .more (d := .start (others.flatMap writeDouble ++ '"' :: rest)) ?_ ?_ turns
            · simp [doubleQuotedPart, writeDouble, escaped, special]
            · exact Cursor.left_lt_of_passed _ _ ['\\', first] (List.cons_ne_nil _ _)
                (by simp [writeDouble, escaped])
          · simp [unquoteDouble?, Node.leaf, Node.soleText?, Forest.soleText?, text]
      | false =>
          have plain : isDoubleQuotedText first = true := by simp [double_quoted_text_iff, escaped]
          have shorter : ((first :: others).dropWhile isDoubleQuotedText).length <
              (first :: others).length := by
            rw [List.dropWhile_cons_of_pos plain]
            exact Nat.lt_succ_of_le (List.dropWhile_suffix _).length_le
          obtain ⟨parts, turns, text⟩ :=
            turns_double ((first :: others).dropWhile isDoubleQuotedText) rest
          have nonempty : (first :: others).takeWhile isDoubleQuotedText ≠ [] := by
            rw [List.takeWhile_cons_of_pos plain]
            exact List.cons_ne_nil _ _
          have run := reads_double_run nonempty (fun ch => List.all_eq_true.mp List.all_takeWhile ch)
            (double_quoted_run_stops (first :: others) rest)
          refine ⟨.text ((first :: others).takeWhile isDoubleQuotedText) :: parts, ?_, ?_⟩
          · rw [write_double_split, List.append_assoc]
            exact .more run (Cursor.left_lt_of_passed _ _ _ nonempty rfl) turns
          · rw [unquoteDouble?, text, Option.map_some, List.takeWhile_append_dropWhile]
termination_by chars.length
decreasing_by
  · exact shorter
  · exact Nat.lt_succ_self others.length

theorem reads_double {braced : Bool} (chars rest : List Char) :
    ∃ part, (wordPart braced).Reads (.start ('"' :: chars.flatMap writeDouble ++ '"' :: rest)) part
        (.start rest) ∧ unquotePart? (.node part) = some chars := by
  obtain ⟨parts, turns, text⟩ := turns_double chars rest
  refine ⟨quotedNode .doubleQuote parts, ?_, ?_⟩
  · rw [wordPart, Reads, gives_look_bind]
    change doubleQuote.Reads _ _ _
    simp only [doubleQuote, gives_atomic, gives_bind, gives_skip, gives_rounds, gives_pure]
    exact ⟨(), _, Cursor.advance_start_one _ _, parts, _, turns, rfl, rfl⟩
  · change unquoteDouble? (joinTexts parts).toList = some chars
    rw [unquote_double_join]
    exact text
end Grammar

end ShellLine
