import ShellLine.Proofs.Bytewise.Steps
import ShellLine.Proofs.Grammar.Token

set_option autoImplicit false

namespace ShellLine.Bytewise

open Text Program
open Grammar (backtick isDelimiter isWordBreak isDoubleQuotedText isSpecialParameter layoutLength startsReserved
  reservedWords reservedAhead startsName continuesName)

section Classes

theorem ne_of_beyond {c other : Char} (beyond : 128 ≤ c.toNat) (ascii : other.toNat < 128) : c ≠ other := by
  rintro rfl
  exact Nat.not_lt_of_le beyond ascii

theorem not_mem_of_beyond {c : Char} (beyond : 128 ≤ c.toNat) {chars : List Char}
    (ascii : ∀ other ∈ chars, other.toNat < 128) : c ∉ chars :=
  fun member => Nat.not_lt_of_le beyond (ascii c member)

theorem not_delimiter_of_beyond {c : Char} (beyond : 128 ≤ c.toNat) : isDelimiter c = false :=
  decide_eq_false (not_mem_of_beyond beyond (by decide))

theorem not_word_break_of_beyond {c : Char} (beyond : 128 ≤ c.toNat) (braced : Bool) :
    isWordBreak braced c = false := by
  have quotes : decide (c ∈ ['$', backtick, '\\', '"', '\'']) = false :=
    decide_eq_false (not_mem_of_beyond beyond (by decide))
  have brace : decide (c = '\x7d') = false := decide_eq_false (ne_of_beyond beyond (by decide))
  rw [isWordBreak, not_delimiter_of_beyond beyond, quotes, brace, Bool.and_false]
  rfl

theorem not_digit_of_beyond {c : Char} (beyond : 128 ≤ c.toNat) : c.isDigit = false := by
  simp only [Char.isDigit, Bool.and_eq_false_iff, decide_eq_false_iff_not, UInt32.not_le]
  exact Or.inr (UInt32.lt_iff_toNat_lt.mpr (Nat.lt_of_lt_of_le (by decide) beyond))

theorem not_continues_of_beyond {c : Char} (beyond : 128 ≤ c.toNat) : continuesName c = false := by
  have underscore : decide (c = '_') = false := decide_eq_false (ne_of_beyond beyond (by decide))
  have above : ∀ bound : UInt32, bound.toNat < 128 → ¬ c.val ≤ bound := fun bound ascii less =>
    Nat.not_lt_of_le beyond (Nat.lt_of_le_of_lt (UInt32.le_iff_toNat_le.mp less) ascii)
  rw [continuesName, Char.isAlphanum, not_digit_of_beyond beyond, underscore]
  simp [← Bool.not_eq_true, Grammar.is_alpha_iff, above _ (by decide : (90 : UInt32).toNat < 128),
    above _ (by decide : (122 : UInt32).toNat < 128)]

theorem not_special_of_beyond {c : Char} (beyond : 128 ≤ c.toNat) : isSpecialParameter c = false :=
  decide_eq_false (not_mem_of_beyond beyond (by decide))

theorem ascii_of_holds {accepts : Char → Bool} (never : ∀ c : Char, 128 ≤ c.toNat → accepts c = false) {c : Char}
    (holds : accepts c = true) : c.toNat < 128 :=
  Nat.lt_of_not_le fun beyond => Bool.false_ne_true ((never c beyond).symm.trans holds)

theorem ascii_of_starts {c : Char} (starts : startsName c = true) : c.toNat < 128 :=
  ascii_of_holds (fun _ => not_continues_of_beyond) (Grammar.continues_of_starts c starts)

theorem coarse_newline : Coarse (· ≠ '\n') :=
  coarse_of_beyond true fun _ beyond => decide_eq_true (ne_of_beyond beyond (by decide))

theorem coarse_delimiter : Coarse isDelimiter := coarse_of_beyond false fun _ => not_delimiter_of_beyond

theorem coarse_starts : Coarse startsName := by
  refine coarse_of_beyond false fun c beyond => Bool.eq_false_iff.mpr fun starts => ?_
  exact Nat.not_lt_of_le beyond (ascii_of_starts starts)

theorem coarse_continues : Coarse continuesName := coarse_of_beyond false fun _ => not_continues_of_beyond

theorem coarse_digit : Coarse Char.isDigit := coarse_of_beyond false fun _ => not_digit_of_beyond

theorem coarse_special : Coarse isSpecialParameter := coarse_of_beyond false fun _ => not_special_of_beyond

theorem coarse_unquoted (braced : Bool) : Coarse fun c => !isWordBreak braced c :=
  coarse_of_beyond true fun _ beyond => by rw [not_word_break_of_beyond beyond, Bool.not_false]

theorem coarse_double_quoted : Coarse isDoubleQuotedText :=
  coarse_of_beyond true fun _ beyond => decide_eq_true (not_mem_of_beyond beyond (by decide))

theorem coarse_backquoted : Coarse fun c => c ≠ backtick && c ≠ '\\' := by
  refine coarse_of_beyond true fun c beyond => ?_
  have quote : decide (c ≠ backtick) = true := decide_eq_true (ne_of_beyond beyond (by decide))
  have escape : decide (c ≠ '\\') = true := decide_eq_true (ne_of_beyond beyond (by decide))
  rw [quote, escape, Bool.and_true]

end Classes

section Layout

variable {input : String} {limit : Nat} {c : Cursor}

theorem ascii_ahead {k : Char} {rest : List Char} (here : c.rest = k :: rest) (ascii : k.toNat < 128) :
    lead c.rest = some k := here ▸ lead_of_ascii ascii rest

theorem within_after (within : c.rest <:+ input.toList) (count : Nat) : (c.advance count).rest <:+ input.toList :=
  (c.advance_suffix count).trans within

theorem one_byte {c : Char} (ascii : c.toNat < 128) : byteLength [c] = 1 := by
  rw [byteLength, ascii_width ascii, byteLength]

theorem advance_twice (c : Cursor) (first second : Nat) : (c.advance first).advance second = c.advance (first + second) := by
  apply Cursor.ext_rest
  rw [Cursor.rest_advance, Cursor.rest_advance, Cursor.rest_advance, List.drop_drop]

theorem reaches_over (front : List Char) {more : List Char} (within : c.rest <:+ input.toList) (here : c.rest = front ++ more) :
    Reaches input limit (advance (byteLength front)) c () (c.advance front.length) :=
  reaches_advance within (by rw [Cursor.rest_advance, here, List.drop_left])

theorem reaches_more_after (front : List Char) {more : List Char} (within : c.rest <:+ input.toList) (here : c.rest = front ++ more) :
    Reaches input limit (do advance (byteLength front); return Turn.more ()) c (.more ()) (c.advance front.length) :=
  reaches_bind (reaches_over front within here) (within_after within _) (reaches_give _)

theorem reaches_blank_idle (within : c.rest <:+ input.toList) (idle : layoutLength false false c.rest = 0) :
    Reaches input limit blank c .stop c := by
  refine reaches_bind reaches_peek within ?_
  cases here : c.rest with
  | nil => exact reaches_give _
  | cons ch rest =>
      have seen : ∀ k : Char, k.toNat < 128 → (lead (ch :: rest) = some k ↔ ch = k) := fun k ascii => by
        rw [lead_eq_some ascii, List.head?_cons, Option.some.injEq]
      have apart : ∀ k ∈ [' ', '\t', '#'], lead (ch :: rest) ≠ some k := by
        intro k among first
        rw [here] at idle
        simp only [List.mem_cons, List.not_mem_nil, or_false] at among
        rcases among with rfl | rfl | rfl <;>
          (obtain rfl := (seen _ (by decide)).mp first; simp [layoutLength] at idle)
      split
      · exact absurd ‹_› (apart ' ' (by decide))
      · exact absurd ‹_› (apart '\t' (by decide))
      · rename_i first
        obtain rfl := (seen '\\' (by decide)).mp first
        refine reaches_bind (reaches_peek_at ['\\'] here) within ?_
        rw [if_neg]
        · exact reaches_give _
        · intro second
          obtain ⟨more, rfl⟩ := List.head?_eq_some_iff.mp ((lead_eq_some (by decide)).mp second)
          rw [here] at idle
          simp [layoutLength] at idle
      · exact absurd ‹_› (apart '#' (by decide))
      · exact reaches_give _

theorem comment_length (text : List Char) :
    (text.takeWhile (· ≠ '\n')).length = layoutLength false true text := by
  induction text with
  | nil => rfl
  | cons ch others ih =>
      by_cases newline : ch = '\n'
      · subst newline
        rfl
      · rw [List.takeWhile_cons_of_pos (by simpa using newline), List.length_cons, ih,
          Grammar.comment_step newline]

theorem reaches_blank_rounds (c : Cursor) (within : c.rest <:+ input.toList) :
    ∃ values, Reaches input limit (.rounds blank) c values c.pastBlanks := by
  by_cases idle : layoutLength false false c.rest = 0
  · have still : c.pastBlanks = c := by rw [Cursor.pastBlanks, idle, Grammar.advance_none]
    exact ⟨[], still.symm ▸ reaches_stop (reaches_blank_idle within idle)⟩
  · have step : ∃ count, 0 < count ∧ Reaches input limit blank c (.more ()) (c.advance count) ∧
        c.pastBlanks = (c.advance count).pastBlanks := by
      obtain ⟨rest, here | here | here | here⟩ := Grammar.blanks_start idle
      · refine ⟨1, Nat.one_pos, reaches_bind reaches_peek within ?_,
          Grammar.past_blanks_step (by rw [Cursor.rest_advance, here, layoutLength, List.drop_one, List.tail_cons])⟩
        rw [ascii_ahead here (by decide)]
        exact reaches_more_after [' '] within here
      · refine ⟨1, Nat.one_pos, reaches_bind reaches_peek within ?_,
          Grammar.past_blanks_step (by rw [Cursor.rest_advance, here, layoutLength, List.drop_one, List.tail_cons])⟩
        rw [ascii_ahead here (by decide)]
        exact reaches_more_after ['\t'] within here
      · refine ⟨(c.rest.takeWhile (· ≠ '\n')).length, by simp [here], reaches_bind reaches_peek within ?_, ?_⟩
        · rw [ascii_ahead here (by decide)]
          exact reaches_bind (reaches_scan_while coarse_newline within) (within_after within _) (reaches_give _)
        · have count : (c.rest.takeWhile (· ≠ '\n')).length = layoutLength false true rest + 1 := by
            rw [here, List.takeWhile_cons_of_pos (by decide), List.length_cons, comment_length]
          refine Grammar.past_blanks_step ?_
          rw [Cursor.rest_advance, count, here, List.drop_succ_cons, Grammar.layout_length_drop, layoutLength,
            Nat.add_zero, Nat.add_comm]
      · refine ⟨2, Nat.two_pos, reaches_bind reaches_peek within ?_,
          Grammar.past_blanks_step (by rw [Cursor.rest_advance, here, layoutLength]; rfl)⟩
        rw [ascii_ahead here (by decide)]
        refine reaches_bind (reaches_peek_at ['\\'] here) within ?_
        rw [lead_of_ascii (by decide), if_pos rfl]
        exact reaches_more_after ['\\', '\n'] within here
    obtain ⟨count, moves, stepped, same⟩ := step
    have further := c.advance_left_lt count (by rintro empty; simp [empty, layoutLength] at idle) moves
    obtain ⟨values, others⟩ := reaches_blank_rounds (c.advance count) (within_after within count)
    exact ⟨_, same ▸ reaches_more stepped (within_after within count) others⟩
termination_by c.left

theorem reaches_blanks (within : c.rest <:+ input.toList) : Reaches input limit blanks c () c.pastBlanks := by
  obtain ⟨values, reaches⟩ := reaches_blank_rounds c within
  exact reaches_bind reaches (within_after within _) (reaches_give ())

theorem past_lines_after_newline (newline : c.rest.head? = some '\n') :
    c.pastBreak = (c.advance 1).pastBlanks.pastBreak := by
  obtain ⟨rest, here⟩ := List.head?_eq_some_iff.mp newline
  rw [Grammar.past_blanks_and_break, Cursor.pastBreak, if_pos newline]
  apply Cursor.ext_rest
  simp only [Cursor.pastLines, Cursor.rest_advance, here, layoutLength, if_true, List.drop_succ_cons,
    List.drop_zero, Nat.add_comm 1]

theorem reaches_newline_rounds (c : Cursor) (within : c.rest <:+ input.toList) :
    ∃ values, Reaches input limit (.rounds newline) c values c.pastBreak := by
  by_cases first : c.rest.head? = some '\n'
  · obtain ⟨rest, here⟩ := List.head?_eq_some_iff.mp first
    have after := within_after within 1
    have behind : (c.advance 1).pastBlanks.rest <:+ input.toList := within_after after _
    have step : Reaches input limit newline c (.more ()) (c.advance 1).pastBlanks := by
      refine reaches_bind reaches_peek within ?_
      rw [if_pos ((lead_eq_some (by decide)).mpr first)]
      exact reaches_bind (reaches_over ['\n'] within here) after
        (reaches_bind (reaches_blanks after) behind (reaches_give _))
    have further : (c.advance 1).pastBlanks.left < c.left :=
      Nat.lt_of_le_of_lt (Grammar.past_blanks_left_le _) (c.advance_left_lt 1 (by simp [here]) Nat.one_pos)
    obtain ⟨values, others⟩ := reaches_newline_rounds _ behind
    exact ⟨_, past_lines_after_newline first ▸ reaches_more step behind others⟩
  · refine ⟨[], ?_⟩
    rw [Cursor.pastBreak, if_neg first]
    refine reaches_stop (reaches_bind reaches_peek within ?_)
    rw [if_neg (fun newline => first ((lead_eq_some (by decide)).mp newline))]
    exact reaches_give _
termination_by c.left

end Layout

section Tokens

variable {input : String} {limit bound : Nat} {here : List Char → Prop} {c : Cursor}

theorem refines_blanks : Refines input limit bound never here blanks Grammar.blanks :=
  refines_of_moves Cursor.pastBlanks (fun _ => ()) Grammar.plain_blanks (fun _ _ _ => rfl) fun c within _ =>
    ⟨reaches_blanks within, c.advance_suffix _⟩

theorem refines_newlines : Refines input limit bound back here newlines Grammar.newlines := by
  refine refines_peek fun ahead _ => ?_
  by_cases first : ahead.head? = some '\n'
  · rw [if_pos ((lead_eq_some (by decide)).mpr first), if_pos first]
    refine refines_of_never (refines_over fun c within same => ?_)
    subst same
    obtain ⟨values, rounds⟩ : ∃ values, Reaches input limit (.rounds newline) c values c.pastBreak :=
      reaches_newline_rounds c within
    rw [Cursor.pastBreak, if_pos first] at rounds
    exact reaches_bind rounds (within_after within _) (reaches_give ())
  · rw [if_neg (fun newline => first ((lead_eq_some (by decide)).mp newline)), if_neg first]
    exact refines_refuse _

theorem refines_line_break : Refines input limit bound never here lineBreak Grammar.lineBreak :=
  refines_optional refines_newlines

theorem refines_literal (text : String) :
    Refines input limit bound back here (literal text) (Grammar.literal text) := by
  refine refines_rest fun ahead _ => ?_
  by_cases stands : text.toList.isPrefixOf ahead = true
  · obtain ⟨more, rfl⟩ := List.isPrefixOf_iff_prefix.mp stands
    rw [if_pos stands, if_pos stands, size_in_bytes, ← String.length_toList]
    exact refines_of_never (refines_skip text.toList more)
  · rw [if_neg stands, if_neg stands]
    exact refines_refuse _

theorem refines_operator (text : String) :
    Refines input limit bound back here (operator text) (Grammar.operator text) :=
  refines_then (refines_literal text) fun _ => refines_blanks

theorem reaches_literal {text : String} {more : List Char} (within : c.rest <:+ input.toList)
    (stands : c.rest = text.toList ++ more) : Reaches input limit (literal text) c () (c.advance text.length) := by
  refine reaches_bind reaches_rest within ?_
  rw [if_pos (List.isPrefixOf_iff_prefix.mpr ⟨more, stands.symm⟩), size_in_bytes, ← String.length_toList]
  exact reaches_over _ within stands

theorem comes_literal_refused {text : String} {level : Nat} {s : State} {e : ShellLine.State}
    (sent : Matches input s e) (missing : ¬ text.toList <+: e.cursor.rest) :
    Comes input limit back (literal text) level s e none (e.note (.literal text)) := by
  refine comes_after _ reaches_rest sent rfl sent.sound.cursor (fun t again => ?_) fun _ => id
  rw [if_neg (missing ∘ List.isPrefixOf_iff_prefix.mp)]
  exact comes_refuse again _

theorem reaches_char {ch : Char} {others : List Char} (within : c.rest <:+ input.toList)
    (stands : c.rest = ch :: others) : Reaches input limit (literal (.singleton ch)) c () (c.advance 1) := by
  have text : (String.singleton ch).toList = [ch] := String.toList_singleton ch
  have whole : c.rest = (String.singleton ch).toList ++ others := by
    rw [text]
    exact stands
  have reaches : Reaches input limit (literal (.singleton ch)) c () _ := reaches_literal within whole
  rwa [← String.length_toList, text] at reaches

theorem reaches_lone_operator {ch : Char} {others : List Char} (within : c.rest <:+ input.toList)
    (ascii : ch.toNat < 128) (stands : c.rest = ch :: others) (alone : others.head? ≠ some ch) :
    Reaches input limit (loneOperator ch) c () (c.advance 1).pastBlanks := by
  have behind := within_after within 1
  have past : (c.advance 1).rest = others := by rw [Cursor.rest_advance, stands, List.drop_one, List.tail_cons]
  refine reaches_bind reaches_position within
    (reaches_bind (reaches_char within stands) behind (reaches_bind reaches_peek behind ?_))
  rw [past, if_neg (mt (lead_eq_some ascii).mp alone)]
  exact reaches_blanks behind

theorem comes_lone_operator_refused {ch : Char} {level : Nat} {s : State} {e : ShellLine.State}
    (sent : Matches input s e) (ascii : ch.toNat < 128)
    (missing : ∀ others, e.cursor.rest = ch :: others → others.head? = some ch) :
    Comes input limit back (loneOperator ch) level s e none (e.note (.literal (.singleton ch))) := by
  have within := sent.sound.cursor
  refine comes_after _ reaches_position sent rfl within (fun t again => ?_) fun _ => id
  by_cases first : ∃ others, e.cursor.rest = ch :: others
  · obtain ⟨others, stands⟩ := first
    have behind := within_after within 1
    have past : (e.cursor.advance 1).rest = others := by
      rw [Cursor.rest_advance, stands, List.drop_one, List.tail_cons]
    refine comes_after (fun _ _ d => d = e.cursor) (reaches_char within stands) again rfl behind
      (fun u moved => ?_) fun _ => id
    refine comes_after (fun _ _ d => d = e.cursor) reaches_peek moved rfl behind (fun v looked => ?_) fun _ => id
    rw [past, if_pos ((lead_eq_some ascii).mpr (missing others stands))]
    exact comes_after back (reaches_move_to within) looked rfl within
      (fun w restored => comes_refuse restored _) fun _ => id
  · refine comes_cut (comes_literal_refused again ?_)
    rw [String.toList_singleton]
    rintro ⟨others, stands⟩
    exact first ⟨others, stands.symm⟩

theorem refines_lone_operator {ch : Char} (ascii : ch.toNat < 128) :
    Refines input limit bound back here (loneOperator ch) (Grammar.loneOperator ch) := by
  refine refines_looked fun ahead _ => ?_
  match ahead with
  | [] =>
      refine refines_refused fun level s e sent empty => comes_lone_operator_refused sent ascii fun others stands => ?_
      cases empty.symm.trans stands
  | first :: others =>
      by_cases alone : first = ch ∧ others.head? ≠ some ch
      · obtain ⟨rfl, single⟩ := alone
        simp only [single, ne_eq, not_false_eq_true, and_self, if_true]
        refine refines_of_moves (fun c => (c.advance 1).pastBlanks) (fun _ => ()) (by simp) (fun _ _ _ => rfl) ?_
        exact fun c within stands =>
          ⟨reaches_lone_operator within ascii stands single, (Cursor.advance_suffix _ _).trans (c.advance_suffix 1)⟩
      · simp only [if_neg alone]
        refine refines_refused fun level s e sent stands => comes_lone_operator_refused sent ascii fun more same => ?_
        obtain ⟨rfl, rfl⟩ := List.cons.inj (stands.symm.trans same)
        exact Decidable.byContradiction fun single => alone ⟨rfl, single⟩

theorem refines_literal_among (operators : List (String × Kind)) :
    Refines input limit bound back here (literalAmong operators) (Grammar.literalAmong operators) := by
  induction operators with
  | nil => exact refines_miss fun _ => rfl
  | cons first others ih =>
      have one : Refines input limit bound back here (do literal first.1; return first.2)
          (do Grammar.literal first.1; return first.2) :=
        refines_then (refines_literal first.1) fun _ => refines_give _
      exact refines_either one ih

theorem reaches_keyword_here (word : String) (within : c.rest <:+ input.toList) :
    Reaches input limit (keywordHere word) c (startsReserved word.toList c.rest) c := by
  refine reaches_bind reaches_rest within ?_
  rw [startsReserved]
  by_cases stands : word.toList.isPrefixOf c.rest = true
  · obtain ⟨more, whole⟩ := List.isPrefixOf_iff_prefix.mp stands
    rw [if_pos stands, stands, Bool.true_and, ← whole, List.drop_left, size_in_bytes]
    refine reaches_bind (reaches_peek_at _ whole.symm) within ?_
    rw [lead_all coarse_delimiter]
    exact reaches_give _
  · rw [if_neg stands, Bool.eq_false_iff.mpr stands, Bool.false_and]
    exact reaches_give _

theorem refines_keyword (word : String) :
    Refines input limit bound back here (keyword word) (Grammar.keyword word) := by
  refine refines_look (startsReserved word.toList) (fun _ within _ => reaches_keyword_here word within)
    fun ahead _ => ?_
  by_cases stands : startsReserved word.toList ahead = true
  · obtain ⟨more, rfl⟩ := Grammar.starts_of_starts_reserved _ _ stands
    rw [if_pos stands, if_pos stands, size_in_bytes, ← String.length_toList]
    exact refines_then (refines_of_never (refines_skip word.toList more)) fun _ => refines_blanks
  · rw [if_neg stands, if_neg stands]
    exact refines_refuse _

theorem reaches_any_here (words : List String) (within : c.rest <:+ input.toList) :
    Reaches input limit (anyHere words) c (words.any fun word => startsReserved word.toList c.rest) c := by
  induction words with
  | nil => exact reaches_give _
  | cons word others ih =>
      refine reaches_bind (reaches_keyword_here word within) within ?_
      rw [List.any_cons]
      cases startsReserved word.toList c.rest with
      | true => exact reaches_give _
      | false => exact ih

theorem reaches_reserved_here (within : c.rest <:+ input.toList) :
    Reaches input limit reservedHere c (reservedAhead c.rest) c := reaches_any_here reservedWords within

theorem taken_and_rest (accepts : Char → Bool) (c : Cursor) :
    c.rest = c.rest.takeWhile accepts ++ (c.advance (c.rest.takeWhile accepts).length).rest := by
  rw [Cursor.rest_advance]
  exact (List.prefix_iff_eq_append.mp (List.takeWhile_prefix accepts)).symm

theorem reaches_scanned {accepts : Char → Bool} (coarse : Coarse accepts) {start : Cursor} {front : List Char}
    (within : start.rest <:+ input.toList) (whole : start.rest = front ++ c.rest) :
    Reaches input limit (do scanWhile accepts; sliceFrom (offsetOf input start.left)) c
      (front ++ c.rest.takeWhile accepts) (c.advance (c.rest.takeWhile accepts).length) := by
  have behind : c.rest <:+ input.toList := (List.suffix_append front c.rest).trans (whole ▸ within)
  refine reaches_bind (reaches_scan_while coarse behind) (within_after behind _)
    (reaches_slice_from within ?_)
  rw [whole, List.append_assoc]
  exact congrArg (front ++ ·) (taken_and_rest accepts c)

theorem reaches_taken {accepts : Char → Bool} (coarse : Coarse accepts) (within : c.rest <:+ input.toList) :
    Reaches input limit (do scanWhile accepts; sliceFrom (offsetOf input c.left)) c (c.rest.takeWhile accepts)
      (c.advance (c.rest.takeWhile accepts).length) :=
  reaches_scanned coarse within (List.nil_append _).symm

theorem reaches_name {ch : Char} {others : List Char} (within : c.rest <:+ input.toList) (stands : c.rest = ch :: others)
    (starts : startsName ch = true) :
    Reaches input limit name c (c.rest.takeWhile continuesName) (c.advance (c.rest.takeWhile continuesName).length) := by
  have ascii := ascii_of_starts starts
  have behind := within_after within 1
  have past : (c.advance 1).rest = others := by rw [Cursor.rest_advance, stands, List.drop_one, List.tail_cons]
  refine reaches_bind reaches_position within (reaches_bind reaches_peek within ?_)
  have one : advance 1 = advance (byteLength [ch]) := by rw [one_byte ascii]
  have whole : c.rest.takeWhile continuesName = [ch] ++ (c.advance 1).rest.takeWhile continuesName := by
    rw [past, stands, List.takeWhile_cons_of_pos (Grammar.continues_of_starts ch starts), List.singleton_append]
  rw [ascii_ahead stands ascii, whole, List.length_append, ← advance_twice]
  simp only [starts, if_true, one]
  exact reaches_bind (reaches_over [ch] within stands) behind
    (reaches_scanned coarse_continues within (by rw [Cursor.rest_advance, stands]; rfl))

theorem refines_name : Refines input limit bound back here name Grammar.name := by
  refine refines_looked fun ahead _ => ?_
  by_cases starts : ahead.head?.any startsName = true
  · rw [if_pos starts]
    obtain ⟨ch, first, begins⟩ := Option.any_eq_true _ _ |>.mp starts
    obtain ⟨others, rfl⟩ := List.head?_eq_some_iff.mp first
    exact refines_take_while fun c within stands => reaches_name within stands begins
  · rw [if_neg starts]
    refine refines_refused fun level s e sent stands => ?_
    refine comes_after _ reaches_position sent rfl sent.sound.cursor (fun t again => ?_) fun _ => id
    refine comes_after _ reaches_peek again rfl sent.sound.cursor (fun t looked => ?_) fun _ => id
    rw [← stands, ← lead_any coarse_starts] at starts
    split
    · rename_i x first
      rw [first, Option.any_some] at starts
      rw [if_neg starts]
      exact comes_refuse looked _
    · exact comes_refuse looked _

end Tokens

end ShellLine.Bytewise
