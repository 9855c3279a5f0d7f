import ShellLine.Bytewise.Word
import ShellLine.Grammar.Redirection
import ShellLine.Proofs.Bytewise.Tokens

set_option autoImplicit false

namespace ShellLine.Bytewise

open Text Program
open Grammar (backtick isWordBreak isDoubleQuotedText isSpecialParameter parameterOperators redirectionOperators)

def callEnding : Rule → Ending
  | .operand | .conditional => anywhere
  | .word | .redirection | .command | .andOr => back

def CallsRefine (input : String) (limit bound : Nat) : Prop :=
  ∀ rule (here : List Char → Prop), Refines input limit bound (callEnding rule) here (.call rule) (.call rule)

section Scans

variable {input : String} {limit bound : Nat} {ends : Ending} {here : List Char → Prop} {α : Type}
  {accepts : Char → Bool}

theorem refines_scanned (nextEnds : Ending) {e : Expected} {next : Nat → Program α} {following : List Char → Parser α}
    (coarse : Coarse accepts) (allowed : ∀ c f, ends c f c.cursor) (passes : ∀ c m f d, nextEnds m f d → ends c f d)
    (each : ∀ (start : Cursor) chars, start.rest <:+ input.toList → Refines input limit bound nextEnds
      (fun rest => start.rest = chars ++ rest) (next (offsetOf input start.left)) (following chars)) :
    Refines input limit bound ends here
      (do
        let start ← position
        scanWhile accepts
        if (← position) = start then refuse e else next start)
      (do
        let chars ← Parser.takeWhile accepts
        if chars = [] then Parser.refuse e else following chars) := by
  intro level s c trace value f short sent stands runs
  obtain ⟨after, shorter, runs⟩ := run_behind_taken sent.sound runs
  have within := sent.sound.cursor
  have behind := within_after within (c.cursor.rest.takeWhile accepts).length
  let ending : Ending := fun _ g d => ends c g d
  refine comes_after ending reaches_position sent rfl within (fun t placed => ?_) fun _ => id
  refine comes_after ending (reaches_scan_while coarse within) placed rfl behind (fun u scanned => ?_) fun _ => id
  refine comes_after ending reaches_position scanned rfl behind (fun v again => ?_) fun _ => id
  by_cases empty : c.cursor.rest.takeWhile accepts = []
  · rw [if_pos empty] at runs
    rw [empty, List.length_nil, Grammar.advance_none] at runs again ⊢
    rw [if_pos rfl]
    have refused : Refines input limit bound back (fun _ => True) (refuse e : Program α) (Parser.refuse e) :=
      refines_refuse e
    exact comes_mono (refused level v c after value f (Nat.le_trans shorter short) again trivial runs)
      fun d same => same ▸ allowed c f
  · have moved : offsetOf input (c.cursor.advance (c.cursor.rest.takeWhile accepts).length).left ≠
        offsetOf input c.cursor.left := by
      intro same
      have further := c.cursor.advance_left_lt (c.cursor.rest.takeWhile accepts).length
        (by rintro none; simp [none] at empty) (List.length_pos_iff.mpr empty)
      rw [(offset_inj behind within).mp same] at further
      exact Nat.lt_irrefl _ further
    rw [if_neg empty] at runs
    rw [if_neg moved]
    have whole := taken_and_rest accepts c.cursor
    have came := each c.cursor _ within level v _ after value f (Nat.le_trans shorter short) again whole runs
    exact comes_mono came fun d left => passes c _ f d left

theorem refines_text_run (coarse : Coarse accepts) :
    Refines input limit bound ends here (textRun accepts) (do return .more (.text (← Parser.takeWhile accepts))) := by
  refine refines_of_moves (fun c => c.advance (c.rest.takeWhile accepts).length)
    (fun rest => .more (.text (rest.takeWhile accepts))) (by simp) (fun level c _ => ?_)
    fun c within _ => ⟨?_, c.advance_suffix _⟩
  · simp only [bind, pure, Parser.run, take_while_run]
  · have behind := within_after within (c.rest.takeWhile accepts).length
    refine reaches_bind reaches_position within (reaches_bind (reaches_scan_while coarse within) behind ?_)
    exact reaches_bind (reaches_slice_from within (taken_and_rest accepts c)) behind (reaches_give _)

theorem refines_sliced {start : Cursor} {chars : List Char} {kind : Kind} (within : start.rest <:+ input.toList) :
    Refines input limit bound ends (fun rest => start.rest = chars ++ rest)
      (do return Node.leaf kind (← sliceFrom (offsetOf input start.left))) (do return Node.leaf kind chars) := by
  refine refines_of_moves id (fun _ => Node.leaf kind chars) (by simp) (fun _ _ _ => rfl)
    fun c _ whole => ⟨?_, List.suffix_refl _⟩
  have behind : c.rest <:+ start.rest := whole ▸ List.suffix_append chars c.rest
  exact reaches_bind (reaches_slice_from within whole) (behind.trans within) (reaches_give _)

end Scans

section Quotes

variable {input : String} {limit bound : Nat} {ends : Ending} {here : List Char → Prop}

theorem refines_unquoted_literal (braced : Bool) :
    Refines input limit bound back here (unquotedLiteral braced) (Grammar.unquotedLiteral braced) := by
  exact refines_scanned never (coarse_unquoted braced) (fun _ _ => rfl) (fun _ _ _ _ => False.elim)
    fun start chars => refines_sliced

theorem find_eq_some {c : Char} {text : List Char} {count : Nat} (found : find? c text = some count) :
    ∃ more, text = text.takeWhile (· ≠ c) ++ c :: more ∧ byteLength (text.takeWhile (· ≠ c)) = count := by
  induction text generalizing count with
  | nil => cases found
  | cons first others ih =>
      rw [find?] at found
      by_cases same : first = c
      · rw [if_pos same] at found
        subst same
        exact ⟨others, by simp, by simpa [byteLength] using found⟩
      · rw [if_neg same] at found
        obtain ⟨inner, further, rfl⟩ := Option.map_eq_some_iff.mp found
        obtain ⟨more, whole, width⟩ := ih further
        rw [List.takeWhile_cons_of_pos (by simpa using same), byteLength, width]
        exact ⟨more, congrArg (first :: ·) whole, rfl⟩

theorem find_eq_none {c : Char} {text : List Char} (missing : find? c text = none) : text.takeWhile (· ≠ c) = text := by
  refine List.takeWhile_eq_self_iff.mpr ?_
  induction text with
  | nil => exact nofun
  | cons first others ih =>
      rw [find?] at missing
      by_cases same : first = c
      · rw [if_pos same] at missing
        cases missing
      · rw [if_neg same] at missing
        exact List.forall_mem_cons.mpr ⟨by simpa using same, ih (Option.map_eq_none_iff.mp missing)⟩

theorem refines_single_quote (more : List Char) :
    Refines input limit bound back (· = '\'' :: more) singleQuote Grammar.singleQuote := by
  refine refines_atomic (refines_anyhow (refines_skip ['\''] more) fun _ => ?_)
  intro level s c trace value e short sent _ runs
  obtain ⟨after, shorter, runs⟩ := run_behind_taken sent.sound runs
  have within := sent.sound.cursor
  refine comes_after anywhere reaches_rest sent rfl within (fun t again => ?_) fun _ => id
  have behind := within_after within (c.cursor.rest.takeWhile (· ≠ '\'')).length
  cases found : find? '\'' c.cursor.rest with
  | some count =>
      obtain ⟨others, whole, width⟩ := find_eq_some found
      generalize c.cursor.rest.takeWhile (· ≠ '\'') = passed at *
      have place : (c.cursor.advance passed.length).rest = '\'' :: others := by
        rw [Cursor.rest_advance, whole, List.drop_left]
      obtain ⟨last, -, runs⟩ := run_of_look runs
      simp only [place] at runs
      have same := run_of_plain (by simp) (sound_moved sent.sound behind) runs
      obtain ⟨rfl, rfl⟩ := Prod.mk.inj same
      have split : c.cursor.rest = passed ++ (c.cursor.advance passed.length).rest := by
        rw [place]
        exact whole
      have stop : offsetOf input c.cursor.left + count = offsetOf input (c.cursor.advance passed.length).left := by
        rw [offset_after within split, width]
      have past : Reaches input limit (advance (count + 1)) c.cursor () ((c.cursor.advance passed.length).advance 1) := by
        have past : count + 1 = byteLength (passed ++ ['\'']) := by rw [byte_length_append, width]; rfl
        have length : passed.length + 1 = (passed ++ ['\'']).length := by simp
        rw [past, advance_twice, length]
        exact reaches_over _ within (whole.trans (List.append_cons ..))
      refine comes_of_reaches (reaches_bind reaches_position within ?_) again (within_after behind 1)
      rw [stop]
      exact reaches_bind (reaches_slice within split) within
        (reaches_bind past (within_after behind 1) (reaches_give _))
  | none =>
      have place : (c.cursor.advance (c.cursor.rest.takeWhile (· ≠ '\'')).length).rest = [] := by
        rw [find_eq_none found, Cursor.rest_advance, List.drop_length]
      generalize c.cursor.advance (c.cursor.rest.takeWhile (· ≠ '\'')).length = last at *
      have stop : (bytes input.toList).length = offsetOf input last.left := by
        rw [last.left_eq, place]
        exact (offset_of_end input).symm
      refine comes_after anywhere reaches_length again rfl within (fun u measured => ?_) fun _ => id
      rw [stop]
      refine comes_after anywhere (reaches_move_to behind) measured rfl behind (fun v moved => ?_) fun _ => id
      obtain ⟨end_, shorterYet, runs⟩ := run_of_look runs
      simp only [place] at runs
      have refuses : Refines input limit bound anywhere (fun _ => True)
          (do fail (.literal "'"); refuse (.token .singleQuoted) : Program Node) _ :=
        refines_anyhow (refines_expected _) fun _ => refines_lax (refines_refuse _)
      exact refuses level v _ end_ value e (by omega) moved trivial runs

theorem refines_bare_escape (more : List Char) :
    Refines input limit bound back (· = '\\' :: more) bareEscape Grammar.bareEscape := by
  refine refines_atomic (refines_anyhow (refines_skip ['\\'] more) fun _ => refines_rest fun ahead _ => ?_)
  cases ahead with
  | nil => exact refines_lax (refines_refuse _)
  | cons c others => exact refines_anyhow (refines_skip [c] others) fun _ => refines_give _

theorem refines_backslash {more : List Char} :
    Refines input limit bound anywhere (· = '\\' :: more) backslash
      (do
        Parser.skip 1
        return .more (.text ['\\'])) :=
  refines_anyhow (refines_skip ['\\'] more) fun _ => refines_give _

theorem refines_escaped {kind : Kind} {chars more : List Char} {c : Char} (ascii : c.toNat < 128) :
    Refines input limit bound anywhere (· = '\\' :: c :: more) (escaped kind chars)
      (do
        Parser.skip 2
        return .more (.node (.leaf kind chars))) := by
  have two : advance 2 = advance (byteLength ['\\', c]) := by
    rw [byteLength, one_byte ascii]
    rfl
  rw [escaped, two]
  exact refines_anyhow (refines_skip ['\\', c] more) fun _ => refines_give _

theorem reaches_second {first : Char} {more : List Char} (ascii : first.toNat < 128) (c : Cursor) (stands : c.rest = first :: more) :
    Reaches input limit (peekAt 1) c (lead more) c := by
  rw [← one_byte ascii]
  exact reaches_peek_at [first] stands

theorem refines_backquoted_part (inDoubleQuote : Bool) :
    Refines input limit bound anywhere here (backquotedPart inDoubleQuote) (Grammar.backquotedPart inDoubleQuote) := by
  refine refines_peek fun ahead _ => ?_
  split
  · obtain rfl := nil_of_lead ‹_›
    exact refines_anyhow (refines_expected _) fun _ => refines_anyhow (refines_expected _) fun _ =>
      refines_lax (refines_refuse _)
  · obtain ⟨more, rfl⟩ := cons_of_lead ‹_› (by decide)
    exact refines_anyhow (refines_skip [backtick] more) fun _ => refines_give _
  · obtain ⟨more, rfl⟩ := cons_of_lead ‹_› (by decide)
    refine refines_peeked (fun c _ stands => reaches_second (by decide) c stands) ?_
    cases more with
    | nil => exact refines_backslash
    | cons second others =>
        obtain ⟨x, first, alike⟩ := lead_cons second others
        rw [first]
        have ascii : ∀ c, c = backtick ∨ c = '$' ∨ c = '\\' ∨ inDoubleQuote ∧ c = '"' → c.toNat < 128 := by
          rintro c (rfl | rfl | rfl | ⟨-, rfl⟩) <;> decide
        by_cases special : second = backtick ∨ second = '$' ∨ second = '\\' ∨ inDoubleQuote ∧ second = '"'
        · obtain rfl := alike_eq alike (ascii second special)
          simp only [List.head?_cons, if_pos special]
          exact refines_escaped (ascii x special)
        · simp only [List.head?_cons, if_neg special, if_neg (mt (alike_iff ascii alike).mp special)]
          exact refines_backslash
  · rename_i x notBacktick notEscape first
    split
    · cases first
    · exact (notEscape (eq_of_lead first (by decide))).elim
    · rw [if_neg]
      · exact refines_text_run coarse_backquoted
      · rintro rfl
        exact notBacktick (eq_of_lead first (by decide))

theorem refines_backquote (inDoubleQuote : Bool) (more : List Char) :
    Refines input limit bound back (· = backtick :: more) (backquote inDoubleQuote) (Grammar.backquote inDoubleQuote) := by
  refine refines_atomic (refines_anyhow (refines_skip [backtick] more) fun _ => ?_)
  exact refines_anyhow (refines_rounds (refines_backquoted_part inDoubleQuote) fun _ _ _ _ => id) fun _ => refines_give _

end Quotes

section Parameters

variable {input : String} {limit bound : Nat} {ends : Ending} {here : List Char → Prop} {α : Type}

theorem refines_position {next : Nat → Program α} {p : Parser α} {ahead : List Char}
    (later : Refines input limit bound ends (· = ahead) (next (offsetOf input (byteLength ahead))) p) :
    Refines input limit bound ends (· = ahead) (position >>= next) p := by
  refine refines_peeked (fun c _ stands => ?_) later
  rw [← stands, ← c.left_eq]
  exact reaches_position

theorem refines_peeked_at {next : Option Char → Program α} {p : Parser α} {ahead : List Char}
    (later : Refines input limit bound ends (· = ahead) (next (lead ahead)) p) :
    Refines input limit bound ends (· = ahead) (peek >>= next) p := by
  refine refines_peeked (fun c _ stands => ?_) later
  rw [← stands]
  exact reaches_peek

theorem refines_name_or_refused : Refines input limit bound back here (name <|> refuse (.token .parameter))
    (Grammar.name <|> Parser.refuse (.token .parameter)) :=
  refines_either refines_name (refines_refuse _)

theorem refines_braced_parameter : Refines input limit bound back here bracedParameter Grammar.bracedParameter := by
  refine refines_looked fun ahead _ => refines_position (refines_peeked_at ?_)
  cases ahead with
  | nil => exact refines_name_or_refused
  | cons c others =>
      obtain ⟨x, first, alike⟩ := lead_cons c others
      rw [first]
      simp only [alike_accepts coarse_digit alike, alike_accepts coarse_special alike]
      by_cases digit : c.isDigit = true
      · simp only [if_pos digit]
        refine refines_take_while fun d within stands => ?_
        rw [← stands, ← d.left_eq]
        exact reaches_taken coarse_digit within
      by_cases special : isSpecialParameter c = true
      · simp only [if_neg digit, if_pos special]
        refine refines_of_moves (fun d => d.advance 1) (fun rest => rest.take 1) (by simp) (fun _ _ _ => rfl)
          fun d within stands => ⟨?_, d.advance_suffix 1⟩
        have one : advance 1 = advance (byteLength [c]) := by
          rw [one_byte (ascii_of_holds (fun _ => not_special_of_beyond) special)]
        have behind := within_after within 1
        rw [one, ← stands, ← d.left_eq]
        refine reaches_bind (reaches_over [c] within stands) behind (reaches_slice_from within ?_)
        rw [Cursor.rest_advance]
        exact (List.take_append_drop 1 d.rest).symm
      · simp only [if_neg digit, if_neg special]
        exact refines_name_or_refused

theorem refines_string_length (more : List Char) :
    Refines input limit bound back (· = '$' :: '\x7b' :: more) stringLength Grammar.stringLength :=
  refines_atomic <| refines_anyhow (refines_skip ['$', '\x7b'] more) fun _ =>
    refines_anyhow (refines_literal "#") fun _ => refines_anyhow refines_braced_parameter fun _ =>
      refines_anyhow (refines_literal "\x7d") fun _ => refines_give _

theorem refines_parameter_operation (calls : CallsRefine input limit bound) (more : List Char) :
    Refines input limit bound back (· = '$' :: '\x7b' :: more) parameterOperation Grammar.parameterOperation :=
  refines_atomic <| refines_anyhow (refines_skip ['$', '\x7b'] more) fun _ =>
    refines_anyhow refines_braced_parameter fun _ => refines_anyhow (refines_literal_among _) fun _ =>
      refines_anyhow (refines_nested (calls .operand _) fun _ => trivial) fun _ =>
        refines_anyhow (refines_literal "\x7d") fun _ => refines_give _

theorem refines_bare_braced_parameter (more : List Char) :
    Refines input limit bound back (· = '$' :: '\x7b' :: more) bareBracedParameter Grammar.bareBracedParameter :=
  refines_atomic <| refines_anyhow (refines_skip ['$', '\x7b'] more) fun _ =>
    refines_anyhow refines_braced_parameter fun _ =>
      refines_anyhow (refines_literal "\x7d") fun _ => refines_give _

theorem refines_braced_expansion (calls : CallsRefine input limit bound) (more : List Char) :
    Refines input limit bound back (· = '$' :: '\x7b' :: more) bracedExpansion Grammar.bracedExpansion :=
  refines_either (refines_string_length more)
    (refines_either (refines_parameter_operation calls more) (refines_bare_braced_parameter more))

theorem refines_named_parameter : Refines input limit bound anywhere here namedParameter Grammar.namedParameter := by
  refine refines_anyhow (refines_maybe refines_name) fun tried => ?_
  cases tried with
  | some chars => exact refines_give _
  | none =>
      exact refines_anyhow (refines_expected _) fun _ => refines_anyhow (refines_expected _) fun _ =>
        refines_lax (refines_refuse _)

theorem refines_plain_parameter (more : List Char) :
    Refines input limit bound back (· = '$' :: more) plainParameter Grammar.plainParameter := by
  refine refines_atomic (refines_anyhow (refines_skip ['$'] more) fun _ => refines_peek fun ahead _ => ?_)
  cases ahead with
  | nil => exact refines_named_parameter
  | cons c others =>
      obtain ⟨x, first, alike⟩ := lead_cons c others
      rw [first]
      simp only [alike_accepts coarse_digit alike, alike_accepts coarse_special alike]
      by_cases special : isSpecialParameter c = true
      · have ascii := ascii_of_holds (fun _ => not_special_of_beyond) special
        have one : advance 1 = advance (byteLength [c]) := by rw [one_byte ascii]
        simp only [if_pos special, alike_eq alike ascii, one]
        exact refines_anyhow (refines_skip [c] others) fun _ => refines_give _
      by_cases digit : c.isDigit = true
      · have ascii := ascii_of_holds (fun _ => not_digit_of_beyond) digit
        have one : advance 1 = advance (byteLength [c]) := by rw [one_byte ascii]
        simp only [if_neg special, if_pos digit, alike_eq alike ascii, one]
        exact refines_anyhow (refines_skip [c] others) fun _ => refines_give _
      · simp only [if_neg special, if_neg digit]
        exact refines_named_parameter

end Parameters

section Lists

variable {input : String} {limit bound : Nat} {here : List Char → Prop}

theorem refines_separator (lines : Bool) :
    Refines input limit bound back here (separator lines) (Grammar.separator lines) := by
  have moreLines : Refines input limit bound never (fun _ => True) (if lines then lineBreak else return ())
      (if lines then Grammar.lineBreak else return ()) := by
    cases lines with
    | true => exact refines_line_break
    | false => exact refines_give ()
  have newline : Refines input limit bound back here (if lines then do newlines; return .sequential else miss)
      (if lines then do Grammar.newlines; return Grammar.Separator.sequential else .fail) := by
    cases lines with
    | true => exact refines_then refines_newlines fun _ => refines_give _
    | false => exact refines_miss fun _ => rfl
  refine refines_either (refines_then (refines_lone_operator (by decide)) fun _ => ?_)
    (refines_either (refines_then (refines_lone_operator (by decide)) fun _ => ?_) newline)
  · exact refines_surely moreLines fun _ => refines_give _
  · exact refines_surely moreLines fun _ => refines_give _

theorem refines_term (calls : CallsRefine input limit bound) (lines : Bool) :
    Refines input limit bound never here (term lines) (Grammar.term lines) := by
  refine refines_surely (refines_maybe (calls .andOr _)) fun tried => ?_
  cases tried with
  | none => exact refines_give _
  | some node =>
      refine refines_surely (refines_maybe (refines_separator lines)) fun kind => ?_
      rcases kind with - | - | - <;> exact refines_give _

theorem empty_term_list_still {lines : Bool} {level : Nat} {c m : ShellLine.State} {trace : Trace}
    (sound : c.Sound input.toList)
    (runs : ShellLine.Runs ⟨true, limit⟩ (.rounds (Grammar.term lines)) level c trace (some [], m)) : m.cursor = c.cursor := by
  have given := (runs_sound runs sound).2.2 [] rfl
  cases (Parser.may_give_rounds _ _ _ _).mp given with
  | stop turn =>
      obtain ⟨tried, d, first, rest⟩ := turn
      rcases first with ⟨node, rfl, -⟩ | ⟨rfl, rfl⟩
      · obtain ⟨kind, f, -, last⟩ := rest
        rcases kind with - | - | - <;> cases last.1
      · exact rest.2.symm

theorem refines_term_list (calls : CallsRefine input limit bound) (lines : Bool) :
    Refines input limit bound back here (termList lines) (Grammar.termList lines) := by
  intro level s c trace value e short sent _ runs
  have terms : Refines input limit bound never (fun _ => True) (.rounds (term lines)) (.rounds (Grammar.term lines)) :=
    refines_rounds (refines_term calls lines) fun _ _ _ _ => id
  rcases has_run_of_runs runs with ⟨nodes, m, before, after, ran, later, rfl⟩ | ⟨m, ran, -⟩
  · rw [List.length_append] at short
    obtain ⟨trail, t, came, safe, sentLater⟩ := terms level s c before _ m (by omega) sent trivial ran
    match nodes with
    | [] =>
        obtain ⟨-, same⟩ := has_run_of_runs later
        obtain ⟨rfl, rfl⟩ := Prod.mk.inj same
        have still := empty_term_list_still sent.sound ran
        exact ⟨_, t, e.cursor, runs_and_then came runs_miss, safe_append safe safe_nil, still, sentLater⟩
    | [only] =>
        obtain ⟨-, same⟩ := has_run_of_runs later
        obtain ⟨rfl, rfl⟩ := Prod.mk.inj same
        exact ⟨_, t, runs_and_then came (runs_give _), safe_append safe safe_nil, sentLater⟩
    | _ :: _ :: _ =>
        obtain ⟨-, same⟩ := has_run_of_runs later
        obtain ⟨rfl, rfl⟩ := Prod.mk.inj same
        exact ⟨_, t, runs_and_then came (runs_give _), safe_append safe safe_nil, sentLater⟩
  · obtain ⟨_, _, _, -, -, left, -⟩ := terms level s c trace none m short sent trivial ran
    exact left.elim

theorem refines_complete_command (calls : CallsRefine input limit bound) :
    Refines input limit bound back here completeCommand Grammar.completeCommand :=
  refines_then (refines_term_list calls false) fun _ => refines_give _

theorem refines_complete_commands (calls : CallsRefine input limit bound) :
    Refines input limit bound never here completeCommands Grammar.completeCommands := by
  refine refines_surely (refines_maybe (refines_complete_command calls)) fun tried => ?_
  cases tried with
  | none => exact refines_give _
  | some first =>
      have item : Refines input limit bound anywhere (fun _ => True) (do newlines; completeCommand)
          (do Grammar.newlines; Grammar.completeCommand) :=
        refines_anyhow refines_newlines fun _ => refines_lax (refines_complete_command calls)
      exact refines_surely (refines_attempts item) fun _ => refines_give _

theorem refines_program (calls : CallsRefine input limit bound) :
    Refines input limit bound never here program Grammar.program :=
  refines_surely refines_blanks fun _ => refines_surely refines_line_break fun _ =>
    refines_surely (refines_complete_commands calls) fun _ =>
      refines_surely refines_line_break fun _ => refines_give _

end Lists

section Expansions

variable {input : String} {limit bound : Nat} {ends : Ending} {here : List Char → Prop} {α : Type}

theorem refines_arithmetic_expansion (calls : CallsRefine input limit bound) (more : List Char) :
    Refines input limit bound back (· = '$' :: '(' :: '(' :: more) arithmeticExpansion Grammar.arithmeticExpansion := by
  refine refines_nested (refines_atomic ?_) fun _ => rfl
  exact refines_anyhow (refines_skip ['$', '(', '('] more) fun _ => refines_anyhow refines_blanks fun _ =>
    refines_anyhow (refines_many (calls .word _)) fun _ => refines_anyhow (refines_literal "))") fun _ => refines_give _

theorem refines_command_expansion (calls : CallsRefine input limit bound) (more : List Char) :
    Refines input limit bound back (· = '$' :: '(' :: more) commandExpansion Grammar.commandExpansion := by
  refine refines_nested (refines_atomic ?_) fun _ => rfl
  exact refines_anyhow (refines_skip ['$', '('] more) fun _ => refines_anyhow refines_blanks fun _ =>
    refines_anyhow refines_line_break fun _ => refines_anyhow (refines_complete_commands calls) fun _ =>
      refines_anyhow refines_line_break fun _ => refines_anyhow (refines_literal ")") fun _ => refines_give _

theorem refines_rest_at {next : List Char → Program α} {p : Parser α} {ahead : List Char}
    (later : Refines input limit bound ends (· = ahead) (next ahead) p) :
    Refines input limit bound ends (· = ahead) (rest >>= next) p := by
  refine refines_peeked (fun c _ stands => ?_) later
  rw [← stands]
  exact reaches_rest

theorem refines_given {β : Type} {next : β → Program α} {value : β} {p : Parser α}
    (later : Refines input limit bound ends here (next value) p) :
    Refines input limit bound ends here (pure value >>= next) p :=
  refines_peeked (fun _ _ _ => reaches_give value) later

theorem refines_dollar_expansion (calls : CallsRefine input limit bound) (more : List Char) :
    Refines input limit bound back (· = '$' :: more) dollarExpansion Grammar.dollarExpansion := by
  refine refines_looked fun ahead same => ?_
  split
  · refine refines_rest_at ?_
    rw [if_pos (by simp)]
    refine refines_tried (refines_arithmetic_expansion calls _) (fun _ => rfl) (refines_rest_at ?_)
    rw [if_pos (by simp)]
    exact refines_command_expansion calls _
  · rename_i others single
    have once : ¬ "$((".toList.isPrefixOf ('$' :: '(' :: others) = true := by
      rw [List.isPrefixOf_iff_prefix]
      rintro ⟨further, whole⟩
      exact single further (by simpa using whole.symm)
    refine refines_rest_at ?_
    rw [if_neg once]
    refine refines_given (refines_rest_at ?_)
    rw [if_pos (by simp)]
    exact refines_command_expansion calls _
  · refine refines_rest_at ?_
    rw [if_neg (by simp)]
    refine refines_given (refines_rest_at ?_)
    rw [if_neg (by simp)]
    refine refines_rest_at ?_
    rw [if_pos (by simp)]
    exact refines_braced_expansion calls _
  · rename_i noArithmetic noCommand noBrace
    have apart : ∀ text : String, (∀ tail, ahead ≠ text.toList ++ tail) → ¬ text.toList.isPrefixOf ahead = true := by
      intro text other stands
      obtain ⟨tail, whole⟩ := List.isPrefixOf_iff_prefix.mp stands
      exact other tail whole.symm
    refine refines_rest_at ?_
    rw [if_neg (apart _ (by simpa using noArithmetic))]
    refine refines_given (refines_rest_at ?_)
    rw [if_neg (apart _ (by simpa using noCommand))]
    refine refines_rest_at ?_
    rw [if_neg (apart _ (by simpa using noBrace)), same]
    exact refines_plain_parameter more

end Expansions

section Words

variable {input : String} {limit bound : Nat} {ends : Ending} {here : List Char → Prop} {α : Type}

theorem refines_double_quoted_part (calls : CallsRefine input limit bound) :
    Refines input limit bound anywhere here doubleQuotedPart Grammar.doubleQuotedPart := by
  refine refines_peek fun ahead _ => ?_
  split
  · obtain rfl := nil_of_lead ‹_›
    exact refines_anyhow (refines_expected _) fun _ => refines_anyhow (refines_expected _) fun _ =>
      refines_anyhow (refines_expected _) fun _ => refines_anyhow (refines_expected _) fun _ =>
        refines_lax (refines_refuse _)
  · obtain ⟨more, rfl⟩ := cons_of_lead ‹_› (by decide)
    exact refines_anyhow (refines_skip ['"'] more) fun _ => refines_give _
  · obtain ⟨more, rfl⟩ := cons_of_lead ‹_› (by decide)
    refine refines_peeked (fun c _ stands => reaches_second (by decide) c stands) ?_
    cases more with
    | nil => exact refines_backslash
    | cons second others =>
        obtain ⟨x, first, alike⟩ := lead_cons second others
        rw [first]
        have ascii : ∀ c, c = '$' ∨ c = backtick ∨ c = '"' ∨ c = '\\' → c.toNat < 128 := by
          rintro c (rfl | rfl | rfl | rfl) <;> decide
        by_cases special : second = '$' ∨ second = backtick ∨ second = '"' ∨ second = '\\'
        · obtain rfl := alike_eq alike (ascii second special)
          simp only [List.head?_cons, if_pos special]
          exact refines_escaped (ascii x special)
        by_cases joins : second = '\n'
        · subst joins
          obtain rfl := alike_eq alike (by decide)
          exact refines_escaped (by decide)
        · have other : x ≠ '\n' := mt (alike_iff (P := (· = '\n')) (fun _ same => same ▸ by decide) alike).mp joins
          simp only [List.head?_cons, if_neg special, if_neg (mt (alike_iff ascii alike).mp special), if_neg joins,
            if_neg other]
          exact refines_backslash
  · obtain ⟨more, rfl⟩ := cons_of_lead ‹_› (by decide)
    exact refines_anyhow (refines_backquote true more) fun _ => refines_give _
  · obtain ⟨more, rfl⟩ := cons_of_lead ‹_› (by decide)
    exact refines_anyhow (refines_dollar_expansion calls more) fun _ => refines_give _
  · rename_i x noQuote noEscape noBackquote noDollar first
    split
    · cases first
    · exact (noQuote (eq_of_lead first (by decide))).elim
    · exact (noDollar (eq_of_lead first (by decide))).elim
    · exact (noEscape (eq_of_lead first (by decide))).elim
    · rw [if_neg]
      · exact refines_text_run coarse_double_quoted
      · rintro rfl
        exact noBackquote (eq_of_lead first (by decide))

theorem refines_double_quote (calls : CallsRefine input limit bound) (more : List Char) :
    Refines input limit bound back (· = '"' :: more) doubleQuote Grammar.doubleQuote := by
  refine refines_atomic (refines_anyhow (refines_skip ['"'] more) fun _ => ?_)
  exact refines_anyhow (refines_rounds (refines_double_quoted_part calls) fun _ _ _ _ => id) fun _ => refines_give _

theorem refines_word_part (calls : CallsRefine input limit bound) (braced : Bool) :
    Refines input limit bound back here (wordPart braced) (Grammar.wordPart braced) := by
  refine refines_peek fun ahead _ => ?_
  split
  · obtain ⟨more, rfl⟩ := cons_of_lead ‹_› (by decide)
    exact refines_single_quote more
  · obtain ⟨more, rfl⟩ := cons_of_lead ‹_› (by decide)
    exact refines_double_quote calls more
  · obtain ⟨more, rfl⟩ := cons_of_lead ‹_› (by decide)
    exact refines_backquote false more
  · obtain ⟨more, rfl⟩ := cons_of_lead ‹_› (by decide)
    exact refines_dollar_expansion calls more
  · obtain ⟨more, rfl⟩ := cons_of_lead ‹_› (by decide)
    exact refines_bare_escape more
  · rename_i noQuote noDoubleQuote noBackquote noDollar noEscape
    split
    · exact absurd ‹_› (head_apart noQuote (by decide))
    · exact absurd ‹_› (head_apart noDoubleQuote (by decide))
    · exact absurd ‹_› (head_apart noBackquote (by decide))
    · exact absurd ‹_› (head_apart noDollar (by decide))
    · exact absurd ‹_› (head_apart noEscape (by decide))
    · exact refines_unquoted_literal braced

theorem refines_word_parts (calls : CallsRefine input limit bound) (braced : Bool) :
    Refines input limit bound never (fun _ => True) (wordParts braced) (Grammar.wordParts braced) :=
  refines_many (refines_word_part calls braced)

theorem refines_word (calls : CallsRefine input limit bound) :
    Refines input limit bound anywhere (fun _ => True) word Grammar.word := by
  refine refines_anyhow (refines_word_parts calls false) fun parts => ?_
  cases parts with
  | nil => exact refines_miss fun _ => trivial
  | cons first others => exact refines_anyhow refines_blanks fun _ => refines_give _

theorem refines_operand (calls : CallsRefine input limit bound) :
    Refines input limit bound anywhere (fun _ => True) operand Grammar.operand :=
  refines_anyhow (refines_word_parts calls true) fun _ => refines_give _

end Words

end ShellLine.Bytewise
