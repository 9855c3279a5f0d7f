import ShellLine.Proofs.Grammar.Alone
import ShellLine.Proofs.Grammar.Written

set_option autoImplicit false

namespace ShellLine.Grammar

open ShellLine.Parser

-- What a text starts with in front of the first character that ends a word.
def solidStart (text : List Char) : List Char := text.takeWhile fun ch => !isDelimiter ch

def closingWords : List String := ["then", "else", "elif", "fi", "do", "done", "esac", "in", "\x7d"]

def openingWords : List String := ["\x7b", "for", "case", "if", "while", "until"]

-- A text at which no command starts: it is empty, or starts with an operator or a closing word.
def Halts (text : List Char) : Prop :=
  text.head?.all (fun ch => ch ∈ ['\n', ')', ';', '&', '|']) = true ∨
    String.ofList (solidStart text) ∈ closingWords

section Reserved

variable {word : String} {text : List Char}

theorem starts_reserved_iff (solid : ∀ ch ∈ word.toList, isDelimiter ch = false) :
    startsReserved word.toList text = true ↔ String.ofList (solidStart text) = word := by
  rw [← String.toList_inj, String.toList_ofList, startsReserved, Bool.and_eq_true,
    List.isPrefixOf_iff_prefix, solidStart]
  constructor
  · rintro ⟨⟨rest, rfl⟩, ended⟩
    rw [List.drop_left] at ended
    apply take_while_stops
    · simpa using solid
    · intro ch head
      rw [head] at ended
      simpa using ended
  · intro same
    have split := List.takeWhile_append_dropWhile (p := fun ch => !isDelimiter ch) (l := text)
    rw [same] at split
    refine ⟨⟨_, split⟩, ?_⟩
    cases head : (text.drop word.toList.length).head? with
    | none => rfl
    | some ch =>
        rw [← split, List.drop_left] at head
        simpa using head_drop_while head

theorem reserved_words_solid : ∀ word ∈ reservedWords, ∀ ch ∈ word.toList, isDelimiter ch = false := by
  decide +kernel

theorem reserved_ahead_iff :
    reservedAhead text = true ↔ String.ofList (solidStart text) ∈ reservedWords := by
  rw [reservedAhead, List.any_eq_true]
  constructor
  · rintro ⟨word, member, ahead⟩
    rwa [(starts_reserved_iff (reserved_words_solid word member)).mp ahead]
  · exact fun member => ⟨_, member,
      (starts_reserved_iff (reserved_words_solid _ member)).mpr rfl⟩

end Reserved

section Rejections

variable {c : Cursor}

theorem rejects_part_at_delimiter {braced : Bool} (delimited : c.rest.head?.all isDelimiter = true) :
    (wordPart braced).Rejects c := by
  have unquoted : (unquotedLiteral braced).Rejects c := by
    have none : c.rest.takeWhile (fun ch => !isWordBreak braced ch) = [] := by
      cases rest : c.rest with
      | nil => rfl
      | cons ch others =>
          rw [rest] at delimited
          rw [List.takeWhile_cons_of_neg]
          simp only [List.head?_cons, Option.all_some] at delimited
          simp [isWordBreak, delimited]
    simp [unquotedLiteral, none]
  rw [wordPart, Rejects, fails_look_bind]
  split
  all_goals
    first
    | exact unquoted
    | (rename_i head; rw [head] at delimited; exact absurd delimited (by decide))

theorem rejects_word_at_delimiter (delimited : c.rest.head?.all isDelimiter = true) :
    (call .word).Rejects c :=
  (rejects_call .word c).mpr (rejects_word (rejects_part_at_delimiter delimited))

theorem rejects_redirection_at {ch : Char} (head : c.rest.head? = some ch) (noDigit : ch.isDigit = false)
    (noInput : ch ≠ '<') (noOutput : ch ≠ '>') : (call .redirection).Rejects c := by
  refine (rejects_call .redirection c).mpr (rejects_redirection ?_)
  obtain ⟨others, here⟩ := List.head?_eq_some_iff.mp head
  rw [here, List.dropWhile_cons_of_neg (by simp [noDigit])]
  rintro _ ⟨rfl⟩
  exact ⟨noInput, noOutput⟩

theorem rejects_keyword {word : String} (known : word ∈ reservedWords)
    (other : String.ofList (solidStart c.rest) ≠ word) : (keyword word).Rejects c := by
  rw [Rejects, fails_keyword, Bool.eq_false_iff]
  exact fun ahead => other ((starts_reserved_iff (reserved_words_solid word known)).mp ahead)

theorem opening_words_reserved : ∀ word ∈ openingWords, word ∈ reservedWords := by decide

theorem rejects_compound (noParen : c.rest.head? ≠ some '(')
    (noWord : String.ofList (solidStart c.rest) ∉ openingWords) : compoundCommand.Rejects c := by
  have noKeyword : ∀ word ∈ openingWords, (keyword word).Rejects c := by
    intro word opening
    exact rejects_keyword (opening_words_reserved word opening) fun same => noWord (same ▸ opening)
  rw [compoundCommand, Rejects, fails_look_bind]
  split
  · simp only [braceGroup, fails_atomic, fails_bind]
    exact Or.inl (noKeyword _ (by decide))
  · rename_i head
    exact absurd head noParen
  · simp only [forClause, fails_atomic, fails_bind]
    exact Or.inl (noKeyword _ (by decide))
  · simp only [caseClause, fails_atomic, fails_bind]
    exact Or.inl (noKeyword _ (by decide))
  · simp only [ifClause, fails_atomic, fails_bind]
    exact Or.inl (noKeyword _ (by decide))
  · simp only [loopClause, fails_atomic, fails_bind]
    exact Or.inl (noKeyword _ (by decide))
  · simp only [loopClause, fails_atomic, fails_bind]
    exact Or.inl (noKeyword _ (by decide))
  · exact fails_fail c

theorem continues_solid (ch : Char) (continues : continuesName ch = true) : isDelimiter ch = false := by
  have every : ∀ ch ∈ [' ', '\t', '\n', ';', '&', '|', '<', '>', '(', ')'], continuesName ch = false := by
    decide
  rw [Bool.eq_false_iff]
  intro delimiter
  cases continues.symm.trans (every ch (by simpa [isDelimiter] using delimiter))

-- The equals sign of an assignment stands right behind its name.
theorem rejects_assignment (noEquals : '=' ∉ solidStart c.rest) : assignment.Rejects c := by
  rcases gives_or_fails (reading grammar) assignment c with ⟨node, d, read⟩ | rejected
  · cases assignment_form read with
    | @value e _ parameter parts named equals items =>
        obtain ⟨-, rfl, rfl⟩ := (gives_name _ _ _).mp named
        obtain ⟨rest, here⟩ := equals
        have whole : c.rest = c.rest.takeWhile continuesName ++ '=' :: rest := by
          rw [rest_advance_take_while] at here
          rw [show '=' :: rest = _ from here, List.takeWhile_append_dropWhile]
        refine absurd ?_ noEquals
        rw [solidStart, whole, List.takeWhile_append_of_pos]
        · simp [isDelimiter]
        · intro ch member
          simpa using continues_solid ch (List.all_eq_true.mp List.all_takeWhile ch member)
  · exact rejected

theorem rejects_simple (noRedirection : (call .redirection).Rejects c) (noAssignment : assignment.Rejects c)
    (noName : commandWord.Rejects c) : simpleCommand.Rejects c := by
  have noLead : leadItem.Rejects c := (fails_or_else _ _ _).mpr ⟨noRedirection, noAssignment⟩
  rw [simpleCommand, Rejects, fails_bind]
  refine Or.inr ⟨[], c, (gives_many _ _ _ _).mpr (.stop noLead), ?_⟩
  rw [fails_attempt_bind]
  exact Or.inr ⟨noName, fails_fail c⟩

theorem rejects_command (noFunction : functionDefinition.Rejects c)
    (noCompound : compoundCommand.Rejects c) (noSimple : simpleCommand.Rejects c) :
    (call .command).Rejects c := by
  rw [rejects_call]
  simp only [grammar, command, Rejects, fails_or_else, fails_bind]
  exact ⟨noFunction, Or.inl noCompound, noSimple⟩

theorem rejects_chain (noBang : (keyword "!").Rejects c) (noCommand : (call .command).Rejects c) :
    (call .andOr).Rejects c := by
  have noPipeline : pipeline.Rejects c := by
    rw [pipeline, Rejects, fails_atomic, fails_attempt_bind]
    refine Or.inr ⟨noBang, ?_⟩
    rw [fails_bind, pipeSequence, fails_bind]
    exact Or.inl (Or.inl noCommand)
  rw [rejects_call]
  simp only [grammar, andOr, Rejects, fails_bind]
  exact Or.inl noPipeline

theorem head_of_solid_start {ch : Char} {text : List Char} (head : (solidStart text).head? = some ch) :
    text.head? = some ch := by
  cases text with
  | nil => cases head
  | cons first others =>
      rw [solidStart, List.takeWhile_cons] at head
      split at head
      · exact head
      · cases head

theorem head_of_solid_word {words : List String} {text : List Char} (accepts : Char → Bool)
    (each : ∀ word ∈ words, word.toList.head?.any accepts = true)
    (listed : String.ofList (solidStart text) ∈ words) :
    ∃ ch, text.head? = some ch ∧ accepts ch = true := by
  have starts := each _ listed
  rw [String.toList_ofList] at starts
  obtain ⟨ch, head, accepted⟩ := (Option.any_eq_true _ _).mp starts
  exact ⟨ch, head_of_solid_start head, accepted⟩

theorem rejects_simple_at_reserved_word (reserved : String.ofList (solidStart c.rest) ∈ reservedWords) :
    simpleCommand.Rejects c := by
  have noEquals := (by decide +kernel : ∀ word ∈ reservedWords, '=' ∉ word.toList) _ reserved
  rw [String.toList_ofList] at noEquals
  obtain ⟨ch, head, fits⟩ := head_of_solid_word (fun ch => !ch.isDigit && ch ≠ '<' && ch ≠ '>')
    (by decide +kernel) reserved
  simp only [Bool.and_eq_true, Bool.not_eq_true', decide_eq_true_eq] at fits
  obtain ⟨⟨noDigit, noInput⟩, noOutput⟩ := fits
  refine rejects_simple ?_ (rejects_assignment noEquals) ?_
  · exact rejects_redirection_at head noDigit noInput noOutput
  · rw [commandWord, Rejects, fails_look_bind, if_pos (reserved_ahead_iff.mpr reserved)]
    exact fails_refuse _ c

theorem rejects_function_at_reserved_word
    (reserved : String.ofList (solidStart c.rest) ∈ reservedWords) : functionDefinition.Rejects c := by
  rw [functionDefinition, Rejects, fails_look_bind, if_pos (reserved_ahead_iff.mpr reserved)]
  exact fails_fail c

def signs : List Char := ['\n', ')', ';', '&', '|', '(']

theorem signs_delimit : ∀ ch ∈ signs, isDelimiter ch = true := by decide

def AtSign (text : List Char) : Prop := text.head?.all (fun ch => ch ∈ signs) = true

instance (text : List Char) : Decidable (AtSign text) := inferInstanceAs (Decidable (_ = true))

theorem delimited_of_sign {text : List Char} (sign : AtSign text) :
    text.head?.all isDelimiter = true := by
  rw [AtSign] at sign
  cases head : text.head? with
  | none => rfl
  | some ch =>
      rw [head] at sign
      exact signs_delimit ch (by simpa using sign)

theorem solid_start_of_delimited {text : List Char} (delimited : text.head?.all isDelimiter = true) :
    solidStart text = [] := by
  cases text with
  | nil => rfl
  | cons ch others => exact List.takeWhile_cons_of_neg (by simpa using delimited)

theorem rejects_redirection_at_sign (sign : AtSign c.rest) : (call .redirection).Rejects c := by
  rw [AtSign] at sign
  cases head : c.rest.head? with
  | none =>
      rw [List.head?_eq_none_iff] at head
      exact (rejects_call .redirection c).mpr (rejects_redirection (by simp [head]))
  | some ch =>
      rw [head] at sign
      obtain ⟨noDigit, noInput, noOutput⟩ :=
        (by decide : ∀ ch ∈ signs, ch.isDigit = false ∧ ch ≠ '<' ∧ ch ≠ '>') ch (by simpa using sign)
      exact rejects_redirection_at head noDigit noInput noOutput

theorem rejects_simple_at_sign (sign : AtSign c.rest) : simpleCommand.Rejects c := by
  have delimited := delimited_of_sign sign
  refine rejects_simple (rejects_redirection_at_sign sign) (rejects_assignment ?_) ?_
  · simp [solid_start_of_delimited delimited]
  · rw [commandWord, Rejects, fails_look_bind]
    split
    · exact fails_refuse _ c
    · exact rejects_word_at_delimiter delimited

theorem rejects_function_at_sign (sign : AtSign c.rest) : functionDefinition.Rejects c := by
  apply rejects_function_definition
  rw [AtSign] at sign
  cases head : c.rest.head? with
  | none => rfl
  | some ch =>
      rw [head] at sign
      exact (by decide : ∀ ch ∈ signs, startsName ch = false) ch (by simpa using sign)

theorem at_sign_of_halting {text : List Char}
    (sign : text.head?.all (fun ch => ch ∈ ['\n', ')', ';', '&', '|']) = true) :
    AtSign text ∧ text.head? ≠ some '(' := by
  rw [AtSign]
  cases head : text.head? with
  | none => exact ⟨rfl, nofun⟩
  | some ch =>
      rw [head] at sign
      obtain ⟨known, other⟩ := (by decide : ∀ ch ∈ ['\n', ')', ';', '&', '|'], ch ∈ signs ∧ ch ≠ '(') ch
        (by simpa using sign)
      exact ⟨by simpa using known, by simpa using other⟩

theorem command_rejects_at_halt (halts : Halts c.rest) : (call .command).Rejects c := by
  rcases halts with sign | closing
  · obtain ⟨sign, noParen⟩ := at_sign_of_halting sign
    have empty := solid_start_of_delimited (delimited_of_sign sign)
    refine rejects_command (rejects_function_at_sign sign) (rejects_compound noParen ?_)
      (rejects_simple_at_sign sign)
    rw [empty]
    decide
  · obtain ⟨reserved, noOpening⟩ := (by decide : ∀ word ∈ closingWords,
      word ∈ reservedWords ∧ word ∉ openingWords) _ closing
    refine rejects_command (rejects_function_at_reserved_word reserved) (rejects_compound ?_ noOpening)
      (rejects_simple_at_reserved_word reserved)
    obtain ⟨ch, head, other⟩ := head_of_solid_word (· ≠ '(') (by decide +kernel) closing
    rw [head]
    simpa using other

theorem chain_rejects_at_halt (halts : Halts c.rest) : (call .andOr).Rejects c := by
  refine rejects_chain (rejects_keyword (by decide) ?_) (command_rejects_at_halt halts)
  rcases halts with sign | closing
  · rw [solid_start_of_delimited (delimited_of_sign (at_sign_of_halting sign).1)]
    decide
  · exact (by decide : ∀ word ∈ closingWords, word ≠ "!") _ closing

end Rejections

end ShellLine.Grammar
