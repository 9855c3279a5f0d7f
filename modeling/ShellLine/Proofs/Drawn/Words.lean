import ShellLine.Proofs.Drawn.Nodes
import ShellLine.Proofs.Forms.Word

set_option autoImplicit false

namespace ShellLine

namespace Rule

-- Whether a rule gives a node that is written as all that it passed over.
def isExact : Rule → Bool
  | operand => true
  | _ => false

def Draws : Rule → List Char → Node → Prop
  | operand, passed, node => ∃ parts, node = .ofNodes .word parts ∧ Strung Node.Spelled passed parts
  | conditional, taken, node => node.Drawn taken ∧ node.kind.isRow = true
  | word, taken, node | redirection, taken, node | command, taken, node | andOr, taken, node => node.Drawn taken

end Rule

def drawnReplies : Replies := fun rule c node d =>
  d.rest <:+ c.rest ∧ ∃ taken, TakenFrom rule.isExact (taken ++ d.rest) c.rest ∧ rule.Draws taken node

namespace Grammar

open ShellLine.Parser

section Tokens

variable {replies : Replies} {exact : Bool} {c : Cursor} {α : Type} {R : List Char → α → Prop}

theorem rest_of_taken {front : List Char} {d : Cursor} (kept : TakenFrom true (front ++ d.rest) c.rest) :
    c.rest = front ++ d.rest := (kept.2 rfl).symm

theorem takes_skip (front : List Char) {rest : List Char} (here : c.rest = front ++ rest) :
    (skip front.length).Takes replies exact c fun taken _ => taken = front := by
  rintro _ d ends
  cases ends
  refine ⟨front, ?_, rfl⟩
  rw [c.rest_advance_append front rest here, ← here]
  exact taken_refl exact _

theorem takes_expected_bind {e : Expected} {next : Unit → Parser α}
    (later : (next ()).Takes replies exact c R) : (expected e >>= next).Takes replies exact c R := by
  intro a d ends
  obtain ⟨_, f, noted, behind⟩ := may_end_bind ends
  cases noted
  exact later a d behind

theorem takes_take_while (accepts : Char → Bool) : (takeWhile accepts).Takes replies exact c
    fun taken chars => taken = chars ∧ chars = c.rest.takeWhile accepts := by
  refine takes_look_bind (takes_look_bind ?_)
  refine takes_mono (takes_bind (takes_skip (c.rest.takeWhile accepts) (rest_take_while c accepts))
    (Q := fun taken chars => taken = chars ∧ chars = c.rest.takeWhile accepts) fun front _ d same _ => ?_)
    fun _ _ same => same
  have first : c.rest.take (c.rest.takeWhile accepts).length = c.rest.takeWhile accepts :=
    (List.prefix_iff_eq_take.mp (List.takeWhile_prefix accepts)).symm
  rw [first]
  exact takes_pure ⟨(List.append_nil front).trans same, rfl⟩

theorem rest_behind_run {accepts : Char → Bool} {d : Cursor}
    (kept : TakenFrom true (c.rest.takeWhile accepts ++ d.rest) c.rest) : d.rest = c.rest.dropWhile accepts := by
  have whole : c.rest.takeWhile accepts ++ d.rest = c.rest.takeWhile accepts ++ c.rest.dropWhile accepts := by
    rw [List.takeWhile_append_dropWhile, ← rest_of_taken kept]
  exact List.append_cancel_left whole

theorem takes_literal (text : String) : (literal text).Takes replies exact c fun taken _ => taken = text.toList := by
  rintro _ d ends
  replace ends := may_end_literal ends
  split at ends
  · rename_i here
    cases ends
    refine ⟨text.toList, ?_, rfl⟩
    rw [← String.length_toList, ← rest_past_text (List.isPrefixOf_iff_prefix.mp here)]
    exact taken_refl exact _
  · cases ends

theorem takes_literal_among (operators : List (String × Kind)) :
    (literalAmong operators).Takes replies exact c fun taken kind => ∃ text : String, taken = text.toList ∧
      operators.find? (fun operator => operator.1.toList.isPrefixOf c.rest) = some (text, kind) := by
  intro kind d ends
  obtain ⟨text, found, rfl⟩ := may_end_literal_among ends
  have here := List.find?_some found
  refine ⟨text.toList, ?_, text, rfl, found⟩
  rw [← String.length_toList, ← rest_past_text (List.isPrefixOf_iff_prefix.mp here)]
  exact taken_refl exact _

theorem takes_name : name.Takes replies exact c fun taken chars => taken = chars ∧ chars ≠ [] := by
  refine takes_look_bind ?_
  split
  · rename_i starts
    refine takes_mono (takes_take_while continuesName) fun taken chars known => ⟨known.1, ?_⟩
    obtain ⟨-, rfl⟩ := known
    cases here : c.rest with
    | nil => simp [here] at starts
    | cons first others =>
        rw [here, List.head?_cons, Option.any_some] at starts
        rw [List.takeWhile_cons_of_pos (continues_of_starts first starts)]
        exact List.cons_ne_nil _ _
  · exact takes_refuse _

theorem takes_braced_parameter : bracedParameter.Takes replies exact c
    fun taken parameter => taken = parameter ∧ parameter ≠ [] := by
  have named : (name <|> refuse (.token .parameter) : Parser (List Char)).Takes replies exact c
      fun taken parameter => taken = parameter ∧ parameter ≠ [] := takes_or_else takes_name (takes_refuse _)
  refine takes_look_bind ?_
  cases here : c.rest with
  | nil => exact named
  | cons first others =>
      dsimp only
      split
      · rename_i digit
        refine takes_mono (takes_take_while Char.isDigit) fun taken chars known => ⟨known.1, ?_⟩
        rw [known.2, here, List.takeWhile_cons_of_pos digit]
        exact List.cons_ne_nil _ _
      · split
        · refine takes_look_bind (takes_bind (takes_skip [first] here) fun front _ d same _ => ?_)
          rw [here]
          exact takes_pure ⟨(List.append_nil front).trans same, List.cons_ne_nil _ _⟩
        · exact named

end Tokens

section Leaves

variable {replies : Replies} {c : Cursor} {rest : List Char}

theorem takes_single_quote (opens : c.rest = '\'' :: rest) : singleQuote.Takes replies true c Node.Spelled := by
  refine takes_atomic (takes_bind (takes_skip ['\''] opens) fun quote _ d quoted _ => ?_)
  refine takes_bind (takes_take_while _) fun passed chars e known kept => takes_look_bind ?_
  obtain ⟨rfl, inside⟩ := known
  rw [inside] at kept
  cases here : e.rest with
  | nil => exact takes_expected_bind (takes_refuse _)
  | cons last others =>
      obtain rfl : last = '\'' := by
        have stops := (rest_behind_run kept).symm.trans here
        simpa using head_drop_while (congrArg List.head? stops)
      refine takes_bind (takes_skip ['\''] here) fun closing _ f closed _ => takes_pure ?_
      have between : Kind.singleQuote.ShowsBetween ['\''] ['\''] := ⟨rfl, rfl, rfl, rfl, rfl⟩
      exact spelled_between between (fun _ => rfl) (by simp [quoted, closed])

theorem takes_bare_escape (opens : c.rest = '\\' :: rest) : bareEscape.Takes replies true c Node.Spelled := by
  refine takes_atomic (takes_bind (takes_skip ['\\'] opens) fun sign _ d signed _ => takes_look_bind ?_)
  cases here : d.rest with
  | nil => exact takes_refuse _
  | cons first others =>
      refine takes_bind (takes_skip [first] here) fun escaped _ e same _ => takes_pure ?_
      rw [List.append_nil, signed, same]
      by_cases newline : first = '\n'
      · rw [if_pos newline, newline]
        exact spelled_leaf rfl (fun _ => rfl) rfl
      · rw [if_neg newline]
        exact spelled_escape rfl rfl rfl rfl

theorem takes_unquoted_literal (braced : Bool) : (unquotedLiteral braced).Takes replies true c Node.Spelled := by
  refine takes_bind (takes_take_while _) fun passed chars d known _ => ?_
  split
  · exact takes_refuse _
  · rename_i nonempty
    have between : Kind.unquotedLiteral.ShowsBetween [] [] := ⟨rfl, rfl, rfl, rfl, rfl⟩
    exact takes_pure (spelled_between between (fun empty => absurd empty nonempty) (by simp [known.1]))

theorem takes_plain_parameter (opens : c.rest = '$' :: rest) : plainParameter.Takes replies true c Node.Spelled := by
  have spelled : ∀ {kind : Kind} {chars passed : List Char}, kind.ShowsBetween ['$'] [] → chars ≠ [] →
      passed = '$' :: chars → (Node.leaf kind chars).Spelled passed := by
    intro kind chars passed between nonempty same
    exact spelled_between between (fun empty => absurd empty nonempty) (by simp [same])
  refine takes_atomic (takes_bind (takes_skip ['$'] opens) fun sign _ d signed _ => takes_look_bind ?_)
  have named : namedParameter.Takes replies true d fun passed node => node.Spelled (sign ++ passed) := by
    refine takes_bind (takes_attempt takes_name) fun passed tried e known _ => ?_
    cases tried with
    | none => exact takes_expected_bind (takes_expected_bind (takes_refuse _))
    | some chars =>
        obtain ⟨rfl, nonempty⟩ := known
        exact takes_pure (spelled ⟨rfl, rfl, rfl, rfl, rfl⟩ nonempty (by simp [signed]))
  cases here : d.rest with
  | nil => exact named
  | cons first others =>
      dsimp only
      split
      · refine takes_bind (takes_skip [first] here) fun passed _ e same _ => takes_pure ?_
        exact spelled ⟨rfl, rfl, rfl, rfl, rfl⟩ (List.cons_ne_nil _ _) (by simp [signed, same])
      · split
        · refine takes_bind (takes_skip [first] here) fun passed _ e same _ => takes_pure ?_
          exact spelled ⟨rfl, rfl, rfl, rfl, rfl⟩ (List.cons_ne_nil _ _) (by simp [signed, same])
        · exact named

theorem takes_backquoted_part (inDoubleQuote : Bool) :
    (backquotedPart inDoubleQuote).Takes replies true c (SpelledTurn backtick) := by
  refine takes_look_bind ?_
  split
  · exact takes_expected_bind (takes_expected_bind (takes_refuse _))
  · rename_i others here
    split
    · rename_i first head
      split
      · obtain ⟨more, rfl⟩ := List.head?_eq_some_iff.mp head
        refine takes_bind (takes_skip ['\\', first] here) fun passed _ e same _ => takes_pure ?_
        rw [List.append_nil, same]
        exact spelled_escape rfl rfl rfl rfl
      · exact takes_bind (takes_skip ['\\'] here) fun passed _ e same _ => takes_return same
    · exact takes_bind (takes_skip ['\\'] here) fun passed _ e same _ => takes_return same
  · rename_i first others _ here
    split
    · rename_i closes
      refine takes_bind (takes_skip [first] here) fun passed _ e same _ => takes_pure ?_
      rw [List.append_nil, same, closes]
      rfl
    · exact takes_bind (takes_take_while _) fun passed chars e known _ => takes_return known.1

theorem takes_backquote (inDoubleQuote : Bool) (opens : c.rest = backtick :: rest) :
    (backquote inDoubleQuote).Takes replies true c Node.Spelled := by
  refine takes_atomic (takes_bind (takes_skip [backtick] opens) fun quote _ d quoted _ => ?_)
  refine takes_bind (takes_rounds fun _ => takes_backquoted_part inDoubleQuote) fun taken parts e turns _ => ?_
  obtain ⟨passed, rfl, strung⟩ := strung_of_spelled_turns turns
  refine takes_pure ?_
  rw [List.append_nil, quoted, List.singleton_append, ← List.cons_append]
  cases inDoubleQuote with
  | false => exact spelled_quoted rfl strung
  | true => exact spelled_quoted rfl strung

end Leaves

section Braces

variable {replies : Replies} {c : Cursor} {rest : List Char}

theorem takes_string_length (opens : c.rest = '$' :: '\x7b' :: rest) :
    stringLength.Takes replies true c Node.Spelled := by
  refine takes_atomic (takes_bind (takes_skip ['$', '\x7b'] opens) fun opening _ _ opened _ => ?_)
  refine takes_bind (takes_literal "#") fun sign _ _ signed _ => ?_
  refine takes_bind takes_braced_parameter fun passed parameter _ known _ => ?_
  refine takes_bind (takes_literal "\x7d") fun closing _ _ closed _ => takes_pure ?_
  have between : Kind.stringLength.ShowsBetween ['$', '\x7b', '#'] ['\x7d'] := ⟨rfl, rfl, rfl, rfl, rfl⟩
  exact spelled_between between (fun empty => absurd empty known.2) (by simp [opened, signed, known.1, closed])

theorem takes_bare_braced_parameter (opens : c.rest = '$' :: '\x7b' :: rest) :
    bareBracedParameter.Takes replies true c Node.Spelled := by
  refine takes_atomic (takes_bind (takes_skip ['$', '\x7b'] opens) fun opening _ _ opened _ => ?_)
  refine takes_bind takes_braced_parameter fun passed parameter _ known _ => ?_
  refine takes_bind (takes_literal "\x7d") fun closing _ _ closed _ => takes_pure ?_
  have between : Kind.bracedParameter.ShowsBetween ['$', '\x7b'] ['\x7d'] := ⟨rfl, rfl, rfl, rfl, rfl⟩
  exact spelled_between between (fun empty => absurd empty known.2) (by simp [opened, known.1, closed])

end Braces

section Rules

variable {c : Cursor} {rest : List Char}

theorem drawn_forward : drawnReplies.Forward := fun _ _ _ _ known => known.1

theorem takes_call (rule : Rule) : (call rule).Takes drawnReplies rule.isExact c rule.Draws :=
  fun node d ends => (ends node d rfl).2

theorem takes_parameter_operation (opens : c.rest = '$' :: '\x7b' :: rest) :
    parameterOperation.Takes drawnReplies true c Node.Spelled := by
  refine takes_atomic (takes_bind (takes_skip ['$', '\x7b'] opens) fun opening _ _ opened _ => ?_)
  refine takes_bind takes_braced_parameter fun passed parameter d known _ => ?_
  refine takes_bind (takes_literal_among parameterOperators) fun sign kind e operator kept => ?_
  refine takes_bind (takes_nested (takes_call .operand)) fun word operand f spelled keptWord => ?_
  refine takes_bind (takes_literal "\x7d") fun closing _ _ closed _ => takes_pure ?_
  obtain ⟨text, rfl, found⟩ := operator
  obtain ⟨parts, rfl, strung⟩ := spelled
  rw [rest_of_taken kept, rest_of_taken keptWord] at found
  have whole := spelled_operation known.2 found strung
  simpa [opened, known.1, closed] using whole

theorem takes_braced_expansion (opens : c.rest = '$' :: '\x7b' :: rest) :
    bracedExpansion.Takes drawnReplies true c Node.Spelled :=
  takes_or_else (takes_string_length opens)
    (takes_or_else (takes_parameter_operation opens) (takes_bare_braced_parameter opens))

theorem takes_term (lines : Bool) : (term lines).Takes drawnReplies false c (ItemTurn Node.Drawn) := by
  refine takes_bind (takes_attempt (takes_call .andOr)) fun taken tried d known _ => ?_
  cases tried with
  | none => exact takes_return known
  | some node =>
      have drawn : node.Drawn taken := known
      refine takes_after drawn_forward fun ended e => ?_
      rcases ended with - | - | -
      · exact takes_return drawn
      · exact takes_return (drawn_wrap rfl drawn)
      · exact takes_return drawn

theorem takes_term_list (lines : Bool) : (termList lines).Takes drawnReplies false c Node.Drawn := by
  refine takes_bind (takes_rounds fun _ => takes_term lines) fun taken terms d turns _ => ?_
  have strung : Strung Node.Drawn taken terms := strung_of_gathered turns
  rcases terms with - | ⟨only, - | ⟨second, others⟩⟩
  · exact takes_fail
  · exact takes_return (drawn_sole strung)
  · exact takes_return (drawn_of_nodes rfl strung)

theorem takes_complete_command : completeCommand.Takes drawnReplies false c Node.Drawn :=
  takes_bind (takes_term_list false) fun _ _ _ drawn _ => takes_return (drawn_wrap rfl drawn)

theorem takes_complete_commands : completeCommands.Takes drawnReplies false c (Strung Node.Drawn) := by
  refine takes_bind (takes_attempt takes_complete_command) fun taken tried d known _ => ?_
  cases tried with
  | none =>
      obtain rfl : taken = [] := known
      exact takes_pure .nil
  | some first =>
      refine takes_bind (takes_many fun _ => takes_after drawn_forward fun _ _ => takes_complete_command)
        fun rear others e strung _ => takes_pure ?_
      exact (List.append_nil rear).symm ▸ .cons known strung

theorem takes_substitution {p : Parser Node} (takes : p.Takes drawnReplies false c
      fun taken node => node.Drawn taken ∧ node.kind.isSubstitution = true) :
    p.Takes drawnReplies true c Node.Spelled := by
  intro node d ends
  obtain ⟨taken, kept, drawn, substitution⟩ := takes node d ends
  obtain ⟨passed, whole⟩ := may_end_forward drawn_forward p ends
  refine ⟨passed, whole ▸ taken_refl true c.rest, spelled_of_drawn substitution ?_ drawn⟩
  exact (List.append_sublist_append_right d.rest).mp (whole.symm ▸ kept.1)

theorem takes_arithmetic_expansion : arithmeticExpansion.Takes drawnReplies true c Node.Spelled := by
  refine takes_substitution (takes_nested (takes_atomic ?_))
  refine takes_after drawn_forward fun _ _ => takes_after drawn_forward fun _ _ => ?_
  refine takes_bind (takes_many fun _ => takes_call .word) fun taken words d strung _ => ?_
  exact takes_after drawn_forward fun _ _ =>
    takes_pure ⟨(List.append_nil taken).symm ▸ drawn_of_nodes rfl strung, rfl⟩

theorem takes_command_expansion : commandExpansion.Takes drawnReplies true c Node.Spelled := by
  refine takes_substitution (takes_nested (takes_atomic ?_))
  refine takes_after drawn_forward fun _ _ => takes_after drawn_forward fun _ _ =>
    takes_after drawn_forward fun _ _ => ?_
  refine takes_bind takes_complete_commands fun taken commands d strung _ => ?_
  exact takes_after drawn_forward fun _ _ => takes_after drawn_forward fun _ _ =>
    takes_pure ⟨(List.append_nil taken).symm ▸ drawn_of_nodes rfl strung, rfl⟩

theorem takes_dollar_expansion (opens : c.rest = '$' :: rest) :
    dollarExpansion.Takes drawnReplies true c Node.Spelled := by
  refine takes_look_bind ?_
  split
  · exact takes_or_else takes_arithmetic_expansion takes_command_expansion
  · exact takes_command_expansion
  · rename_i here
    exact takes_braced_expansion here
  · exact takes_plain_parameter opens

theorem takes_double_quoted_part : doubleQuotedPart.Takes drawnReplies true c (SpelledTurn '"') := by
  refine takes_look_bind ?_
  split
  · exact takes_expected_bind (takes_expected_bind (takes_expected_bind (takes_expected_bind (takes_refuse _))))
  · rename_i here
    exact takes_bind (takes_skip ['"'] here) fun passed _ e same _ => takes_return same
  · rename_i here
    exact takes_bind (takes_dollar_expansion here) fun passed node e spelled _ => takes_return spelled
  · rename_i others here
    split
    · rename_i first head
      obtain ⟨more, rfl⟩ := List.head?_eq_some_iff.mp head
      split
      · refine takes_bind (takes_skip ['\\', first] here) fun passed _ e same _ => takes_pure ?_
        rw [List.append_nil, same]
        exact spelled_escape rfl rfl rfl rfl
      · split
        · rename_i newline
          refine takes_bind (takes_skip ['\\', first] here) fun passed _ e same _ => takes_pure ?_
          rw [List.append_nil, same, newline]
          exact spelled_leaf rfl (fun _ => rfl) rfl
        · exact takes_bind (takes_skip ['\\'] here) fun passed _ e same _ => takes_return same
    · exact takes_bind (takes_skip ['\\'] here) fun passed _ e same _ => takes_return same
  · rename_i first others _ _ _ here
    split
    · rename_i opens
      rw [opens] at here
      exact takes_bind (takes_backquote true here) fun passed node e spelled _ => takes_return spelled
    · exact takes_bind (takes_take_while _) fun passed chars e known _ => takes_return known.1

theorem takes_double_quote (opens : c.rest = '"' :: rest) :
    doubleQuote.Takes drawnReplies true c Node.Spelled := by
  refine takes_atomic (takes_bind (takes_skip ['"'] opens) fun quote _ d quoted _ => ?_)
  refine takes_bind (takes_rounds fun _ => takes_double_quoted_part) fun taken parts e turns _ => ?_
  obtain ⟨passed, rfl, strung⟩ := strung_of_spelled_turns turns
  refine takes_pure ?_
  rw [List.append_nil, quoted, List.singleton_append, ← List.cons_append]
  exact spelled_quoted rfl strung

theorem takes_word_part (braced : Bool) : (wordPart braced).Takes drawnReplies true c Node.Spelled := by
  have opened : ∀ {sign : Char} {p : Parser Node},
      (∀ {rest : List Char}, c.rest = sign :: rest → p.Takes drawnReplies true c Node.Spelled) →
        c.rest.head? = some sign → p.Takes drawnReplies true c Node.Spelled := by
    intro sign p takes head
    obtain ⟨rest, here⟩ := List.head?_eq_some_iff.mp head
    exact takes here
  refine takes_look_bind ?_
  split
  · exact opened takes_single_quote ‹_›
  · exact opened takes_double_quote ‹_›
  · exact opened (takes_backquote false) ‹_›
  · exact opened takes_dollar_expansion ‹_›
  · exact opened takes_bare_escape ‹_›
  · exact takes_unquoted_literal braced

theorem takes_word_parts (braced : Bool) : (wordParts braced).Takes drawnReplies true c (Strung Node.Spelled) :=
  takes_many fun _ => takes_word_part braced

theorem takes_written_word (braced : Bool) : (wordParts braced).Takes drawnReplies false c
    fun taken parts => (Node.ofNodes .word parts).Drawn taken :=
  takes_loosely (takes_word_parts braced) fun _ _ strung => drawn_of_spelled (spelled_word strung)

theorem takes_word : word.Takes drawnReplies false c Node.Drawn := by
  refine takes_bind (takes_written_word false) fun taken parts d drawn _ => ?_
  cases parts with
  | nil => exact takes_fail
  | cons first others =>
      exact takes_after drawn_forward fun _ _ => takes_return drawn

theorem takes_operand : operand.Takes drawnReplies true c (Rule.Draws .operand) :=
  takes_bind (takes_word_parts true) fun _ parts _ strung _ => takes_return ⟨parts, rfl, strung⟩

end Rules

end Grammar

end ShellLine
