import ShellLine.Grammar.Rules
import ShellLine.Proofs.Grammar.Token

set_option autoImplicit false

namespace ShellLine

theorem Cursor.rest_advance_append (c : Cursor) (passed rest : List Char)
    (here : c.rest = passed ++ rest) : (c.advance passed.length).rest = rest := by
  rw [rest_advance, here, List.drop_left]

namespace Grammar

open ShellLine.Parser

def isDoubleQuotedEscape (ch : Char) : Bool := ch ∈ ['$', backtick, '"', '\\']

section Places

theorem rest_skip_cons {c : Cursor} {ch : Char} {rest : List Char} (here : c.rest = ch :: rest) :
    (c.advance 1).rest = rest := c.rest_advance_append [ch] rest here

theorem rest_skip_pair {c : Cursor} {ch next : Char} {rest : List Char}
    (here : c.rest = ch :: next :: rest) : (c.advance 2).rest = rest :=
  c.rest_advance_append [ch, next] rest here

theorem rest_past_text {c : Cursor} {text : List Char} (here : text <+: c.rest) :
    c.rest = text ++ (c.advance text.length).rest := by
  obtain ⟨rest, whole⟩ := here
  rw [c.rest_advance_append text rest whole.symm, whole]

theorem rest_advance_take_while (c : Cursor) (accepts : Char → Bool) :
    (c.advance (c.rest.takeWhile accepts).length).rest = c.rest.dropWhile accepts :=
  c.rest_advance_append _ _ List.takeWhile_append_dropWhile.symm

theorem rest_take_while (c : Cursor) (accepts : Char → Bool) :
    c.rest = c.rest.takeWhile accepts ++ (c.advance (c.rest.takeWhile accepts).length).rest := by
  rw [rest_advance_take_while]
  exact List.takeWhile_append_dropWhile.symm

theorem head_drop_while {accepts : Char → Bool} {chars : List Char} {ch : Char}
    (head : (chars.dropWhile accepts).head? = some ch) : accepts ch = false := by
  have stops := List.head?_dropWhile_not accepts chars
  rw [head] at stops
  simpa using stops

theorem ne_nil_of_head {c : Cursor} {ch : Char} (head : c.rest.head? = some ch) : c.rest ≠ [] := by
  intro empty
  simp [empty] at head

end Places

section Forms

variable (calls : Rule → Cursor → Reading Node)

inductive DollarForm (c : Cursor) : Node → Cursor → Prop
  | arithmetic {d e : Cursor} {words : List Node} (items : Items calls (call .word) d words e)
      (closed : "))".toList <+: e.rest) :
      DollarForm c (.ofNodes .arithmeticExpansion words) (e.advance 2)
  | command {d e : Cursor} {commands : List Node} (list : completeCommands.Gives calls d commands e)
      (closed : ")".toList <+: e.pastBreak.rest) :
      DollarForm c (.ofNodes .commandExpansion commands) (e.pastBreak.advance 1)
  | operation {d e f : Cursor} {text : String} {kind : Kind} {parameter : List Char} {operand : Node}
      (operator : (text, kind) ∈ parameterOperators)
      (operandGiven : (call .operand).Gives calls d operand e) :
      DollarForm c ⟨kind, .ofList [.text parameter, .node operand], none⟩ f
  | parameter {d : Cursor} {kind : Kind} {chars : List Char}
      (plain : kind ∈ [.specialParameter, .positionalParameter, .namedParameter, .stringLength,
        .bracedParameter]) : DollarForm c (.leaf kind chars) d

inductive QuotedForm (c : Cursor) : Turn Child → Cursor → Prop
  | close {d : Cursor} (here : c.rest = '"' :: d.rest) : QuotedForm c .stop d
  | run {d : Cursor} {chars : List Char} (nonempty : chars ≠ [])
      (plain : ∀ ch ∈ chars, isDoubleQuotedText ch = true)
      (ends : ∀ ch, d.rest.head? = some ch → isDoubleQuotedText ch = false)
      (here : c.rest = chars ++ d.rest) : QuotedForm c (.more (.text chars)) d
  | kept {d : Cursor} (here : c.rest = '\\' :: d.rest)
      (other : ∀ ch, d.rest.head? = some ch → isDoubleQuotedEscape ch = false ∧ ch ≠ '\n') :
      QuotedForm c (.more (.text ['\\'])) d
  | escape {d : Cursor} {ch : Char} (escaped : isDoubleQuotedEscape ch = true)
      (here : c.rest = '\\' :: ch :: d.rest) :
      QuotedForm c (.more (.node (.leaf .doubleQuotedEscape [ch]))) d
  | joined {d : Cursor} (here : c.rest = '\\' :: '\n' :: d.rest) :
      QuotedForm c (.more (.node (.leaf .doubleQuotedEscape []))) d
  | dollar {d : Cursor} {inner : Node} (head : c.rest.head? = some '$')
      (given : dollarExpansion.Gives calls c inner d) : QuotedForm c (.more (.node inner)) d
  | tick {d : Cursor} {inner : Node} (head : c.rest.head? = some backtick)
      (given : (backquote true).Gives calls c inner d) : QuotedForm c (.more (.node inner)) d

inductive PartForm (braced : Bool) (c : Cursor) : Node → Cursor → Prop
  | singleQuote {d : Cursor} {chars : List Char} (closed : '\'' ∉ chars)
      (here : c.rest = '\'' :: chars ++ '\'' :: d.rest) :
      PartForm braced c (.leaf .singleQuote chars) d
  | doubleQuote {d : Cursor} {parts : List Child} (opened : c.rest.head? = some '"')
      (turns : Turns calls doubleQuotedPart (c.advance 1) parts d) :
      PartForm braced c (quotedNode .doubleQuote parts) d
  | bareEscape {d : Cursor} {ch : Char} (here : c.rest = '\\' :: ch :: d.rest) :
      PartForm braced c (.leaf .bareEscape (if ch = '\n' then [] else [ch])) d
  | unquoted {d : Cursor} {chars : List Char} (nonempty : chars ≠ [])
      (plain : ∀ ch ∈ chars, isWordBreak braced ch = false)
      (ends : ∀ ch, d.rest.head? = some ch → isWordBreak braced ch = true)
      (here : c.rest = chars ++ d.rest) : PartForm braced c (.leaf .unquotedLiteral chars) d
  | dollar {d : Cursor} {inner : Node} (head : c.rest.head? = some '$')
      (given : dollarExpansion.Gives calls c inner d) : PartForm braced c inner d
  | tick {d : Cursor} {inner : Node} (head : c.rest.head? = some backtick)
      (given : (backquote false).Gives calls c inner d) : PartForm braced c inner d

end Forms

variable {calls : Rule → Cursor → Reading Node} {c d : Cursor}

theorem gives_literal_among {operators : List (String × Kind)} {kind : Kind}
    (given : (literalAmong operators).Gives calls c kind d) :
    ∃ before text after, operators = before ++ (text, kind) :: after ∧
      (∀ pair ∈ before, ¬ pair.1.toList <+: c.rest) ∧ text.toList <+: c.rest ∧
        c.advance text.length = d := by
  induction operators with
  | nil => exact absurd given (gives_fail c d kind)
  | cons first others ih =>
      obtain ⟨text, other⟩ := first
      simp only [literalAmong, gives_or_else, gives_bind, fails_bind, gives_literal, fails_literal,
        gives_pure, fails_pure, and_false, exists_false, or_false] at given
      rcases given with ⟨u, e, ⟨here, passed⟩, rfl, rfl⟩ | ⟨missing, later⟩
      · exact ⟨[], text, others, rfl, by simp, here, passed⟩
      · obtain ⟨before, found, after, rfl, longest, rest⟩ := ih later
        exact ⟨(text, other) :: before, found, after, rfl,
          List.forall_mem_cons.mpr ⟨missing, longest⟩, rest⟩

theorem plain_parameter_form {node : Node} (given : plainParameter.Gives calls c node d) :
    DollarForm calls c node d := by
  simp only [plainParameter, gives_atomic, gives_bind, gives_look] at given
  obtain ⟨_, e, -, text, f, ⟨rfl, rfl⟩, given⟩ := given
  have named : ∀ {f g : Cursor} {inner : Node}, namedParameter.Gives calls f inner g →
      ∃ chars, inner = .leaf .namedParameter chars := by
    intro f g inner given
    rcases (gives_attempt_bind _ _ _ _ _).mp given with ⟨chars, _, -, after⟩ | ⟨-, after⟩
    · obtain ⟨rfl, -⟩ := (gives_pure _ _ _ _).mp after
      exact ⟨chars, rfl⟩
    · simp at after
  cases rest : e.rest with
  | nil =>
      rw [rest] at given
      obtain ⟨chars, rfl⟩ := named given
      exact .parameter (by simp)
  | cons ch others =>
      simp only [rest] at given
      by_cases special : isSpecialParameter ch = true
      · rw [if_pos special, gives_bind] at given
        obtain ⟨_, _, -, made⟩ := given
        obtain ⟨rfl, -⟩ := (gives_pure _ _ _ _).mp made
        exact .parameter (by simp)
      · rw [if_neg special] at given
        by_cases digit : ch.isDigit = true
        · rw [if_pos digit, gives_bind] at given
          obtain ⟨_, _, -, made⟩ := given
          obtain ⟨rfl, -⟩ := (gives_pure _ _ _ _).mp made
          exact .parameter (by simp)
        · rw [if_neg digit] at given
          obtain ⟨chars, rfl⟩ := named given
          exact .parameter (by simp)

theorem braced_expansion_form {node : Node} (given : bracedExpansion.Gives calls c node d) :
    DollarForm calls c node d := by
  simp only [bracedExpansion, stringLength, parameterOperation, bareBracedParameter,
    gives_or_else, gives_atomic, gives_bind, gives_nested, gives_pure] at given
  rcases given with ⟨_, _, -, _, _, -, _, _, -, _, _, -, rfl, -⟩ | ⟨-, ⟨_, _, -, _, _, -, kind, _,
    found, operand, _, inside, _, _, -, rfl, -⟩ | ⟨-, _, _, -, _, _, -, _, _, -, rfl, -⟩⟩
  · exact .parameter (by simp)
  · obtain ⟨before, text, after, operators, -⟩ := gives_literal_among found
    have member : (text, kind) ∈ parameterOperators := by simp [operators]
    exact .operation member inside
  · exact .parameter (by simp)

theorem arithmetic_expansion_form {node : Node} (given : arithmeticExpansion.Gives calls c node d) :
    DollarForm calls c node d := by
  simp only [arithmeticExpansion, gives_nested, gives_atomic, gives_bind, gives_many, gives_literal,
    gives_pure] at given
  obtain ⟨_, _, -, _, _, -, words, _, items, _, _, ⟨closed, rfl⟩, rfl, rfl⟩ := given
  exact .arithmetic items closed

theorem command_expansion_form {node : Node} (given : commandExpansion.Gives calls c node d) :
    DollarForm calls c node d := by
  simp only [commandExpansion, gives_nested, gives_atomic, gives_bind, gives_line_break,
    gives_literal, gives_pure] at given
  obtain ⟨_, _, -, _, _, -, _, _, -, commands, _, list, _, _, rfl, _, _, ⟨closed, rfl⟩, rfl, rfl⟩ := given
  exact .command list closed

theorem dollar_expansion_form {node : Node} (given : dollarExpansion.Gives calls c node d) :
    DollarForm calls c node d := by
  rw [dollarExpansion, gives_look_bind] at given
  split at given
  · rcases (gives_or_else _ _ _ _ _).mp given with arithmetic | ⟨-, command⟩
    · exact arithmetic_expansion_form arithmetic
    · exact command_expansion_form command
  · exact command_expansion_form given
  · exact braced_expansion_form given
  · exact plain_parameter_form given

theorem take_while_form {accepts : Char → Bool} {chars : List Char}
    (given : (takeWhile accepts).Gives calls c chars d) :
    c.rest = chars ++ d.rest ∧ (∀ ch ∈ chars, accepts ch = true) ∧
      ∀ ch, d.rest.head? = some ch → accepts ch = false := by
  obtain ⟨rfl, rfl⟩ := (gives_take_while _ _ _ _).mp given
  refine ⟨rest_take_while c accepts, fun ch => List.all_eq_true.mp List.all_takeWhile ch, fun ch head => ?_⟩
  rw [rest_advance_take_while] at head
  exact head_drop_while head

theorem taken_nonempty {accepts : Char → Bool} {chars : List Char} {ch : Char}
    (whole : c.rest = chars ++ d.rest) (ends : ∀ ch, d.rest.head? = some ch → accepts ch = false)
    (head : c.rest.head? = some ch) (accepted : accepts ch = true) : chars ≠ [] := by
  rintro rfl
  rw [whole, List.nil_append] at head
  exact Bool.noConfusion ((ends ch head).symm.trans accepted)

theorem double_quoted_part_form {turn : Turn Child} (given : doubleQuotedPart.Gives calls c turn d) :
    QuotedForm calls c turn d := by
  rw [doubleQuotedPart, gives_look_bind] at given
  split at given
  · simp at given
  · rename_i rest here
    simp only [gives_bind, gives_skip, gives_pure] at given
    obtain ⟨_, _, rfl, rfl, rfl⟩ := given
    exact .close (by rw [rest_skip_cons here]; exact here)
  · rename_i rest here
    simp only [gives_bind, gives_pure] at given
    obtain ⟨inner, e, given, rfl, rfl⟩ := given
    exact .dollar (by rw [here]; rfl) given
  · rename_i rest here
    cases head : rest with
    | nil =>
        subst head
        simp only [List.head?_nil, gives_bind, gives_skip, gives_pure] at given
        obtain ⟨_, _, rfl, rfl, rfl⟩ := given
        have after := rest_skip_cons here
        exact .kept (by rw [after]; exact here) (by simp [after])
    | cons ch others =>
        subst head
        simp only [List.head?_cons] at given
        by_cases escaped : ch = '$' ∨ ch = backtick ∨ ch = '"' ∨ ch = '\\'
        · simp only [if_pos escaped, gives_bind, gives_skip, gives_pure] at given
          obtain ⟨_, _, rfl, rfl, rfl⟩ := given
          apply QuotedForm.escape (by simpa [isDoubleQuotedEscape] using escaped)
          rw [rest_skip_pair here]
          exact here
        · rw [if_neg escaped] at given
          by_cases newline : ch = '\n'
          · simp only [if_pos newline, gives_bind, gives_skip, gives_pure] at given
            obtain ⟨_, _, rfl, rfl, rfl⟩ := given
            subst newline
            exact .joined (by rw [rest_skip_pair here]; exact here)
          · simp only [if_neg newline, gives_bind, gives_skip, gives_pure] at given
            obtain ⟨_, _, rfl, rfl, rfl⟩ := given
            have after := rest_skip_cons here
            apply QuotedForm.kept (by rw [after]; exact here)
            rw [after]
            rintro _ ⟨rfl⟩
            exact ⟨by simpa [isDoubleQuotedEscape] using escaped, newline⟩
  · rename_i ch rest notQuote notDollar notBackslash here
    by_cases tick : ch = backtick
    · simp only [if_pos tick, gives_bind, gives_pure] at given
      obtain ⟨inner, e, given, rfl, rfl⟩ := given
      exact .tick (by rw [here, tick]; rfl) given
    · simp only [if_neg tick, gives_bind, gives_pure] at given
      obtain ⟨chars, e, taken, rfl, rfl⟩ := given
      obtain ⟨whole, plain, ends⟩ := take_while_form taken
      have first : isDoubleQuotedText ch = true := by
        simp_all [isDoubleQuotedText]
      exact .run (taken_nonempty whole ends (by rw [here]; rfl) first) plain ends whole

theorem backquoted_part_form {inDoubleQuote : Bool} {turn : Turn Child}
    (given : (backquotedPart inDoubleQuote).Gives calls c turn d) :
    turn = .stop ∨ (∃ chars, turn = .more (.text chars)) ∨
      ∃ chars, turn = .more (.node (.leaf .backquotedEscape chars)) := by
  rw [backquotedPart, gives_look_bind] at given
  split at given
  · simp at given
  · split at given
    · split at given
      · simp only [gives_bind, gives_pure] at given
        obtain ⟨_, _, -, rfl, -⟩ := given
        exact Or.inr (Or.inr ⟨_, rfl⟩)
      · simp only [gives_bind, gives_pure] at given
        obtain ⟨_, _, -, rfl, -⟩ := given
        exact Or.inr (Or.inl ⟨_, rfl⟩)
    · simp only [gives_bind, gives_pure] at given
      obtain ⟨_, _, -, rfl, -⟩ := given
      exact Or.inr (Or.inl ⟨_, rfl⟩)
  · split at given
    · simp only [gives_bind, gives_pure] at given
      obtain ⟨_, _, -, rfl, -⟩ := given
      exact Or.inl rfl
    · simp only [gives_bind, gives_pure] at given
      obtain ⟨chars, _, -, rfl, -⟩ := given
      exact Or.inr (Or.inl ⟨chars, rfl⟩)

theorem backquote_form {inDoubleQuote : Bool} {node : Node}
    (given : (backquote inDoubleQuote).Gives calls c node d) :
    ∃ parts, Turns calls (backquotedPart inDoubleQuote) (c.advance 1) parts d ∧
      node = quotedNode (if inDoubleQuote then .doubleBackquote else .backquote) parts := by
  simp only [backquote, gives_atomic, gives_bind, gives_skip, gives_rounds, gives_pure] at given
  obtain ⟨_, _, rfl, parts, _, turns, rfl, rfl⟩ := given
  exact ⟨parts, turns, rfl⟩

theorem single_quote_form {braced : Bool} {part : Node} (head : c.rest.head? = some '\'')
    (given : singleQuote.Gives calls c part d) : PartForm calls braced c part d := by
  obtain ⟨rest, here⟩ := List.head?_eq_some_iff.mp head
  have opened := rest_skip_cons here
  simp only [singleQuote, gives_atomic, gives_bind, gives_skip] at given
  obtain ⟨_, e, rfl, chars, f, taken, text, g, ⟨rfl, rfl⟩, given⟩ := given
  obtain ⟨whole, plain, ends⟩ := take_while_form taken
  split at given
  · simp at given
  · rename_i remains
    simp only [gives_bind, gives_skip, gives_pure] at given
    obtain ⟨_, _, rfl, rfl, rfl⟩ := given
    obtain ⟨stop, more, closing⟩ := List.exists_cons_of_ne_nil remains
    have isQuote : stop = '\'' := by simpa using ends stop (by rw [closing]; rfl)
    subst isQuote
    refine .singleQuote (fun member => by simpa using plain _ member) ?_
    rw [rest_skip_cons closing, List.cons_append, ← closing, ← whole, opened]
    exact here

theorem unquoted_form {braced : Bool} {part : Node}
    (given : (unquotedLiteral braced).Gives calls c part d) : PartForm calls braced c part d := by
  simp only [unquotedLiteral, gives_bind] at given
  obtain ⟨chars, e, taken, given⟩ := given
  obtain ⟨whole, plain, ends⟩ := take_while_form taken
  split at given
  · simp at given
  · rename_i nonempty
    simp only [gives_pure] at given
    obtain ⟨rfl, rfl⟩ := given
    exact .unquoted nonempty (by simpa using plain) (by simpa using ends) whole

theorem word_part_form {braced : Bool} {part : Node} (given : (wordPart braced).Gives calls c part d) :
    PartForm calls braced c part d := by
  rw [wordPart, gives_look_bind] at given
  split at given
  · rename_i head
    exact single_quote_form head given
  · rename_i head
    simp only [doubleQuote, gives_atomic, gives_bind, gives_skip, gives_rounds, gives_pure] at given
    obtain ⟨_, _, rfl, parts, _, turns, rfl, rfl⟩ := given
    exact .doubleQuote head turns
  · rename_i head
    exact .tick head given
  · rename_i head
    exact .dollar head given
  · rename_i head
    obtain ⟨rest, here⟩ := List.head?_eq_some_iff.mp head
    simp only [bareEscape, gives_atomic, gives_bind, gives_skip, gives_look] at given
    obtain ⟨_, e, rfl, text, f, ⟨rfl, rfl⟩, given⟩ := given
    rw [rest_skip_cons here] at given
    cases rest with
    | nil => simp at given
    | cons ch others =>
        simp only [gives_bind, gives_skip, gives_pure] at given
        obtain ⟨_, _, rfl, rfl, rfl⟩ := given
        apply PartForm.bareEscape
        rw [rest_skip_cons (rest_skip_cons here)]
        exact here
  · exact unquoted_form given

theorem word_form {node : Node} (given : word.Gives calls c node d) :
    ∃ parts e, Items calls (wordPart false) c parts e ∧ parts ≠ [] ∧ e.pastBlanks = d ∧
      node = .ofNodes .word parts := by
  simp only [word, wordParts, gives_bind, gives_many] at given
  obtain ⟨parts, e, items, given⟩ := given
  cases parts with
  | nil => simp at given
  | cons first others =>
      simp only [gives_bind, gives_blanks, gives_pure] at given
      obtain ⟨_, _, blank, rfl, rfl⟩ := given
      exact ⟨first :: others, e, items, List.cons_ne_nil _ _, blank, rfl⟩

theorem operand_form {node : Node} (given : operand.Gives calls c node d) :
    ∃ parts, Items calls (wordPart true) c parts d ∧ node = .ofNodes .word parts := by
  simp only [operand, wordParts, gives_bind, gives_many, gives_pure] at given
  obtain ⟨parts, e, items, rfl, rfl⟩ := given
  exact ⟨parts, items, rfl⟩

end Grammar

end ShellLine
