import ShellLine.Proofs.Grammar.Literal
import ShellLine.Proofs.Shape.Lists

set_option autoImplicit false

namespace ShellLine

def Child.IsInside (accepts : Kind → Bool) : Child → Prop
  | .text _ => True
  | .node inner => accepts inner.kind = true ∧ inner.IsWhole
  | .list _ => False

theorem whole_quoted {kind : Kind} {accepts : Kind → Bool} {parts : List Child}
    (layout : kind.layout = .quote accepts) (each : ∀ child ∈ parts, child.IsInside accepts) :
    (Grammar.quotedNode kind parts).IsWhole := by
  have inside := forall_mem_join_texts (P := Child.IsInside accepts) (fun _ => trivial) each
  intro inner member
  rcases (mem_descendants _ inner).mp member with rfl | ⟨child, here, below⟩
  · have own : (Grammar.quotedNode kind parts).kind.layout = .quote accepts := layout
    rw [Node.isFormed, own]
    change Node.isQuoted accepts (Grammar.joinTexts parts) = true
    rw [Node.isQuoted, List.all_eq_true]
    intro child here
    have good := inside child here
    cases child with
    | text chars => rfl
    | node inner => exact good.1
    | list items => exact good.elim
  · have good := inside child here
    cases child with
    | text chars => cases below
    | node found => exact good.2 inner below
    | list items => exact good.elim

namespace Grammar

open ShellLine.Parser

section Words

variable {calls : Rule → Cursor → Reading Node} (knows : Knows Good calls) {c d : Cursor}

include knows

theorem whole_words {words : List Node} {kind : Kind} {e : Cursor}
    (holds : kind = .arithmeticExpansion ∨ kind = .inWords)
    (items : Items calls (call .word) d words e) : (Node.ofNodes kind words).IsWhole := by
  have each : ∀ word ∈ words, word.isFullWord = true ∧ word.IsWhole := by
    intro word member
    obtain ⟨f, g, given⟩ := items_given items word member
    exact knows.holds given
  have full : words.all Node.isFullWord = true :=
    List.all_eq_true.mpr fun word member => (each word member).1
  rcases holds with rfl | rfl
  · exact whole_of_nodes rfl full fun word member => (each word member).2
  · exact whole_of_nodes rfl full fun word member => (each word member).2

theorem whole_dollar {node : Node} (form : DollarForm calls c node d) :
    node.kind.isDollar = true ∧ node.IsWhole := by
  cases form with
  | arithmetic items _ => exact ⟨rfl, whole_words knows (by simp) items⟩
  | @command e f commands list closed =>
      obtain ⟨kinds, whole⟩ := good_commands knows (complete_commands_form list)
      have notStuck : ¬ Stuck f := by
        intro stuck
        rw [past_break_of_stuck stuck] at closed
        exact not_stuck_of_text (by decide) closed stuck
      refine ⟨rfl, whole_of_nodes rfl ?_ (whole.resolve_right notStuck)⟩
      simpa [Node.isRow] using kinds
  | @operation e f _ text kind parameter operand operator operandGiven =>
      obtain ⟨isWord, whole⟩ := knows.holds operandGiven
      have every : ∀ entry ∈ parameterOperators,
          entry.2.isDollar = true ∧ entry.2.isParameterOperator = true := by decide
      obtain ⟨dollar, isOperator⟩ := every (text, kind) operator
      have named : kind.layout = .named := by
        cases kind <;> first | rfl | cases isOperator
      have row : Node.isRow kind [operand] = true := by
        rw [row_of_operator isOperator]
        simp [isWord]
      exact ⟨dollar, whole_named named row (List.forall_mem_singleton.mpr whole)⟩
  | parameter plain =>
      simp only [List.mem_cons, List.not_mem_nil, or_false] at plain
      rcases plain with rfl | rfl | rfl | rfl | rfl <;> exact ⟨rfl, whole_leaf rfl⟩

omit knows in
theorem whole_backquote {inDoubleQuote : Bool} {node : Node}
    (given : (backquote inDoubleQuote).Gives calls c node d) :
    node.kind = (if inDoubleQuote then .doubleBackquote else .backquote) ∧ node.IsWhole := by
  obtain ⟨parts, turns, rfl⟩ := backquote_form given
  have inside : ∀ child ∈ parts, child.IsInside fun kind => kind = .backquotedEscape := by
    intro child member
    obtain ⟨e, f, given⟩ := turns_given turns child member
    have turn : (∃ chars, child = .text chars) ∨
        ∃ chars, child = .node (.leaf .backquotedEscape chars) := by
      rcases given with given | given <;> simpa using backquoted_part_form given
    rcases turn with ⟨chars, rfl⟩ | ⟨chars, rfl⟩
    · trivial
    · exact ⟨rfl, whole_leaf rfl⟩
  refine ⟨rfl, whole_quoted ?_ inside⟩
  cases inDoubleQuote <;> rfl

theorem whole_double_quote {parts : List Child} (turns : Turns calls doubleQuotedPart c parts d) :
    (quotedNode .doubleQuote parts).IsWhole := by
  have inside : ∀ child ∈ parts, child.IsInside Kind.isQuotedPart := by
    intro child member
    obtain ⟨e, f, given⟩ := turns_given turns child member
    have form : QuotedForm calls e (.more child) f := by
      rcases given with given | given
      · exact double_quoted_part_form given
      · cases double_quoted_part_form given
    cases form with
    | run | kept => trivial
    | escape | joined => exact ⟨rfl, whole_leaf rfl⟩
    | dollar _ given =>
        obtain ⟨dollar, whole⟩ := whole_dollar knows (dollar_expansion_form given)
        exact ⟨by simp [Kind.isQuotedPart, dollar], whole⟩
    | tick _ given =>
        obtain ⟨kind, whole⟩ := whole_backquote given
        exact ⟨by rw [kind]; rfl, whole⟩
  exact whole_quoted rfl inside

theorem good_part {braced : Bool} {part : Node} (given : (wordPart braced).Gives calls c part d) :
    part.kind.isPart = true ∧ part.IsWhole := by
  cases word_part_form given with
  | singleQuote => exact ⟨rfl, whole_leaf rfl⟩
  | bareEscape => exact ⟨rfl, whole_leaf rfl⟩
  | unquoted => exact ⟨rfl, whole_leaf rfl⟩
  | doubleQuote _ turns => exact ⟨rfl, whole_double_quote knows turns⟩
  | dollar _ given =>
      obtain ⟨dollar, whole⟩ := whole_dollar knows (dollar_expansion_form given)
      exact ⟨by simp [Kind.isPart, dollar], whole⟩
  | tick _ given =>
      obtain ⟨kind, whole⟩ := whole_backquote given
      exact ⟨by rw [kind]; rfl, whole⟩

omit knows in
theorem no_literal_behind {braced : Bool} {first second : Node} {e : Cursor}
    (given : (wordPart braced).Gives calls c first d) (later : (wordPart braced).Gives calls d second e)
    (literal : first.kind = .unquotedLiteral) : second.kind ≠ .unquotedLiteral := by
  intro again
  have ends : ∀ ch, d.rest.head? = some ch → isWordBreak braced ch = true := by
    cases word_part_form given with
    | unquoted _ _ ends _ => exact ends
    | singleQuote | bareEscape | doubleQuote => cases literal
    | dollar _ given => cases (literal ▸ dollar_expansion_kind given : Kind.isExpansion _ = true)
    | tick _ given => cases (literal ▸ backquote_kind given : Kind.isExpansion _ = true)
  cases word_part_form later with
  | unquoted nonempty plain _ here =>
      obtain ⟨ch, others, rfl⟩ := List.exists_cons_of_ne_nil nonempty
      have breaks := ends ch (congrArg List.head? here)
      cases breaks.symm.trans (plain ch (List.mem_cons_self ..))
  | singleQuote | bareEscape | doubleQuote => cases again
  | dollar _ given => cases (again ▸ dollar_expansion_kind given : Kind.isExpansion _ = true)
  | tick _ given => cases (again ▸ backquote_kind given : Kind.isExpansion _ = true)

omit knows in
theorem literals_apart {braced : Bool} {parts : List Node}
    (items : Items calls (wordPart braced) c parts d) :
    Kind.literalsApart (parts.map Node.kind) = true := by
  induction items with
  | stop _ => rfl
  | halt _ _ => rfl
  | more given _ others ih =>
      cases others with
      | stop _ => rfl
      | halt later _ | more later _ _ =>
          have apart := no_literal_behind given later
          rw [List.map_cons, List.map_cons, Kind.literalsApart, Bool.and_eq_true]
          exact ⟨by simpa [imp_iff_not_or] using apart, ih⟩

theorem whole_parts {braced : Bool} {parts : List Node}
    (items : Items calls (wordPart braced) c parts d) : (Node.ofNodes .word parts).IsWhole := by
  have each : ∀ part ∈ parts, part.kind.isPart = true ∧ part.IsWhole := by
    intro part member
    obtain ⟨e, f, given⟩ := items_given items part member
    exact good_part knows given
  refine whole_of_nodes rfl ?_ fun part member => (each part member).2
  have kinds : (parts.map Node.kind).all Kind.isPart = true := by
    rw [List.all_map, List.all_eq_true]
    exact fun part member => (each part member).1
  change ((parts.map Node.kind).all Kind.isPart && Kind.literalsApart (parts.map Node.kind)) = true
  rw [kinds, literals_apart items]
  rfl

theorem good_word {node : Node} (given : word.Gives calls c node d) :
    node.isFullWord = true ∧ node.IsWhole := by
  obtain ⟨parts, e, items, nonempty, -, rfl⟩ := word_form given
  refine ⟨?_, whole_parts knows items⟩
  simpa [Node.isFullWord, Node.children_of_nodes] using ⟨rfl, nonempty⟩

theorem good_operand {node : Node} (given : operand.Gives calls c node d) :
    node.kind = .word ∧ node.IsWhole := by
  obtain ⟨parts, items, rfl⟩ := operand_form given
  exact ⟨rfl, whole_parts knows items⟩

end Words

end Grammar

end ShellLine
