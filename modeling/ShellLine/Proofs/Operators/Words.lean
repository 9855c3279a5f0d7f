import ShellLine.Proofs.Grammar.Literal
import ShellLine.Proofs.Operators.Shown
import ShellLine.Proofs.Reading.Induction

set_option autoImplicit false

namespace ShellLine.Operators

open Grammar ShellLine.Parser

variable {calls : Rule → Cursor → Reading Node} {c d : Cursor}

theorem quoted_form_signs {child : Child} (form : QuotedForm calls c (.more child) d) :
    (d.left < c.left ∧ signs .double c.rest = signs .double d.rest) ∨
      (.expansion ∈ signs .double c.rest ∧
        ∃ inner, child = .node inner ∧ inner.kind.isExpansion = true) := by
  have expands : ∀ {ch : Char} {inner : Node}, ch = '$' ∨ ch = backtick → c.rest.head? = some ch →
      inner.kind.isExpansion = true → .expansion ∈ signs .double c.rest ∧
        ∃ found, Child.node inner = .node found ∧ found.kind.isExpansion = true := by
    intro ch inner starts head kind
    obtain ⟨rest, here⟩ := List.head?_eq_some_iff.mp head
    rw [here]
    exact ⟨signs_expansion (by decide) starts, inner, rfl, kind⟩
  cases form with
  | run nonempty plain _ here =>
      refine Or.inl ⟨c.left_lt_of_passed d _ nonempty here, ?_⟩
      rw [here, signs_double_plain plain]
  | kept here other =>
      refine Or.inl ⟨c.left_lt_of_passed d ['\\'] (List.cons_ne_nil _ _) here, ?_⟩
      rw [here, signs_double_kept fun ch head => (other ch head).1]
  | @escape _ ch _ here =>
      refine Or.inl ⟨c.left_lt_of_passed d ['\\', ch] (List.cons_ne_nil _ _) here, ?_⟩
      rw [here, signs_escape (by decide)]
  | joined here =>
      refine Or.inl ⟨c.left_lt_of_passed d ['\\', '\n'] (List.cons_ne_nil _ _) here, ?_⟩
      rw [here, signs_escape (by decide)]
  | dollar head given => exact Or.inr (expands (Or.inl rfl) head (dollar_expansion_kind given))
  | tick head given => exact Or.inr (expands (Or.inr rfl) head (backquote_kind given))

theorem quoted_turns_signs {parts : List Child} (turns : Turns calls doubleQuotedPart c parts d) :
    signs .double c.rest = signs .none d.rest ∨
      (.expansion ∈ signs .double c.rest ∧
        ∃ inner, Child.node inner ∈ parts ∧ inner.kind.isExpansion = true) := by
  induction turns with
  | stop given =>
      cases double_quoted_part_form given with
      | close here =>
          rw [here]
          exact Or.inl signs_close_double
  | last given => cases double_quoted_part_form given
  | halt given stays =>
      rcases quoted_form_signs (double_quoted_part_form given) with ⟨moves, -⟩ |
        ⟨expansion, inner, rfl, kind⟩
      · exact absurd moves stays
      · exact Or.inr ⟨expansion, inner, List.mem_singleton_self _, kind⟩
  | more given _ _ ih =>
      rcases quoted_form_signs (double_quoted_part_form given) with ⟨-, same⟩ |
        ⟨expansion, inner, rfl, kind⟩
      · rw [same]
        exact ih.imp_right fun ⟨expansion, inner, member, kind⟩ =>
          ⟨expansion, inner, List.mem_cons_of_mem _ member, kind⟩
      · exact Or.inr ⟨expansion, inner, List.mem_cons_self .., kind⟩

theorem shows_expansion {ch : Char} {node : Node} (starts : ch = '$' ∨ ch = backtick)
    (head : c.rest.head? = some ch) (behind : d.rest <:+ c.rest)
    (kind : node.kind.isExpansion = true) : Shows node.kinds c d where
  behind := behind
  told _ := by
    obtain ⟨rest, here⟩ := List.head?_eq_some_iff.mp head
    rw [here]
    exact Or.inr ⟨signs_expansion (by decide) starts, node.kind, kind_mem_kinds node, kind⟩

theorem shows_double_quote {parts : List Child} (opened : c.rest.head? = some '"')
    (behind : d.rest <:+ (c.advance 1).rest) (turns : Turns calls doubleQuotedPart (c.advance 1) parts d) :
    Shows (quotedNode .doubleQuote parts).kinds c d where
  behind := behind.trans (c.advance_suffix 1)
  told _ := by
    obtain ⟨rest, here⟩ := List.head?_eq_some_iff.mp opened
    have inside : signs .none c.rest = signs .double (c.advance 1).rest := by
      rw [rest_skip_cons here, here]
      exact signs_open_double
    rw [inside]
    rcases quoted_turns_signs turns with same | ⟨expansion, inner, member, kind⟩
    · exact Or.inl ⟨[], by rw [same, List.nil_append], by simp⟩
    · have inside : Child.node inner ∈ (quotedNode .doubleQuote parts).contents.toList :=
        (node_mem_join_texts parts inner).mpr member
      have below := below_child inside (self_mem_descendants inner)
      exact Or.inr ⟨expansion, inner.kind, List.mem_map_of_mem below, kind⟩

variable (forward : GoForward calls)

include forward

theorem shows_part {braced : Bool} {part : Node} (given : (wordPart braced).Gives calls c part d) :
    Shows part.kinds c d := by
  have behind := gives_forward forward given
  cases word_part_form given with
  | singleQuote closed here =>
      refine .of_same behind fun _ => ?_
      rw [here, signs_single closed]
  | doubleQuote opened turns =>
      have later := gives_forward forward ((gives_rounds doubleQuotedPart _ d _).mpr turns)
      exact shows_double_quote opened later turns
  | bareEscape here =>
      refine .of_same behind fun _ => ?_
      rw [here, signs_escape (by decide)]
  | unquoted _ plain _ here => exact .chars here fun ch member => not_active_of_word_text (plain ch member)
  | dollar head given => exact shows_expansion (Or.inl rfl) head behind (dollar_expansion_kind given)
  | tick head given => exact shows_expansion (Or.inr rfl) head behind (backquote_kind given)

theorem shows_parts {braced : Bool} {parts : List Node}
    (items : Items calls (wordPart braced) c parts d) : Shows (Node.ofNodes .word parts).kinds c d := by
  refine shows_items (fun part member e f given => ?_) items
  exact (shows_part forward given).among member

theorem shows_word {node : Node} (given : word.Gives calls c node d) : Shows node.kinds c d := by
  obtain ⟨parts, e, items, -, rfl, rfl⟩ := word_form given
  exact (shows_parts forward items).trans (.blanks _ e)

theorem shows_operand {node : Node} (given : operand.Gives calls c node d) : Shows node.kinds c d := by
  obtain ⟨parts, items, rfl⟩ := operand_form given
  exact shows_parts forward items

end ShellLine.Operators
