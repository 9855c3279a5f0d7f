import ShellLine.Proofs.Analysis.Unquote
import ShellLine.Proofs.Grammar.Word

set_option autoImplicit false

namespace ShellLine

theorem unquote_double_join (children : List Child) :
    unquoteDouble? (Grammar.joinTexts children).toList = unquoteDouble? children := by
  induction children with
  | nil => rfl
  | cons child others ih =>
      cases child with
      | node inner =>
          obtain ⟨kind, contents, mark⟩ := inner
          simp only [Grammar.joinTexts, Forest.cons, Forest.toList, unquoteDouble?, ih]
      | list items => rfl
      | text chars =>
          rw [unquoteDouble?, ← ih, Grammar.joinTexts]
          cases Grammar.joinTexts others with
          | text more rest =>
              simp only [Forest.toList, unquoteDouble?]
              cases unquoteDouble? rest.toList <;> simp
          | nil => by_cases empty : chars = [] <;> simp [empty, Forest.toList, unquoteDouble?]
          | node kind mark contents rest =>
              by_cases empty : chars = []
              · subst empty
                simp
              · simp only [if_neg empty, Forest.toList, unquoteDouble?]
          | list items rest =>
              by_cases empty : chars = [] <;> simp [empty, Forest.toList, unquoteDouble?]

theorem mem_join_texts (children : List Child) {child : Child}
    (noText : ∀ chars, child ≠ .text chars) :
    child ∈ (Grammar.joinTexts children).toList ↔ child ∈ children := by
  induction children with
  | nil => rfl
  | cons first others ih =>
      cases first with
      | node other => simp [Grammar.joinTexts, Forest.to_list_cons, ih]
      | list items => simp [Grammar.joinTexts, Forest.to_list_cons, ih]
      | text chars =>
          simp only [List.mem_cons, noText, false_or, ← ih, Grammar.joinTexts]
          cases Grammar.joinTexts others with
          | text more rest => simp [Forest.toList, noText]
          | nil => by_cases empty : chars = [] <;> simp [empty, Forest.toList, noText]
          | node kind mark contents rest =>
              by_cases empty : chars = [] <;> simp [empty, Forest.toList, noText]
          | list items rest =>
              by_cases empty : chars = [] <;> simp [empty, Forest.toList, noText]

theorem node_mem_join_texts (children : List Child) (inner : Node) :
    Child.node inner ∈ (Grammar.joinTexts children).toList ↔ Child.node inner ∈ children :=
  mem_join_texts children fun _ same => by cases same

theorem forall_mem_join_texts {P : Child → Prop} (texts : ∀ chars, P (.text chars))
    {children : List Child} (each : ∀ child ∈ children, P child) :
    ∀ child ∈ (Grammar.joinTexts children).toList, P child := by
  intro child member
  cases child with
  | text chars => exact texts chars
  | node inner => exact each _ ((node_mem_join_texts children inner).mp member)
  | list items => exact each _ ((mem_join_texts children fun _ same => by cases same).mp member)

theorem unquote_double_leaves {children : List Child}
    (leaves : ∀ child ∈ children, (∃ chars, child = .text chars) ∨
      ∃ chars, child = .node (.leaf .doubleQuotedEscape chars)) :
    (unquoteDouble? children).isSome := by
  induction children with
  | nil => rfl
  | cons child others ih =>
      obtain ⟨first, rest⟩ := List.forall_mem_cons.mp leaves
      have done := ih rest
      rcases first with ⟨chars, rfl⟩ | ⟨chars, rfl⟩
      · simpa [unquoteDouble?] using done
      · obtain ⟨tail, found⟩ := Option.isSome_iff_exists.mp done
        simp [unquoteDouble?, Node.leaf, Node.soleText?, Forest.soleText?, found]

namespace Grammar

open ShellLine.Parser

theorem unexpanded_part_unquotes {braced : Bool} {c d : Cursor} {part : Node}
    (read : PartRead braced c part d) (literal : part.expands = false) :
    (unquotePart? (.node part)).isSome := by
  rw [expands_eq_false] at literal
  cases read with
  | singleQuote => rfl
  | bareEscape => rfl
  | unquoted => rfl
  | expansion expands _ =>
      have none := literal part (self_mem_descendants part)
      exact absurd expands (Bool.eq_false_iff.mp none)
  | @doubleQuote _ parts opened turns =>
      change (unquoteDouble? (joinTexts parts).toList).isSome
      rw [unquote_double_join]
      apply unquote_double_leaves
      intro child member
      obtain ⟨e, f, given⟩ := turns_given turns child member
      have turn : QuotedTurn e (.more child) f := by
        rcases given with more | last
        · exact reads_double_quoted_part more
        · cases reads_double_quoted_part last
      cases turn with
      | run => exact Or.inl ⟨_, rfl⟩
      | kept => exact Or.inl ⟨_, rfl⟩
      | escape => exact Or.inr ⟨_, rfl⟩
      | joined => exact Or.inr ⟨_, rfl⟩
      | @expansion _ inner expands _ =>
          have inside := (node_mem_join_texts parts inner).mpr member
          have none := literal inner (below_child inside (self_mem_descendants inner))
          exact absurd expands (Bool.eq_false_iff.mp none)

theorem unexpanded_word_unquotes {c d : Cursor} {node : Node} (read : word.Reads c node d)
    (literal : node.expands = false) : node.unquote?.isSome := by
  obtain ⟨parts, e, items, -, -, rfl⟩ := reads_word read
  rw [unquote_is_some]
  intro child member
  obtain ⟨part, inside, rfl⟩ := List.mem_map.mp (Node.contents_of_nodes .word parts ▸ member)
  obtain ⟨f, g, given⟩ := items_given items part inside
  apply unexpanded_part_unquotes (reads_word_part given)
  rw [expands_eq_false] at literal ⊢
  exact fun inner below => literal inner (below_child member below)

theorem unexpanded_word_plain {c d : Cursor} {node : Node} (read : word.Reads c node d)
    (literal : node.expands = false) : node.features = [] :=
  plain_of_unquote (word_kind read) (unexpanded_word_unquotes read literal)

theorem word_unquotes_iff {c d : Cursor} {node : Node} (read : word.Reads c node d) :
    node.unquote?.isSome ↔ node.features = [] :=
  ⟨plain_of_unquote (word_kind read),
    fun plain => unexpanded_word_unquotes read (not_expands_of_plain plain)⟩

end Grammar

end ShellLine
