import ShellLine.Proofs.Forms.Command
import ShellLine.Proofs.Grammar.Word

set_option autoImplicit false

namespace ShellLine.Grammar

open ShellLine.Parser

theorem redirection_kind {c d : Cursor} {node : Node} (read : redirection.Reads c node d) :
    node.kind = .redirection := by
  cases redirection_form read
  rfl

-- A text that starts with a descriptor: digits that an operator follows.
def Describes (text : List Char) : Prop :=
  text.takeWhile Char.isDigit ≠ [] ∧ ((text.dropWhile Char.isDigit).head? = some '<' ∨
    (text.dropWhile Char.isDigit).head? = some '>')

theorem reads_descriptor_iff {c d : Cursor} {node : Node} : redirectedDescriptor.Reads c node d ↔
    Describes c.rest ∧ .leaf .redirectedDescriptor (c.rest.takeWhile Char.isDigit) = node ∧
      c.advance (c.rest.takeWhile Char.isDigit).length = d := by
  simp only [redirectedDescriptor, Reads, gives_atomic, gives_bind, gives_take_while]
  constructor
  · rintro ⟨digits, e, ⟨rfl, rfl⟩, given⟩
    split at given
    · simp at given
    · rename_i nonempty
      rw [gives_look_bind, rest_advance_take_while] at given
      split at given
      · rename_i head
        exact ⟨⟨nonempty, Or.inl head⟩, (gives_pure _ _ _ _).mp given⟩
      · rename_i head
        exact ⟨⟨nonempty, Or.inr head⟩, (gives_pure _ _ _ _).mp given⟩
      · simp at given
  · rintro ⟨⟨nonempty, operator⟩, rfl, rfl⟩
    refine ⟨_, _, ⟨rfl, rfl⟩, ?_⟩
    rw [if_neg nonempty, gives_look_bind, rest_advance_take_while]
    rcases operator with head | head <;> simp [head]

theorem rejects_descriptor_iff {c : Cursor} : redirectedDescriptor.Rejects c ↔ ¬ Describes c.rest := by
  constructor
  · exact fun rejected describes =>
      not_fails_of_gives (reads_descriptor_iff.mpr ⟨describes, rfl, rfl⟩) rejected
  · intro none
    rcases gives_or_fails (reading grammar) redirectedDescriptor c with ⟨node, d, read⟩ | rejected
    · exact absurd (reads_descriptor_iff.mp read).1 none
    · exact rejected

inductive SimpleRead (c : Cursor) : Node → Cursor → Prop
  | named {d e f : Cursor} {items others : List Node} {first : Node}
      (leads : Items (reading grammar) leadItem c items e) (name : word.Reads e first f)
      (arguments : Items (reading grammar) argumentItem f others d) :
      SimpleRead c (.ofNodes .simpleCommand (leadNodes items ++ first :: others)) d
  | bare {d : Cursor} {items : List Node} (leads : Items (reading grammar) leadItem c items d)
      (nonempty : items ≠ []) : SimpleRead c (.ofNodes .simpleCommand (leadNodes items)) d

theorem simple_read_of_form {c d : Cursor} {node : Node}
    (form : SimpleForm (reading grammar) c node d) : SimpleRead c node d := by
  cases form with
  | named leads _ name arguments =>
      exact .named leads ((reads_call .word _ _ _).mp name) arguments
  | bare leads nonempty => exact .bare leads nonempty

theorem lead_item_kind {c d : Cursor} {node : Node} (read : leadItem.Reads c node d) :
    node.kind = .redirection ∨ node.kind = .assignment := by
  rcases (gives_or_else _ _ _ _ _).mp read with given | ⟨-, given⟩
  · exact Or.inl (redirection_kind ((reads_call .redirection c d node).mp given))
  · cases assignment_form given
    exact Or.inr rfl

theorem reads_argument {c d : Cursor} {node : Node} (read : argumentItem.Reads c node d) :
    node.kind = .redirection ∨ word.Reads c node d := by
  rcases (gives_or_else _ _ _ _ _).mp read with given | ⟨-, given⟩
  · exact Or.inl (redirection_kind ((reads_call .redirection c d node).mp given))
  · exact Or.inr ((reads_call .word c d node).mp given)

theorem compound_form_feature {c d : Cursor} {node : Node}
    (form : CompoundForm (reading grammar) c node d) : node.kind.feature? = some .compound := by
  cases form with
  | braceGroup | subshell | forLoop | caseChoice => rfl
  | ifChoice _ chosen _ =>
      cases conditional_form ((reads_call .conditional _ _ node).mp chosen)
      rfl
  | loop repeated _ _ _ =>
      simp only [List.mem_cons, Prod.mk.injEq, List.not_mem_nil, or_false] at repeated
      rcases repeated with ⟨-, rfl⟩ | ⟨-, rfl⟩ <;> rfl

theorem reads_plain_command {c d : Cursor} {node : Node} (read : command.Reads c node d)
    (plain : node.kind.feature? = none) : SimpleRead c node d := by
  cases command_form read with
  | function => cases plain
  | compound given redirected =>
      cases redirected
      cases (compound_form_feature given).symm.trans plain
  | simple given => exact simple_read_of_form given

theorem pipeline_form_plain {c d : Cursor} {node : Node}
    (form : PipelineForm (reading grammar) c node d) (plain : node.kind.feature? = none) :
    SimpleRead c node d := by
  cases form with
  | bang => cases plain
  | @plain _ _ _ others given stages =>
      cases others with
      | nil =>
          obtain rfl := items_nil stages
          exact reads_plain_command ((reads_call .command c _ _).mp given) plain
      | cons second more => cases plain

theorem reads_plain_and_or {c d : Cursor} {node : Node} (read : andOr.Reads c node d)
    (plain : node.kind.feature? = none) : SimpleRead c node d := by
  cases and_or_form read with
  | @chain _ _ first links given items =>
      -- The last link gives the chain its kind.
      rcases List.eq_nil_or_concat links with rfl | ⟨init, last, rfl⟩
      · obtain rfl := items_nil items
        exact pipeline_form_plain given plain
      · obtain ⟨_, _, link⟩ := items_given items last (by simp)
        have kind : last.1.feature? = some .list := by
          cases and_or_link_form link with
          | @link _ _ text kind _ operators _ _ =>
              have every : ∀ pair ∈ chainOperators, pair.2.feature? = some .list := by decide
              exact every (text, kind) operators
        rw [chainNode, List.concat_eq_append, List.foldl_append] at plain
        cases plain.symm.trans kind

end ShellLine.Grammar
