import ShellLine.Proofs.Tree.Descendants
import ShellLine.Proofs.Tree.Merged

set_option autoImplicit false

namespace ShellLine

-- The kinds of which the contents are one text.
def Kind.isLeaf : Kind → Bool
  | singleQuote | bareEscape | unquotedLiteral | doubleQuotedEscape | backquotedEscape | specialParameter
  | positionalParameter | namedParameter | bracedParameter | stringLength | functionName
  | redirectedDescriptor => true
  | _ => false

-- There may be nothing between quotes, and an escaped newline is no text.
def Kind.mayBeEmpty : Kind → Bool
  | singleQuote | bareEscape | doubleQuotedEscape => true
  | _ => false

-- No text of a row or of a list in it is empty or stands beside another one. Contents of nodes are left out.
def Forest.IsApart : Forest → Prop
  | nil => True
  | node _ _ _ others => others.IsApart
  | text chars others => chars ≠ [] ∧ others.startsText = false ∧ others.IsApart
  | list items others => items.IsApart ∧ others.IsApart

def Node.TextsSettled (node : Node) : Prop :=
  if node.kind.isLeaf then
    ∃ chars, node.contents = .text chars .nil ∧ (chars = [] → node.kind.mayBeEmpty = true)
  else node.contents.IsApart

namespace Forest

def TextsSettled (forest : Forest) : Prop := ∀ inner ∈ forest.descendants, inner.TextsSettled ∧ inner.mark = none

section

variable {kind : Kind} {mark : Option Nat} {contents others items : Forest} {chars : List Char}

theorem settled_node : (node kind mark contents others).TextsSettled ↔
    ((⟨kind, contents, mark⟩ : Node).TextsSettled ∧ mark = none) ∧ contents.TextsSettled ∧ others.TextsSettled := by
  rw [TextsSettled, descendants_of_node_row, List.forall_mem_cons, List.forall_mem_append]
  rfl

theorem settled_text : (text chars others).TextsSettled ↔ others.TextsSettled := Iff.rfl

theorem settled_list : (list items others).TextsSettled ↔ items.TextsSettled ∧ others.TextsSettled := by
  rw [TextsSettled, descendants_of_list_row, List.forall_mem_append]
  rfl

theorem starts_text_prepend (nonempty : chars ≠ []) (others : Forest) :
    (prependText chars others).startsText = true := by
  cases others with
  | text more rest => rfl
  | nil | node | list =>
      rw [prepend_text_of_apart chars rfl, if_neg nonempty]
      rfl

theorem starts_text_merged {forest : Forest} (apart : forest.IsApart) :
    forest.merged.startsText = forest.startsText := by
  cases forest with
  | nil | node | list => rfl
  | text chars others => exact starts_text_prepend apart.1 others.merged

theorem merged_text (apart : (text chars others).IsApart) : (text chars others).merged = text chars others.merged := by
  have behind : others.merged.startsText = false := (starts_text_merged apart.2.2).trans apart.2.1
  rw [merged, prepend_text_of_apart chars behind, if_neg apart.1]

theorem sole_text_of_merged_eq {more : List Char} (same : (text chars nil).merged = (text more nil).merged) :
    chars = more := by
  change (if chars = [] then nil else text chars nil) = if more = [] then nil else text more nil at same
  by_cases empty : chars = []
  · by_cases otherEmpty : more = []
    · rw [empty, otherEmpty]
    · rw [if_pos empty, if_neg otherEmpty] at same
      cases same
  · by_cases otherEmpty : more = []
    · rw [if_neg empty, if_pos otherEmpty] at same
      cases same
    · rw [if_neg empty, if_neg otherEmpty] at same
      exact (text.inj same).1

end

-- A row is told by its texts when they are merged, if those of its nodes are and it has none to merge.
theorem eq_of_merged_eq {a b : Forest} (settled : a.TextsSettled) (otherSettled : b.TextsSettled)
    (apart : a.IsApart) (otherApart : b.IsApart) (same : a.merged = b.merged) : a = b := by
  induction a generalizing b with
  | nil =>
      cases b with
      | nil => rfl
      | node | list => cases same
      | text chars others =>
          rw [merged_text otherApart] at same
          cases same
  | node kind mark contents others contentsSame othersSame =>
      cases b with
      | nil | list => cases same
      | text chars rest =>
          rw [merged_text otherApart] at same
          cases same
      | node otherKind otherMark otherContents rest =>
          obtain ⟨rfl, -, inside, behind⟩ := node.inj same
          obtain ⟨⟨here, rfl⟩, below, later⟩ := settled_node.mp settled
          obtain ⟨⟨otherHere, rfl⟩, otherBelow, otherLater⟩ := settled_node.mp otherSettled
          obtain rfl := othersSame later otherLater apart otherApart behind
          obtain rfl : contents = otherContents := by
            rw [Node.TextsSettled] at here otherHere
            by_cases leaf : kind.isLeaf = true
            · rw [if_pos leaf] at here otherHere
              obtain ⟨chars, rfl, -⟩ : ∃ chars, contents = text chars nil ∧ _ := here
              obtain ⟨more, rfl, -⟩ : ∃ more, otherContents = text more nil ∧ _ := otherHere
              rw [sole_text_of_merged_eq inside]
            · rw [if_neg leaf] at here otherHere
              exact contentsSame below otherBelow here otherHere inside
          rfl
  | text chars others othersSame =>
      rw [merged_text apart] at same
      cases b with
      | nil | node | list => cases same
      | text more rest =>
          rw [merged_text otherApart] at same
          obtain ⟨rfl, behind⟩ := text.inj same
          rw [othersSame (settled_text.mp settled) (settled_text.mp otherSettled) apart.2.2 otherApart.2.2 behind]
  | list items others itemsSame othersSame =>
      cases b with
      | nil | node => cases same
      | text chars rest =>
          rw [merged_text otherApart] at same
          cases same
      | list otherItems rest =>
          obtain ⟨inside, behind⟩ := list.inj same
          obtain ⟨here, later⟩ := settled_list.mp settled
          obtain ⟨otherHere, otherLater⟩ := settled_list.mp otherSettled
          rw [itemsSame here otherHere apart.1 otherApart.1 inside,
            othersSame later otherLater apart.2 otherApart.2 behind]

end Forest

theorem node_eq_of_merged_eq {a b : Node} (settled : ∀ inner ∈ a.descendants, inner.TextsSettled ∧ inner.mark = none)
    (otherSettled : ∀ inner ∈ b.descendants, inner.TextsSettled ∧ inner.mark = none) (same : a.merged = b.merged) :
    a = b := by
  obtain ⟨kind, contents, mark⟩ := a
  obtain ⟨otherKind, otherContents, otherMark⟩ := b
  have alone : ∀ node : Node, (∀ inner ∈ node.descendants, inner.TextsSettled ∧ inner.mark = none) →
      (Forest.node node.kind node.mark node.contents .nil).TextsSettled := by
    intro node known
    simpa [Forest.TextsSettled, forest_descendants, Forest.toList, Child.descendants] using known
  obtain ⟨rfl, inside, -⟩ := Node.mk.inj same
  have whole : Forest.node kind mark contents .nil = .node kind otherMark otherContents .nil :=
    Forest.eq_of_merged_eq (alone _ settled) (alone _ otherSettled) trivial trivial
      (congrArg (Forest.node kind none · .nil) inside)
  cases whole
  rfl

end ShellLine
