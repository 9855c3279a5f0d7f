import ShellLine.Proofs.Drawn.Takes
import ShellLine.Proofs.Tree.Settled
import ShellLine.Proofs.Tree.Written

set_option autoImplicit false

namespace ShellLine

def Node.Tidy (node : Node) : Prop := node.TextsSettled ∧ node.SignStands

-- A row whose texts are those taken from a text.
structure Forest.Drawn (taken : List Char) (forest : Forest) : Prop where
  text : forest.allText = taken
  tidy : ∀ inner ∈ forest.descendants, inner.Tidy

structure Node.Drawn (taken : List Char) (node : Node) : Prop where
  text : node.contents.allText = taken
  tidy : ∀ inner ∈ node.descendants, inner.Tidy

-- A part of a word that is written as the text that was passed over, if no substitution is in it.
structure Node.Spelled (passed : List Char) (node : Node) : Prop where
  text : node.contents.allText.Sublist passed
  tidy : ∀ inner ∈ node.descendants, inner.Tidy
  written : (∀ inner ∈ node.descendants, inner.kind.isSubstitution = false) → passed = node.written

def Child.Spelled (passed : List Char) : Child → Prop
  | .node inner => inner.Spelled passed
  | .text chars => passed = chars
  | .list _ => False

def SpelledTurn (quote : Char) (taken : List Char) : Turn Child → Prop
  | .more part => part.Spelled taken
  | .last _ => False
  | .stop => taken = [quote]

namespace Kind

def isRow (kind : Kind) : Bool := !kind.isLeaf && kind.sign?.isNone

def quote? : Kind → Option Char
  | doubleQuote => some '"'
  | backquote | doubleBackquote => some Grammar.backtick
  | _ => none

theorem sign_of_leaf {kind : Kind} (leaf : kind.isLeaf = true) : kind.sign? = none := by
  cases kind <;> first | rfl | cases leaf

-- A leaf that shows its text as it is, between what stands in front of it and behind it.
def ShowsBetween (front rear : List Char) (kind : Kind) : Prop :=
  kind.isLeaf = true ∧ kind.isEscape = false ∧ kind.operator = [] ∧ kind.opening = front ∧ kind.closing = rear

theorem row_of_quote {kind : Kind} {quote : Char} (quoted : kind.quote? = some quote) :
    kind.isRow = true ∧ kind.opening = [quote] ∧ kind.closing = [quote] ∧ ∀ chars, kind.writtenText chars = chars := by
  cases kind <;> cases quoted <;> exact ⟨rfl, rfl, rfl, List.append_nil⟩

theorem sublist_written_text (kind : Kind) (chars : List Char) : chars.Sublist (kind.writtenText chars) := by
  rw [writtenText]
  split
  · rename_i empty
    have none : chars = [] := List.isEmpty_iff.mp (Bool.and_eq_true _ _ ▸ empty).2
    exact none ▸ List.nil_sublist _
  · exact List.sublist_append_left chars kind.operator

end Kind

section Rows

variable {kind : Kind} {mark : Option Nat} {taken front rear chars : List Char} {forest others : Forest}
  {nodes : List Node} {node : Node}

theorem apart_of_nodes (nodes : List Node) : (Forest.ofNodes nodes).IsApart := by
  induction nodes with
  | nil => trivial
  | cons node others ih => exact ih

theorem starts_text_of_nodes (nodes : List Node) : (Forest.ofNodes nodes).startsText = false := by
  cases nodes <;> rfl

theorem apart_append (apart : forest.IsApart) (nodes : List Node) :
    (forest.append (.ofNodes nodes)).IsApart := by
  induction forest with
  | nil => exact apart_of_nodes nodes
  | node kind mark contents others _ ih => exact ih apart
  | text chars others ih =>
      refine ⟨apart.1, ?_, ih apart.2.2⟩
      cases others with
      | nil => exact starts_text_of_nodes nodes
      | text | node | list => exact apart.2.1
  | list items others _ ih => exact ⟨apart.1, ih apart.2⟩

theorem apart_of_row (row : node.kind.isRow = true) (settled : node.TextsSettled) : node.contents.IsApart := by
  obtain ⟨branching, -⟩ := Bool.and_eq_true _ _ ▸ row
  rwa [Node.TextsSettled, if_neg (by simpa using branching)] at settled

theorem tidy_of_row (row : kind.isRow = true) (apart : forest.IsApart) : (⟨kind, forest, mark⟩ : Node).Tidy := by
  obtain ⟨plain, unsigned⟩ := Bool.and_eq_true _ _ ▸ row
  refine ⟨?_, fun sign signed => ?_⟩
  · rw [Node.TextsSettled, if_neg (by simpa using plain)]
    exact apart
  · rw [Option.isNone_iff_eq_none.mp unsigned] at signed
    cases signed

theorem drawn_nil : Forest.nil.Drawn [] := ⟨rfl, fun _ member => by cases member⟩

theorem drawn_cons (child : Child) (text : child.allText = front) (tidy : ∀ inner ∈ child.descendants, inner.Tidy)
    (behind : others.Drawn rear) : (Forest.cons child others).Drawn (front ++ rear) := by
  refine ⟨?_, ?_⟩
  · rw [all_text_cons, text, behind.text]
  · rw [descendants_cons]
    exact List.forall_mem_append.mpr ⟨tidy, behind.tidy⟩

theorem drawn_text (behind : others.Drawn rear) : (Forest.text chars others).Drawn (chars ++ rear) :=
  drawn_cons (.text chars) rfl (fun _ member => by cases member) behind

theorem drawn_list {items : Forest} (inside : items.Drawn front) (behind : others.Drawn rear) :
    (Forest.list items others).Drawn (front ++ rear) :=
  drawn_cons (.list items) inside.text inside.tidy behind

theorem drawn_append (first : forest.Drawn front) (second : others.Drawn rear) :
    (forest.append others).Drawn (front ++ rear) := by
  refine ⟨?_, ?_⟩
  · rw [forest_all_text, Forest.to_list_append, List.flatMap_append, ← forest_all_text, ← forest_all_text,
      first.text, second.text]
  · rw [forest_descendants, Forest.to_list_append, List.flatMap_append, ← forest_descendants,
      ← forest_descendants]
    exact List.forall_mem_append.mpr ⟨first.tidy, second.tidy⟩

theorem drawn_strung (strung : Strung Node.Drawn taken nodes) : (Forest.ofNodes nodes).Drawn taken := by
  induction strung with
  | nil => exact drawn_nil
  | cons here _ ih => exact drawn_cons (.node _) here.text here.tidy ih

theorem drawn_node (drawn : forest.Drawn taken) (tidy : (⟨kind, forest, mark⟩ : Node).Tidy) :
    (⟨kind, forest, mark⟩ : Node).Drawn taken := by
  refine ⟨drawn.text, ?_⟩
  rw [node_descendants]
  exact List.forall_mem_cons.mpr ⟨tidy, drawn.tidy⟩

theorem contents_drawn (drawn : node.Drawn taken) : node.contents.Drawn taken := by
  refine ⟨drawn.text, fun inner below => drawn.tidy inner ?_⟩
  rw [node_descendants]
  exact List.mem_cons_of_mem _ below

theorem drawn_of_nodes (row : kind.isRow = true) (strung : Strung Node.Drawn taken nodes) :
    (Node.ofNodes kind nodes).Drawn taken :=
  drawn_node (drawn_strung strung) (tidy_of_row row (apart_of_nodes nodes))

theorem drawn_sole (strung : Strung Node.Drawn taken [node]) : node.Drawn taken := by
  cases strung with
  | @cons front rear _ _ here behind =>
      cases behind
      exact (List.append_nil front).symm ▸ here

theorem drawn_wrap (row : kind.isRow = true) (drawn : node.Drawn taken) : (Node.wrap kind node).Drawn taken :=
  drawn_of_nodes row (strung_single drawn)

theorem tidy_leaf (leaf : kind.isLeaf = true) (nonempty : chars = [] → kind.mayBeEmpty = true) :
    (Node.leaf kind chars).Tidy := by
  refine ⟨?_, fun sign signed => ?_⟩
  · exact (if_pos leaf).mpr ⟨chars, rfl, nonempty⟩
  · rw [Node.leaf, Kind.sign_of_leaf leaf] at signed
    cases signed

theorem drawn_leaf (leaf : kind.isLeaf = true) (nonempty : chars = [] → kind.mayBeEmpty = true) :
    (Node.leaf kind chars).Drawn chars := by
  have drawn : (Forest.text chars .nil).Drawn (chars ++ []) := drawn_text drawn_nil
  rw [List.append_nil] at drawn
  exact drawn_node drawn (tidy_leaf leaf nonempty)

end Rows

section Words

variable {kind : Kind} {mark : Option Nat} {taken passed chars : List Char} {forest : Forest}
  {nodes parts : List Node} {node : Node} {children : List Child} {quote sign : Char}

theorem spelled_leaf (leaf : kind.isLeaf = true) (nonempty : chars = [] → kind.mayBeEmpty = true)
    (same : passed = kind.opening ++ kind.writtenText chars ++ kind.closing) :
    (Node.leaf kind chars).Spelled passed := by
  refine ⟨?_, (drawn_leaf leaf nonempty).tidy, fun _ => ?_⟩
  · rw [(drawn_leaf leaf nonempty).text, same, List.append_assoc]
    exact (Kind.sublist_written_text kind chars).trans
      ((List.sublist_append_left _ _).trans (List.sublist_append_right _ _))
  · rw [same, Node.written, Node.leaf, Forest.written, Forest.written, List.append_nil]

theorem spelled_between {front rear : List Char} (shows : kind.ShowsBetween front rear)
    (nonempty : chars = [] → kind.mayBeEmpty = true) (same : passed = front ++ chars ++ rear) :
    (Node.leaf kind chars).Spelled passed := by
  obtain ⟨leaf, unescaped, plain, rfl, rfl⟩ := shows
  refine spelled_leaf leaf nonempty ?_
  rw [same, Kind.writtenText, unescaped, Bool.false_and, if_neg Bool.false_ne_true, plain, List.append_nil]

theorem spelled_escape {first : Char} (leaf : kind.isLeaf = true) (opening : kind.opening = ['\\'])
    (closing : kind.closing = []) (plain : kind.operator = []) :
    (Node.leaf kind [first]).Spelled ['\\', first] := by
  refine spelled_leaf leaf (fun empty => by cases empty) ?_
  simp [opening, closing, Kind.writtenText, plain]

theorem drawn_of_spelled (spelled : node.Spelled passed) :
    ∃ taken : List Char, taken.Sublist passed ∧ node.Drawn taken :=
  ⟨_, spelled.text, rfl, spelled.tidy⟩

theorem spelled_of_drawn (substitution : node.kind.isSubstitution = true) (dropped : taken.Sublist passed)
    (drawn : node.Drawn taken) : node.Spelled passed := by
  refine ⟨drawn.text ▸ dropped, drawn.tidy, fun plain => ?_⟩
  cases substitution.symm.trans (plain node (self_mem_descendants node))

theorem all_text_of_nodes (nodes : List Node) :
    (Forest.ofNodes nodes).allText = nodes.flatMap fun node => node.contents.allText := by
  rw [forest_all_text, Forest.ofNodes, Forest.to_list_of_list, List.flatMap_map]
  rfl

theorem written_of_nodes (kind : Kind) (nodes : List Node) :
    (Forest.ofNodes nodes).written kind = nodes.flatMap Node.written := by
  rw [forest_written, Forest.ofNodes, Forest.to_list_of_list, List.flatMap_map]
  rfl

theorem all_text_of_strung (strung : Strung Node.Spelled passed parts) :
    (parts.flatMap fun node => node.contents.allText).Sublist passed := by
  induction strung with
  | nil => exact List.Sublist.refl []
  | cons here _ ih => exact here.text.append ih

theorem written_of_strung (strung : Strung Node.Spelled passed parts)
    (plain : ∀ part ∈ parts, ∀ inner ∈ part.descendants, inner.kind.isSubstitution = false) :
    passed = parts.flatMap Node.written := by
  induction strung with
  | nil => rfl
  | cons here _ ih =>
      obtain ⟨first, others⟩ := List.forall_mem_cons.mp plain
      rw [List.flatMap_cons, ← here.written first, ← ih others]

theorem tidy_of_strung (strung : Strung Node.Spelled passed parts) :
    ∀ part ∈ parts, ∀ inner ∈ part.descendants, inner.Tidy := by
  induction strung with
  | nil => exact fun _ member => by cases member
  | cons here _ ih => exact List.forall_mem_cons.mpr ⟨here.tidy, ih⟩

theorem spelled_word (strung : Strung Node.Spelled passed parts) : (Node.ofNodes .word parts).Spelled passed := by
  refine ⟨?_, fun inner below => ?_, fun plain => ?_⟩
  · exact (all_text_of_nodes parts).symm ▸ all_text_of_strung strung
  · rcases mem_descendants_of_row.mp below with rfl | ⟨part, member, inside⟩
    · exact tidy_of_row rfl (apart_of_nodes parts)
    · exact tidy_of_strung strung part member inner inside
  · have written : (Node.ofNodes .word parts).written = parts.flatMap Node.written := by
      rw [Node.written, Node.ofNodes, written_of_nodes]
      exact List.append_nil _
    rw [written]
    exact written_of_strung strung fun part member inner inside =>
      plain inner (mem_descendants_of_row.mpr (Or.inr ⟨part, member, inside⟩))

theorem strung_of_spelled_turns (turns : Gathered (SpelledTurn quote) taken children) :
    ∃ passed, taken = passed ++ [quote] ∧ Strung Child.Spelled passed children := by
  induction turns with
  | stop closes => exact ⟨[], closes, .nil⟩
  | last impossible => exact impossible.elim
  | more here _ ih =>
      obtain ⟨passed, rfl, strung⟩ := ih
      exact ⟨_, (List.append_assoc _ _ _).symm, .cons here strung⟩

theorem apart_join_texts (strung : Strung Child.Spelled passed children) : (Grammar.joinTexts children).IsApart := by
  induction strung with
  | nil => trivial
  | @cons front rear child others here _ ih =>
      cases child with
      | node inner =>
          rw [Grammar.joinTexts]
          · exact ih
          · exact fun _ same => by cases same
      | list items => exact here.elim
      | text chars =>
          rw [Grammar.joinTexts]
          cases joined : Grammar.joinTexts others with
          | text more rest =>
              obtain ⟨nonempty, apart, restApart⟩ := joined ▸ ih
              exact ⟨fun none => nonempty (List.append_eq_nil_iff.mp none).2, apart, restApart⟩
          | nil | node | list =>
              dsimp only
              split
              · exact joined ▸ ih
              · rename_i nonempty
                exact ⟨nonempty, rfl, joined ▸ ih⟩

theorem all_text_of_children (strung : Strung Child.Spelled passed children) :
    (children.flatMap Child.allText).Sublist passed := by
  induction strung with
  | nil => exact List.Sublist.refl []
  | @cons front rear child others here _ ih =>
      refine List.Sublist.append ?_ ih
      cases child with
      | node inner => exact here.text
      | text chars => exact here ▸ List.Sublist.refl _
      | list items => exact here.elim

theorem tidy_of_children (strung : Strung Child.Spelled passed children) :
    ∀ inner ∈ children.flatMap Child.descendants, inner.Tidy := by
  induction strung with
  | nil => exact fun _ member => by cases member
  | @cons front rear child others here _ ih =>
      refine List.forall_mem_append.mpr ⟨?_, ih⟩
      cases child with
      | node inner => exact here.tidy
      | text chars => exact fun _ member => by cases member
      | list items => exact here.elim

theorem written_of_children (plain : ∀ chars, kind.writtenText chars = chars)
    (strung : Strung Child.Spelled passed children)
    (expands : ∀ inner ∈ children.flatMap Child.descendants, inner.kind.isSubstitution = false) :
    passed = children.flatMap (Child.written kind) := by
  induction strung with
  | nil => rfl
  | @cons front rear child others here _ ih =>
      obtain ⟨first, later⟩ := List.forall_mem_append.mp expands
      rw [List.flatMap_cons, ← ih later]
      congr 1
      cases child with
      | node inner => exact here.written first
      | text chars => exact here.trans (plain chars).symm
      | list items => exact here.elim

theorem spelled_quoted (quoted : kind.quote? = some quote) (strung : Strung Child.Spelled passed children) :
    (Grammar.quotedNode kind children).Spelled (quote :: passed ++ [quote]) := by
  obtain ⟨row, opening, closing, plain⟩ := Kind.row_of_quote quoted
  have text : (Grammar.joinTexts children).allText = children.flatMap Child.allText := by
    rw [forest_all_text]
    exact flat_map_join_texts rfl (fun _ _ => rfl) children
  have below : (Grammar.joinTexts children).descendants = children.flatMap Child.descendants := by
    rw [forest_descendants]
    exact flat_map_join_texts rfl (fun _ _ => rfl) children
  have written : (Grammar.joinTexts children).written kind = children.flatMap (Child.written kind) := by
    rw [forest_written]
    exact flat_map_join_texts (plain []) (fun _ _ => by simp only [Child.written, plain]) children
  refine ⟨?_, ?_, fun expands => ?_⟩
  · rw [Grammar.quotedNode, text]
    exact (all_text_of_children strung).trans
      ((List.sublist_append_left passed [quote]).trans (List.sublist_cons_self quote _))
  · rw [node_descendants, Grammar.quotedNode, below]
    exact List.forall_mem_cons.mpr ⟨tidy_of_row row (apart_join_texts strung), tidy_of_children strung⟩
  · rw [node_descendants, Grammar.quotedNode, below] at expands
    rw [Node.written, Grammar.quotedNode, written, opening, closing,
      ← written_of_children plain strung (List.forall_mem_cons.mp expands).2]
    rfl

-- An unquoted character that a word starts with is the first that was passed over.
theorem head_of_opens (strung : Strung Node.Spelled passed parts)
    (opens : (Forest.ofNodes parts).opensWith sign = true) : passed.head? = some sign := by
  cases strung with
  | nil => cases opens
  | @cons front rear part others here _ =>
      obtain ⟨kind, contents, mark⟩ := part
      change (Forest.node kind mark contents (.ofNodes others)).opensWith sign = true at opens
      unfold Forest.opensWith at opens
      split at opens
      · rename_i first chars rest behind same
        obtain ⟨rfl, rfl, rfl, rfl⟩ := same
        obtain ⟨⟨more, sole, -⟩, -⟩ := here.tidy _ (self_mem_descendants _)
        cases sole
        have written := here.written fun inner below => by
          rw [List.mem_singleton.mp below]
          rfl
        rw [written]
        exact congrArg some (of_decide_eq_true opens)
      · cases opens

end Words

section Operators

open Grammar

variable {kind : Kind} {text : String} {sign : Char}

theorem parameter_operator_shape : ∀ pair ∈ parameterOperators, pair.2.opening = ['$', '\x7b'] ∧
    pair.2.closing = ['\x7d'] ∧ pair.2.isLeaf = false ∧ pair.2.isEscape = false ∧
    pair.2.operator = pair.1.toList := by
  decide

theorem sign_not_doubled {rest : List Char} (found : parameterOperators.find?
      (fun operator => operator.1.toList.isPrefixOf (sign :: sign :: rest)) = some (text, kind)) :
    kind.sign? ≠ some sign := by
  intro signed
  cases kind <;> cases signed
  · have longer : parameterOperators.find? (fun operator => operator.1.toList.isPrefixOf ('%' :: '%' :: rest)) =
        some ("%%", .removeLargestSuffix) := rfl
    cases longer.symm.trans found
  · have longer : parameterOperators.find? (fun operator => operator.1.toList.isPrefixOf ('#' :: '#' :: rest)) =
        some ("##", .removeLargestPrefix) := rfl
    cases longer.symm.trans found

theorem sign_of_operator {pair : String × Kind} (listed : pair ∈ parameterOperators)
    (signed : pair.2.sign? = some sign) : pair.1.toList = [sign] := by
  have every : ∀ pair ∈ parameterOperators, pair.2.sign? = none ∨ pair.2.sign? = pair.1.toList.head? ∧
      pair.1.toList.tail = [] := by
    decide
  rcases every pair listed with unsigned | ⟨head, alone⟩
  · cases unsigned.symm.trans signed
  · obtain ⟨rest, same⟩ := List.head?_eq_some_iff.mp (head.symm.trans signed)
    rw [same] at alone ⊢
    exact congrArg (sign :: ·) alone

theorem spelled_operation {parameter passed rest : List Char} {parts : List Node} (named : parameter ≠ [])
    (found : parameterOperators.find?
      (fun operator => operator.1.toList.isPrefixOf (text.toList ++ (passed ++ rest))) = some (text, kind))
    (strung : Strung Node.Spelled passed parts) :
    (⟨kind, .ofList [.text parameter, .node (.ofNodes .word parts)], none⟩ : Node).Spelled
      (['$', '\x7b'] ++ parameter ++ text.toList ++ passed ++ ['\x7d']) := by
  have listed : (text, kind) ∈ parameterOperators := List.mem_of_find?_eq_some found
  obtain ⟨opening, closing, branching, unescaped, operator⟩ := parameter_operator_shape _ listed
  have word := spelled_word strung
  have tidy : (⟨kind, .ofList [.text parameter, .node (.ofNodes .word parts)], none⟩ : Node).Tidy := by
    refine ⟨?_, fun sign signed => ?_⟩
    · rw [Node.TextsSettled, if_neg (Bool.eq_false_iff.mp branching)]
      exact ⟨named, rfl, trivial⟩
    · cases opens : (Forest.ofNodes parts).opensWith sign with
      | false => exact opens
      | true =>
          obtain ⟨more, rfl⟩ := List.head?_eq_some_iff.mp (head_of_opens strung opens)
          rw [sign_of_operator listed signed] at found
          exact absurd signed (sign_not_doubled found)
  have below : ∀ inner, inner ∈ (⟨kind, .ofList [.text parameter, .node (.ofNodes .word parts)], none⟩ :
      Node).descendants ↔ inner = ⟨kind, .ofList [.text parameter, .node (.ofNodes .word parts)], none⟩ ∨
        inner ∈ (Node.ofNodes .word parts).descendants := by
    intro inner
    rw [mem_descendants, Forest.to_list_of_list]
    simp [Child.descendants]
  refine ⟨?_, fun inner member => ?_, fun plain => ?_⟩
  · rw [forest_all_text, Forest.to_list_of_list, List.flatMap_cons, List.flatMap_singleton]
    have front : parameter.Sublist (['$', '\x7b'] ++ parameter ++ text.toList) :=
      (List.sublist_append_right _ parameter).trans (List.sublist_append_left _ _)
    exact (front.append word.text).trans (List.sublist_append_left _ _)
  · rcases (below inner).mp member with rfl | inside
    · exact tidy
    · exact word.tidy inner inside
  · have written : passed = (Node.ofNodes .word parts).written :=
      word.written fun inner inside => plain inner ((below inner).mpr (Or.inr inside))
    rw [Node.written, forest_written, Forest.to_list_of_list, List.flatMap_cons, List.flatMap_singleton,
      Child.written, Child.written, ← written, opening, closing, Kind.writtenText, unescaped, Bool.false_and,
      if_neg Bool.false_ne_true, operator]
    simp only [List.append_assoc]

end Operators

end ShellLine
