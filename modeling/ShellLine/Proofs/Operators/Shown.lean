import ShellLine.Proofs.Forms.Command
import ShellLine.Proofs.Operators.Scan
import ShellLine.Proofs.Tree.Descendants

set_option autoImplicit false

namespace ShellLine

namespace Operators

open Grammar ShellLine.Parser

-- Whether a kind tells of an operator that it stands in the text.
def tells (text : List Char) (kind : Kind) : Bool :=
  if text = "&&".toList ∨ text = "||".toList then kind.feature? = some .list
  else if text = "&".toList then kind.feature? = some .background
  else if text = "|".toList then kind.feature? = some .pipeline ∨ kind.feature? = some .compound
  else if text = "<<".toList then kind.isHereDocument
  else if text.head? = some '<' ∨ text.head? = some '>' then kind.feature? = some .redirect
  else kind.feature? = some .compound

-- A semicolon need not be told; an expansion is no operator.
def Told (kinds : List Kind) : Sign → Prop
  | .expansion => False
  | .operator text => text = ";".toList ∨ ∃ kind ∈ kinds, tells text kind = true

-- From one place to another all operators are told, or an expansion stands there and is told. What
-- stands behind an expansion may be hidden by it.
structure Shows (kinds : List Kind) (c d : Cursor) : Prop where
  behind : d.rest <:+ c.rest
  told : '#' ∉ c.rest →
    (∃ passed, signs .none c.rest = passed ++ signs .none d.rest ∧ ∀ sign ∈ passed, Told kinds sign) ∨
      (.expansion ∈ signs .none c.rest ∧ ∃ kind ∈ kinds, kind.isExpansion = true)

section Steps

variable {kinds : List Kind} {c d e : Cursor}

theorem told_mono {more : List Kind} (subset : kinds ⊆ more) {sign : Sign} (told : Told kinds sign) :
    Told more sign := by
  cases sign with
  | expansion => exact told
  | operator text => exact told.imp_right fun ⟨kind, member, tells⟩ => ⟨kind, subset member, tells⟩

namespace Shows

theorem mono {more : List Kind} (subset : kinds ⊆ more) (shows : Shows kinds c d) :
    Shows more c d where
  behind := shows.behind
  told clean := by
    rcases shows.told clean with ⟨passed, whole, told⟩ | ⟨expansion, kind, member, expands⟩
    · exact Or.inl ⟨passed, whole, fun sign member => told_mono subset (told sign member)⟩
    · exact Or.inr ⟨expansion, kind, subset member, expands⟩

theorem up {node inner : Node} (shows : Shows inner.kinds c d) (child : inner ∈ node.children) :
    Shows node.kinds c d := shows.mono (child_kinds child)

theorem among {kind : Kind} {nodes : List Node} {inner : Node} (shows : Shows inner.kinds c d)
    (member : inner ∈ nodes) : Shows (Node.ofNodes kind nodes).kinds c d :=
  shows.up (by rwa [Node.children_of_nodes])

theorem wrap {kind : Kind} {inner : Node} (shows : Shows inner.kinds c d) :
    Shows (Node.wrap kind inner).kinds c d := shows.among (List.mem_singleton_self inner)

theorem trans (first : Shows kinds c d) (second : Shows kinds d e) : Shows kinds c e where
  behind := second.behind.trans first.behind
  told clean := by
    have cleanBehind : '#' ∉ d.rest := fun member => clean (first.behind.mem member)
    rcases first.told clean with ⟨passed, whole, told⟩ | ⟨expansion, expands⟩
    · rcases second.told cleanBehind with ⟨more, wholeMore, toldMore⟩ | ⟨expansion, expands⟩
      · refine Or.inl ⟨passed ++ more, by rw [whole, wholeMore, List.append_assoc], ?_⟩
        exact List.forall_mem_append.mpr ⟨told, toldMore⟩
      · rw [whole]
        exact Or.inr ⟨List.mem_append_right _ expansion, expands⟩
    · exact Or.inr ⟨expansion, expands⟩

theorem of_same (behind : d.rest <:+ c.rest)
    (same : '#' ∉ c.rest → signs .none c.rest = signs .none d.rest) : Shows kinds c d where
  behind := behind
  told clean := Or.inl ⟨[], by rw [same clean, List.nil_append], by simp⟩

theorem refl (kinds : List Kind) (c : Cursor) : Shows kinds c c :=
  of_same (List.suffix_refl _) fun _ => rfl

theorem chars {chars : List Char} (here : c.rest = chars ++ d.rest)
    (plain : ∀ ch ∈ chars, isActive ch = false) : Shows kinds c d := by
  refine of_same ⟨chars, here.symm⟩ fun _ => ?_
  rw [here, signs_plain_append plain]

theorem blanks (kinds : List Kind) (c : Cursor) : Shows kinds c c.pastBlanks := by
  refine of_same (c.advance_suffix _) fun clean => ?_
  rw [Cursor.pastBlanks, Cursor.rest_advance, signs_layout false _ clean]

theorem lines (kinds : List Kind) (c : Cursor) : Shows kinds c c.pastLines := by
  refine of_same (c.advance_suffix _) fun clean => ?_
  rw [Cursor.pastLines, Cursor.rest_advance, signs_layout true _ clean]

theorem lineBreak (kinds : List Kind) (c : Cursor) : Shows kinds c c.pastBreak := by
  rw [Cursor.pastBreak]
  split
  · exact lines kinds c
  · exact refl kinds c

theorem text {text : List Char} (here : text <+: c.rest)
    (plain : ∀ ch ∈ text, isActive ch = false) : Shows kinds c (c.advance text.length) :=
  chars (rest_past_text here) plain

theorem pair {a b : Char} (pair : (a, b) ∈ pairs) (here : [a, b] <+: c.rest)
    (told : Told kinds (.operator [a, b])) : Shows kinds c (c.advance 2) where
  behind := c.advance_suffix 2
  told _ := by
    obtain ⟨rest, whole⟩ := here
    refine Or.inl ⟨[.operator [a, b]], ?_, List.forall_mem_singleton.mpr told⟩
    rw [rest_skip_pair whole.symm, ← whole]
    exact signs_pair pair

theorem lone {ch : Char} (single : ch ∈ singles) (head : c.rest.head? = some ch)
    (alone : ∀ next, c.rest.tail.head? = some next → (ch, next) ∉ pairs)
    (told : Told kinds (.operator [ch])) : Shows kinds c (c.advance 1) where
  behind := c.advance_suffix 1
  told _ := by
    obtain ⟨rest, here⟩ := List.head?_eq_some_iff.mp head
    rw [here] at alone
    refine Or.inl ⟨[.operator [ch]], ?_, List.forall_mem_singleton.mpr told⟩
    rw [rest_skip_cons here, here]
    exact signs_lone single alone

theorem undoubled {ch : Char} (among : ch ∈ ['&', '|', ';']) (alone : standsAlone ch c.rest)
    (told : Told kinds (.operator [ch])) : Shows kinds c (c.advance 1) := by
  have every : ∀ ch ∈ ['&', '|', ';'], ch ∈ singles ∧ ∀ pair ∈ pairs, pair.1 = ch → pair.2 = ch := by
    decide
  obtain ⟨single, doubled⟩ := every ch among
  refine lone single alone.1 (fun next head pair => alone.2 ?_) told
  exact head.trans (congrArg some (doubled (ch, next) pair rfl))

end Shows

end Steps

section Grammar

variable {calls : Rule → Cursor → Reading Node} {kinds : List Kind} {c d : Cursor}

theorem shows_keyword {word : String} (plain : ∀ ch ∈ word.toList, isActive ch = false)
    (given : (keyword word).Gives calls c () d) : Shows kinds c d := by
  obtain ⟨reserved, rfl⟩ := (gives_keyword word c d ()).mp given
  have passed : Shows kinds c (c.advance word.length) := by
    rw [← String.length_toList]
    exact .text (starts_of_starts_reserved _ _ reserved) plain
  exact passed.trans (.blanks kinds _)

theorem shows_name {chars : List Char} (given : name.Gives calls c chars d) : Shows kinds c d := by
  obtain ⟨-, rfl, rfl⟩ := (gives_name c d chars).mp given
  exact .chars (rest_take_while c continuesName) fun ch member =>
    not_active_of_continues (List.all_eq_true.mp List.all_takeWhile ch member)

theorem shows_operator {text : String} (fixed : isFixed text.toList = true)
    (given : (operator text).Gives calls c () d) (told : Told kinds (.operator text.toList)) :
    Shows kinds c d := by
  obtain ⟨here, rfl⟩ := (gives_operator text c d ()).mp given
  refine .trans ?_ (.blanks kinds _)
  rw [← String.length_toList]
  unfold isFixed at fixed
  split at fixed
  · rename_i a single
    rw [single] at here told ⊢
    have every : ∀ ch ∈ ['(', ')'], ch ∈ singles ∧ ∀ pair ∈ pairs, pair.1 ≠ ch := by decide
    obtain ⟨isSingle, alone⟩ := every a (by simpa using fixed)
    obtain ⟨rest, whole⟩ := here
    exact .lone isSingle (by rw [← whole]; rfl) (fun next _ pair => alone _ pair rfl) told
  · rename_i a b both
    rw [both] at here told ⊢
    exact .pair (by simpa using fixed) here told
  · cases fixed

theorem shows_items {α : Type} {item : Parser α} {values : List α}
    (each : ∀ value ∈ values, ∀ c d, item.Gives calls c value d → Shows kinds c d)
    (items : Items calls item c values d) : Shows kinds c d := by
  induction items with
  | stop _ => exact .refl kinds _
  | halt given _ => exact each _ (List.mem_singleton_self _) _ _ given
  | more given _ _ ih =>
      obtain ⟨first, later⟩ := List.forall_mem_cons.mp each
      exact (first _ _ given).trans (ih later)

theorem shows_turns {α : Type} {turn : Parser (Turn α)} {values : List α}
    (stop : ∀ c d, turn.Gives calls c .stop d → Shows kinds c d)
    (each : ∀ value ∈ values, ∀ c d, turn.Gives calls c (.more value) d ∨
      turn.Gives calls c (.last value) d → Shows kinds c d)
    (turns : Turns calls turn c values d) : Shows kinds c d := by
  induction turns with
  | stop given => exact stop _ _ given
  | last given => exact each _ (List.mem_singleton_self _) _ _ (Or.inr given)
  | halt given _ => exact each _ (List.mem_singleton_self _) _ _ (Or.inl given)
  | more given _ _ ih =>
      obtain ⟨first, later⟩ := List.forall_mem_cons.mp each
      exact (first _ _ (Or.inl given)).trans (ih later)

end Grammar

end Operators

end ShellLine
