import ShellLine.Tree.Forest

set_option autoImplicit false

namespace ShellLine

namespace Forest

-- A text in front of a row, joined with the text the row starts with.
def prependText (chars : List Char) : Forest → Forest
  | text more others => text (chars ++ more) others
  | others => if chars = [] then others else text chars others

def merged : Forest → Forest
  | nil => nil
  | node kind _ contents others => node kind none contents.merged others.merged
  | text chars others => prependText chars others.merged
  | list items others => list items.merged others.merged

def startsText : Forest → Bool
  | text _ _ => true
  | _ => false

-- No text is empty or stands beside another one, at any depth, and there are no marks.
def IsMerged : Forest → Prop
  | nil => True
  | node _ mark contents others => mark = none ∧ contents.IsMerged ∧ others.IsMerged
  | text chars others => chars ≠ [] ∧ others.startsText = false ∧ others.IsMerged
  | list items others => items.IsMerged ∧ others.IsMerged

theorem prepend_text_of_apart (chars : List Char) {others : Forest} (apart : others.startsText = false) :
    prependText chars others = if chars = [] then others else text chars others := by
  cases others with
  | text more rest => cases apart
  | nil | node | list => rfl

theorem prepend_text_merged (chars : List Char) {others : Forest} (clean : others.IsMerged) :
    (prependText chars others).IsMerged := by
  cases apart : others.startsText with
  | false =>
      rw [prepend_text_of_apart chars apart]
      split
      · exact clean
      · rename_i nonempty
        exact ⟨nonempty, apart, clean⟩
  | true =>
      cases others with
      | text more rest =>
          obtain ⟨nonempty, restApart, restClean⟩ := clean
          exact ⟨fun empty => nonempty (List.append_eq_nil_iff.mp empty).2, restApart, restClean⟩
      | nil | node | list => cases apart

theorem merged_is_merged (forest : Forest) : forest.merged.IsMerged := by
  induction forest with
  | nil => trivial
  | node kind mark contents others contentsClean othersClean => exact ⟨rfl, contentsClean, othersClean⟩
  | text chars others othersClean => exact prepend_text_merged chars othersClean
  | list items others itemsClean othersClean => exact ⟨itemsClean, othersClean⟩

end Forest

def Node.merged (node : Node) : Node := ⟨node.kind, node.contents.merged, none⟩

end ShellLine
