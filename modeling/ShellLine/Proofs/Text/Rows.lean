import Mathlib.Data.List.Basic

set_option autoImplicit false

namespace ShellLine.Text

section Rows

variable {α : Type} {item : α → List Char} {Ends : List Char → Prop} {xs ys : List α} {rest more : List Char}

def Behind (item : α → List Char) (Ends : List Char → Prop) (rest : List Char) : Prop :=
  Ends rest ∨ ∃ a more, rest = item a ++ more

theorem row_behind (xs : List α) (ends : Ends rest) : Behind item Ends (xs.flatMap item ++ rest) := by
  cases xs with
  | nil => exact Or.inl ends
  | cons a xs => exact Or.inr ⟨a, xs.flatMap item ++ rest, by rw [List.flatMap_cons, List.append_assoc]⟩

theorem told_of_read {read : List Char → Option (α × List Char)} {a b : α}
    (reads : ∀ a rest, read (item a ++ rest) = some (a, rest)) (same : item a ++ rest = item b ++ more) :
    a = b ∧ rest = more := by
  have both := congrArg read same
  rw [reads, reads, Option.some.injEq, Prod.mk.injEq] at both
  exact both

theorem row_injective (item : α → List Char) (Ends : List Char → Prop)
    (told : ∀ {a b rest more}, Behind item Ends rest → Behind item Ends more →
      item a ++ rest = item b ++ more → a = b ∧ rest = more)
    (goesOn : ∀ a rest, ¬ Ends (item a ++ rest)) (ends : Ends rest) (moreEnds : Ends more)
    (same : xs.flatMap item ++ rest = ys.flatMap item ++ more) : xs = ys ∧ rest = more := by
  induction xs generalizing ys with
  | nil =>
      cases ys with
      | nil => exact ⟨rfl, same⟩
      | cons b ys =>
          rw [List.flatMap_nil, List.nil_append, List.flatMap_cons, List.append_assoc] at same
          exact absurd (same ▸ ends) (goesOn b _)
  | cons a xs ih =>
      cases ys with
      | nil =>
          rw [List.flatMap_nil, List.nil_append, List.flatMap_cons, List.append_assoc] at same
          exact absurd (same ▸ moreEnds) (goesOn a _)
      | cons b ys =>
          rw [List.flatMap_cons, List.flatMap_cons, List.append_assoc, List.append_assoc] at same
          obtain ⟨rfl, behind⟩ := told (row_behind xs ends) (row_behind ys moreEnds) same
          obtain ⟨rfl, rfl⟩ := ih behind
          exact ⟨rfl, rfl⟩

theorem intercalate_cons (separator first : List Char) (others : List (List Char)) :
    separator.intercalate (first :: others) = first ++ others.flatMap (separator ++ ·) := by
  induction others generalizing first with
  | nil => rw [List.intercalate_singleton, List.flatMap_nil, List.append_nil]
  | cons second others ih => rw [List.intercalate_cons_cons, ih, List.flatMap_cons, List.append_assoc, List.append_assoc]

theorem intercalate_map_cons (separator : List Char) (item : α → List Char) (a : α) (xs : List α) :
    separator.intercalate ((a :: xs).map item) = item a ++ (xs.flatMap (separator ++ item ·) ++ []) := by
  rw [List.map_cons, intercalate_cons, List.flatMap_map, List.append_nil]

theorem intercalate_injective (separator : List Char) (item : α → List Char) (nonempty : ∀ a, item a ≠ [])
    (told : ∀ {a b rest more}, Behind (separator ++ item ·) (· = []) rest →
      Behind (separator ++ item ·) (· = []) more → item a ++ rest = item b ++ more → a = b ∧ rest = more)
    (same : separator.intercalate (xs.map item) = separator.intercalate (ys.map item)) : xs = ys := by
  have starts : ∀ a rest, item a ++ rest ≠ [] := fun a rest empty => nonempty a (List.append_eq_nil_iff.mp empty).1
  cases xs with
  | nil =>
      cases ys with
      | nil => rfl
      | cons b ys =>
          rw [intercalate_map_cons] at same
          exact absurd same.symm (starts b _)
  | cons a xs =>
      cases ys with
      | nil =>
          rw [intercalate_map_cons] at same
          exact absurd same (starts a _)
      | cons b ys =>
          rw [intercalate_map_cons, intercalate_map_cons] at same
          obtain ⟨rfl, others⟩ := told (row_behind xs rfl) (row_behind ys rfl) same
          have toldBehind : ∀ {a b rest more}, Behind (separator ++ item ·) (· = []) rest →
              Behind (separator ++ item ·) (· = []) more → separator ++ item a ++ rest = separator ++ item b ++ more →
                a = b ∧ rest = more := by
            intro a b rest more behind behindThen same
            rw [List.append_assoc, List.append_assoc] at same
            exact told behind behindThen (List.append_cancel_left same)
          have goesOn : ∀ a rest, ¬ separator ++ item a ++ rest = [] := by
            intro a rest empty
            rw [List.append_assoc] at empty
            exact starts a rest (List.append_eq_nil_iff.mp empty).2
          obtain ⟨rfl, -⟩ := row_injective _ _ toldBehind goesOn rfl rfl others
          rfl

end Rows

end ShellLine.Text
