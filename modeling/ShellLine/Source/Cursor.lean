import ShellLine.Text.Bytes

set_option autoImplicit false

namespace ShellLine

open Text

structure Cursor where
  rest : List Char
  left : Nat
  left_eq : left = byteLength rest
deriving DecidableEq

namespace Cursor

def start (text : List Char) : Cursor := ⟨text, byteLength text, rfl⟩

def advance : Nat → Cursor → Cursor
  | count + 1, ⟨c :: rest, left, left_eq⟩ =>
      advance count
        ⟨rest, left - c.utf8Size, by rw [left_eq, byteLength]; exact Nat.add_sub_cancel_left ..⟩
  | _, cursor => cursor

theorem ext_rest (a b : Cursor) (same : a.rest = b.rest) : a = b := by
  obtain ⟨rest, left, left_eq⟩ := a
  obtain ⟨rest', left', left_eq'⟩ := b
  obtain rfl : rest = rest' := same
  obtain rfl : left = left' := left_eq.trans left_eq'.symm
  rfl

theorem rest_advance (count : Nat) (cursor : Cursor) :
    (cursor.advance count).rest = cursor.rest.drop count := by
  induction count generalizing cursor with
  | zero => cases cursor; rfl
  | succ count ih =>
      obtain ⟨rest, left, left_eq⟩ := cursor
      cases rest with
      | nil => rfl
      | cons c rest => exact ih _

theorem advance_suffix (count : Nat) (cursor : Cursor) :
    (cursor.advance count).rest <:+ cursor.rest := by
  rw [rest_advance]
  exact List.drop_suffix count cursor.rest

theorem advance_left_lt (count : Nat) (cursor : Cursor) (remains : cursor.rest ≠ [])
    (moves : 0 < count) : (cursor.advance count).left < cursor.left := by
  obtain ⟨rest, left, left_eq⟩ := cursor
  cases rest with
  | nil => exact absurd rfl remains
  | cons c rest =>
      have shorter : ((⟨c :: rest, left, left_eq⟩ : Cursor).advance count).rest <:+ rest := by
        rw [rest_advance]
        obtain ⟨less, rfl⟩ := Nat.exists_eq_succ_of_ne_zero (Nat.ne_of_gt moves)
        exact List.drop_suffix less rest
      obtain ⟨passed, whole⟩ := shorter
      have bound := congrArg byteLength whole
      rw [byte_length_append, ← Cursor.left_eq] at bound
      have positive := c.utf8Size_pos
      show _ < left
      rw [byteLength] at left_eq
      omega

theorem left_le_of_suffix (a b : Cursor) (behind : a.rest <:+ b.rest) : a.left ≤ b.left := by
  obtain ⟨passed, whole⟩ := behind
  rw [a.left_eq, b.left_eq, ← whole, byte_length_append]
  exact Nat.le_add_left ..

theorem eq_of_left (text : List Char) (a b : Cursor) (within : a.rest <:+ text)
    (within' : b.rest <:+ text) (same : a.left = b.left) : a = b := by
  have equal_of_behind : ∀ c d : Cursor, c.rest <:+ d.rest → c.left = d.left → c = d := by
    intro c d behind level
    obtain ⟨passed, whole⟩ := behind
    rw [c.left_eq, d.left_eq, ← whole, byte_length_append] at level
    have empty : passed = [] := (byte_length_eq_zero passed).mp (by omega)
    exact ext_rest c d (by rw [← whole, empty, List.nil_append])
  rcases List.suffix_or_suffix_of_suffix within within' with behind | behind
  · exact equal_of_behind a b behind same
  · exact (equal_of_behind b a behind same.symm).symm

end Cursor

end ShellLine
