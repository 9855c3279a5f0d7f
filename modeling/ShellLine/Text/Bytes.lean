set_option autoImplicit false

namespace ShellLine.Text

def byteLength : List Char → Nat
  | [] => 0
  | c :: rest => c.utf8Size + byteLength rest

theorem byte_length_append (a b : List Char) :
    byteLength (a ++ b) = byteLength a + byteLength b := by
  induction a with
  | nil => simp [byteLength]
  | cons c rest ih => simp only [List.cons_append, byteLength, ih, Nat.add_assoc]

theorem length_le_byte_length (chars : List Char) : chars.length ≤ byteLength chars := by
  induction chars with
  | nil => exact Nat.le_refl 0
  | cons c rest ih =>
      have positive := c.utf8Size_pos
      simp only [List.length_cons, byteLength]
      omega

theorem byte_length_eq_zero (chars : List Char) : byteLength chars = 0 ↔ chars = [] := by
  constructor
  · intro empty
    have bound := length_le_byte_length chars
    exact List.length_eq_zero_iff.mp (by omega)
  · rintro rfl
    rfl

end ShellLine.Text
