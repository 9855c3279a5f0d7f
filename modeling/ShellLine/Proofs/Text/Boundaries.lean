import Mathlib.Data.List.Basic
import ShellLine.Source.Cursor

set_option autoImplicit false

namespace ShellLine

open Text

theorem utf8_encode_size (chars : List Char) : chars.utf8Encode.size = byteLength chars := by
  induction chars with
  | nil => rfl
  | cons c rest ih =>
      rw [List.utf8Encode_cons, ByteArray.size_append, ih, List.utf8Encode_singleton,
        List.size_toByteArray, String.length_utf8EncodeChar, byteLength]

theorem size_in_bytes (source : String) : source.utf8ByteSize = byteLength source.toList := by
  rw [← utf8_encode_size, ← String.toByteArray_ofList, String.ofList_toList, String.size_toByteArray]

def offsetOf (input : String) (left : Nat) : Nat := byteLength input.toList - left

-- A place that is not in front of the input and not inside one of its characters.
def Boundary (input : String) (left : Nat) : Prop :=
  left ≤ byteLength input.toList ∧ (⟨offsetOf input left⟩ : String.Pos.Raw).IsValid input

section Places

variable {input : String} {c : Cursor}

theorem bytes_of_whole {before : List Char} (whole : before ++ c.rest = input.toList) :
    input.toByteArray = before.utf8Encode ++ c.rest.utf8Encode ∧
      offsetOf input c.left = before.utf8Encode.size ∧ c.left ≤ byteLength input.toList := by
  have bytes : input.toByteArray = (before ++ c.rest).utf8Encode := by
    rw [whole, ← String.toByteArray_ofList, String.ofList_toList]
  have lengths := congrArg byteLength whole
  rw [byte_length_append, ← c.left_eq] at lengths
  rw [bytes, List.utf8Encode_append, utf8_encode_size, offsetOf]
  exact ⟨rfl, by omega, by omega⟩

theorem boundary_of_place (within : c.rest <:+ input.toList) : Boundary input c.left := by
  obtain ⟨before, whole⟩ := within
  obtain ⟨-, offset, bound⟩ := bytes_of_whole whole
  refine ⟨bound, String.Pos.Raw.isValid_iff_exists_append.mpr
    ⟨.ofList before, .ofList c.rest, ?_, ?_⟩⟩
  · rw [← String.ofList_append, whole, String.ofList_toList]
  · rw [offset, ← String.toByteArray_ofList]
    rfl

end Places

section Bytes

-- A character is one byte or starts, like it goes on, with a byte beyond ASCII.
theorem ascii_bytes {c : Char} (ascii : c.toNat < 128) :
    String.utf8EncodeChar c = [UInt8.ofNat c.toNat] := by
  have small : c.val.toNat ≤ 127 := Nat.le_of_lt_succ ascii
  simp only [String.utf8EncodeChar, if_pos small]
  rfl

theorem beyond_ascii_bytes {c : Char} (beyond : 128 ≤ c.toNat) :
    ∀ b ∈ String.utf8EncodeChar c, 128 ≤ b.toNat := by
  have large : ¬ c.val.toNat ≤ 127 := Nat.not_le_of_lt beyond
  simp only [String.utf8EncodeChar, if_neg large]
  split_ifs <;> simp only [List.forall_mem_cons, UInt8.toNat_ofNat', List.not_mem_nil, false_implies,
    implies_true, and_true] <;> omega

theorem ascii_width {c : Char} (ascii : c.toNat < 128) : c.utf8Size = 1 := by
  rw [← String.length_utf8EncodeChar, ascii_bytes ascii, List.length_singleton]

theorem exists_first_byte (c : Char) : ∃ b more, String.utf8EncodeChar c = b :: more := by
  refine List.exists_cons_of_ne_nil fun none => ?_
  have length := String.length_utf8EncodeChar c
  rw [none] at length
  exact absurd length.symm (Nat.ne_of_gt c.utf8Size_pos)

end Bytes

end ShellLine
