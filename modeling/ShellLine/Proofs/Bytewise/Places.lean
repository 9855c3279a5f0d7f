import ShellLine.Bytewise.Program
import ShellLine.Proofs.Text.Boundaries

set_option autoImplicit false

namespace ShellLine.Bytewise

open Text

theorem bytes_append (front more : List Char) : bytes (front ++ more) = bytes front ++ bytes more :=
  List.flatMap_append ..

theorem bytes_length (text : List Char) : (bytes text).length = byteLength text := by
  induction text with
  | nil => rfl
  | cons c rest ih =>
      rw [bytes, List.flatMap_cons, List.length_append, String.length_utf8EncodeChar, byteLength, ← ih]
      rfl

theorem chars_from_front (front more : List Char) :
    charsFrom? (front ++ more) (byteLength front) = some more := by
  induction front with
  | nil => cases more <;> rfl
  | cons c front ih =>
      obtain ⟨width, size⟩ := Nat.exists_eq_succ_of_ne_zero (Nat.ne_of_gt c.utf8Size_pos)
      have past : c.utf8Size + byteLength front = (width + byteLength front) + 1 := by omega
      rw [byteLength, past, List.cons_append, charsFrom?, ← past, if_neg (by omega), Nat.add_sub_cancel_left, ih]

section Places

variable {input : String} {c d : Cursor} {passed : List Char}

theorem offset_of_end (input : String) : offsetOf input 0 = (bytes input.toList).length := by
  rw [bytes_length, offsetOf, Nat.sub_zero]

theorem split_at_place (within : c.rest <:+ input.toList) :
    ∃ front, front ++ c.rest = input.toList ∧ offsetOf input c.left = byteLength front := by
  obtain ⟨front, whole⟩ := within
  refine ⟨front, whole, ?_⟩
  rw [offsetOf, ← whole, byte_length_append, c.left_eq, Nat.add_sub_cancel]

theorem offset_after (within : c.rest <:+ input.toList) (whole : c.rest = passed ++ d.rest) :
    offsetOf input d.left = offsetOf input c.left + byteLength passed := by
  obtain ⟨front, text, offset⟩ := split_at_place within
  rw [offset, ← byte_length_append, offsetOf, ← text, whole, ← List.append_assoc, byte_length_append _ d.rest,
    d.left_eq, Nat.add_sub_cancel]

theorem chars_from_place (within : c.rest <:+ input.toList) :
    charsFrom? input.toList (offsetOf input c.left) = some c.rest := by
  obtain ⟨front, text, offset⟩ := split_at_place within
  rw [offset, ← text, chars_from_front]

theorem bytes_from (within : c.rest <:+ input.toList) :
    (bytes input.toList).drop (offsetOf input c.left) = bytes c.rest := by
  obtain ⟨front, text, offset⟩ := split_at_place within
  rw [offset, ← text, bytes_append, ← bytes_length, List.drop_left]

theorem byte_ahead (within : c.rest <:+ input.toList) (ahead : Nat) :
    (bytes input.toList)[offsetOf input c.left + ahead]? = (bytes c.rest)[ahead]? := by
  rw [← bytes_from within, List.getElem?_drop]

theorem slice_of_places (within : c.rest <:+ input.toList) (whole : c.rest = passed ++ d.rest) :
    slice? input.toList (offsetOf input c.left) (offsetOf input d.left) = some passed := by
  have behind : d.rest <:+ c.rest := ⟨passed, whole.symm⟩
  have order : offsetOf input c.left ≤ offsetOf input d.left := by
    rw [offset_after within whole]
    exact Nat.le_add_right ..
  have count : c.rest.length - d.rest.length = passed.length := by
    rw [whole, List.length_append, Nat.add_sub_cancel]
  simp only [slice?, chars_from_place within, chars_from_place (behind.trans within), Option.bind_eq_bind,
    Option.bind_some, if_pos order, count]
  rw [whole, List.take_left]

end Places

section Lead

def lead (text : List Char) : Option Char := (bytes text)[0]?.map Char.ofUInt8

def Alike (x c : Char) : Prop := x = c ∨ 128 ≤ x.toNat ∧ 128 ≤ c.toNat

theorem of_byte_to_nat (b : UInt8) : (Char.ofUInt8 b).toNat = b.toNat := rfl

theorem byte_alike {c : Char} {b : UInt8} (member : b ∈ String.utf8EncodeChar c) : Alike (.ofUInt8 b) c := by
  by_cases ascii : c.toNat < 128
  · rw [ascii_bytes ascii, List.mem_singleton] at member
    refine Or.inl (Char.toNat_inj.mp ?_)
    rw [of_byte_to_nat, member, UInt8.toNat_ofNat', Nat.mod_eq_of_lt (by omega)]
  · have beyond := Nat.le_of_not_lt ascii
    exact Or.inr ⟨beyond_ascii_bytes beyond b member, beyond⟩

@[simp] theorem lead_nil : lead [] = none := rfl

theorem lead_cons (c : Char) (more : List Char) : ∃ x, lead (c :: more) = some x ∧ Alike x c := by
  obtain ⟨b, others, first⟩ := exists_first_byte c
  refine ⟨.ofUInt8 b, ?_, byte_alike (first ▸ List.mem_cons_self ..)⟩
  simp [lead, bytes, List.flatMap_cons, first]

theorem lead_of_ascii {c : Char} (ascii : c.toNat < 128) (more : List Char) : lead (c :: more) = some c := by
  obtain ⟨x, first, rfl | ⟨-, beyond⟩⟩ := lead_cons c more
  · exact first
  · omega

theorem eq_of_lead {c x : Char} {more : List Char} (first : lead (c :: more) = some x) (ascii : c.toNat < 128) : x = c :=
  Option.some.inj (first.symm.trans (lead_of_ascii ascii more))

theorem lead_eq_some {k : Char} (ascii : k.toNat < 128) {text : List Char} :
    lead text = some k ↔ text.head? = some k := by
  cases text with
  | nil => simp
  | cons c more =>
      obtain ⟨x, first, rfl | ⟨beyond, beyondToo⟩⟩ := lead_cons c more
      · rw [first, List.head?_cons]
      · have apart : ∀ {y : Char}, 128 ≤ y.toNat → y ≠ k := by
          rintro y far rfl
          exact Nat.not_lt_of_le far ascii
        simp [first, apart beyond, apart beyondToo]

theorem cons_of_lead {k : Char} {text : List Char} (first : lead text = some k) (ascii : k.toNat < 128) :
    ∃ more, text = k :: more := List.head?_eq_some_iff.mp ((lead_eq_some ascii).mp first)

theorem head_apart {k : Char} {text : List Char} (other : lead text = some k → False) (ascii : k.toNat < 128) :
    text.head? ≠ some k := fun first => other ((lead_eq_some ascii).mpr first)

theorem nil_of_lead {text : List Char} (none : lead text = none) : text = [] := by
  cases text with
  | nil => rfl
  | cons c more =>
      obtain ⟨x, first, -⟩ := lead_cons c more
      rw [first] at none
      cases none

theorem byte_behind (front more : List Char) : ((bytes (front ++ more))[byteLength front]?).map Char.ofUInt8 = lead more := by
  rw [bytes_append, List.getElem?_append_right (bytes_length front ▸ Nat.le_refl _), bytes_length, Nat.sub_self]
  rfl

-- A class of characters in which all of those beyond ASCII are, or none.
def Coarse (accepts : Char → Bool) : Prop := ∀ x c, 128 ≤ x.toNat → 128 ≤ c.toNat → accepts x = accepts c

theorem coarse_of_beyond {accepts : Char → Bool} (value : Bool)
    (same : ∀ c : Char, 128 ≤ c.toNat → accepts c = value) : Coarse accepts :=
  fun x c beyond beyondToo => (same x beyond).trans (same c beyondToo).symm

theorem alike_accepts {accepts : Char → Bool} (coarse : Coarse accepts) {x c : Char} (alike : Alike x c) :
    accepts x = accepts c := by
  obtain rfl | ⟨beyond, beyondToo⟩ := alike
  · rfl
  · exact coarse x c beyond beyondToo

theorem alike_eq {x c : Char} (alike : Alike x c) (ascii : c.toNat < 128) : x = c := by
  obtain same | ⟨-, beyond⟩ := alike
  · exact same
  · omega

theorem alike_iff {P : Char → Prop} (ascii : ∀ c, P c → c.toNat < 128) {x c : Char} (alike : Alike x c) : P x ↔ P c := by
  obtain rfl | ⟨beyond, beyondToo⟩ := alike
  · rfl
  · exact iff_of_false (fun holds => Nat.not_lt_of_le beyond (ascii x holds))
      fun holds => Nat.not_lt_of_le beyondToo (ascii c holds)

theorem lead_all {accepts : Char → Bool} (coarse : Coarse accepts) (text : List Char) :
    (lead text).all accepts = text.head?.all accepts := by
  cases text with
  | nil => rfl
  | cons c more =>
      obtain ⟨x, first, alike⟩ := lead_cons c more
      rw [first, List.head?_cons, Option.all_some, Option.all_some, alike_accepts coarse alike]

theorem lead_any {accepts : Char → Bool} (coarse : Coarse accepts) (text : List Char) :
    (lead text).any accepts = text.head?.any accepts := by
  cases text with
  | nil => rfl
  | cons c more =>
      obtain ⟨x, first, alike⟩ := lead_cons c more
      rw [first, List.head?_cons, Option.any_some, Option.any_some, alike_accepts coarse alike]

end Lead

end ShellLine.Bytewise
