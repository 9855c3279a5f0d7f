import Mathlib.Tactic.SplitIfs
import ShellLine.Proofs.Text.Rows
import ShellLine.Text.Quoted

set_option autoImplicit false

namespace ShellLine.Text

section Escapes

variable {chars others rest more : List Char}

def digitValue (c : Char) : Nat := if c.isDigit then c.toNat - 48 else c.toNat - 87

def hexValue (digits : List Char) : Nat := digits.foldl (fun value c => 16 * value + digitValue c) 0

def unescape : List Char → Option (Char × List Char)
  | '\\' :: '0' :: rest => some ('\x00', rest)
  | '\\' :: 't' :: rest => some ('\t', rest)
  | '\\' :: 'r' :: rest => some ('\r', rest)
  | '\\' :: 'n' :: rest => some ('\n', rest)
  | '\\' :: 'u' :: '\x7b' :: rest =>
      some (Char.ofNat (hexValue (rest.takeWhile (· ≠ '\x7d'))), (rest.dropWhile (· ≠ '\x7d')).tail)
  | '\\' :: c :: rest => some (c, rest)
  | c :: rest => some (c, rest)
  | [] => none

theorem mem_hex {c : Char} {n : Nat} (member : c ∈ Nat.toDigits 16 n) : ∃ d < 16, c = Nat.digitChar d := by
  induction n using Nat.strongRecOn with
  | _ n ih =>
      rw [Nat.toDigits_eq_if (by decide)] at member
      split at member
      · exact ⟨n, ‹_›, List.mem_singleton.mp member⟩
      · cases List.mem_append.mp member with
        | inl front => exact ih (n / 16) (by omega) front
        | inr last => exact ⟨n % 16, Nat.mod_lt n (by decide), List.mem_singleton.mp last⟩

theorem hex_value (n : Nat) : hexValue (Nat.toDigits 16 n) = n := by
  have digit : ∀ d < 16, digitValue (Nat.digitChar d) = d := by decide
  induction n using Nat.strongRecOn with
  | _ n ih =>
      rw [Nat.toDigits_eq_if (by decide)]
      split
      · rw [hexValue, List.foldl_cons, List.foldl_nil, digit n ‹_›, Nat.mul_zero, Nat.zero_add]
      · have front := ih (n / 16) (by omega)
        rw [hexValue] at front ⊢
        rw [List.foldl_append, front, List.foldl_cons, List.foldl_nil, digit (n % 16) (Nat.mod_lt n (by decide))]
        omega

theorem unescape_code (c : Char) (rest : List Char) : unescape (escapeCode c ++ rest) = some (c, rest) := by
  have plain : ∀ d ∈ Nat.toDigits 16 c.toNat, decide (d ≠ '\x7d') = true := by
    intro d member
    obtain ⟨value, small, rfl⟩ := mem_hex member
    have brace : ∀ d < 16, Nat.digitChar d ≠ '\x7d' := by decide
    exact decide_eq_true (brace value small)
  have stops : ('\x7d' :: rest).takeWhile (· ≠ '\x7d') = [] := List.takeWhile_cons_of_neg (by decide)
  have digits : (Nat.toDigits 16 c.toNat ++ '\x7d' :: rest).takeWhile (· ≠ '\x7d') = Nat.toDigits 16 c.toNat := by
    rw [List.takeWhile_append_of_pos plain, stops, List.append_nil]
  have behind : (Nat.toDigits 16 c.toNat ++ '\x7d' :: rest).dropWhile (· ≠ '\x7d') = '\x7d' :: rest := by
    rw [List.dropWhile_append_of_pos plain, List.dropWhile_cons_of_neg (by decide)]
  have whole : escapeCode c ++ rest = '\\' :: 'u' :: '\x7b' :: (Nat.toDigits 16 c.toNat ++ '\x7d' :: rest) := by
    simp [escapeCode]
  rw [whole, unescape, digits, behind, hex_value, Char.ofNat_toNat]
  rfl

theorem unescape_plain {c : Char} (plain : c ≠ '\\') (rest : List Char) : unescape (c :: rest) = some (c, rest) := by
  rw [unescape.eq_def]
  split <;> simp_all

theorem unescape_escape (c : Char) (rest : List Char) : unescape (escapeQuoted c ++ rest) = some (c, rest) := by
  rw [escapeQuoted]
  split_ifs with nul tab ret newline mark glyphless
  · rw [nul]
    rfl
  · rw [tab]
    rfl
  · rw [ret]
    rfl
  · rw [newline]
    rfl
  · cases mark with
    | inl backslash =>
        rw [backslash]
        rfl
    | inr quote =>
        rw [quote]
        rfl
  · exact unescape_code c rest
  · exact unescape_plain (not_or.mp mark).1 rest

theorem escape_start (c : Char) : ∃ first more, escapeQuoted c = first :: more ∧ first ≠ '"' := by
  rw [escapeQuoted]
  split_ifs with nul tab ret newline mark glyphless
  · exact ⟨_, _, rfl, by decide⟩
  · exact ⟨_, _, rfl, by decide⟩
  · exact ⟨_, _, rfl, by decide⟩
  · exact ⟨_, _, rfl, by decide⟩
  · exact ⟨_, _, rfl, by decide⟩
  · exact ⟨_, _, rfl, by decide⟩
  · exact ⟨c, [], rfl, (not_or.mp mark).2⟩

end Escapes

section OneLine

theorem hex_one_line (n : Nat) : '\n' ∉ Nat.toDigits 16 n := by
  intro member
  obtain ⟨value, small, same⟩ := mem_hex member
  have newline : ∀ d < 16, '\n' ≠ Nat.digitChar d := by decide
  exact newline value small same

theorem escape_one_line (c : Char) : '\n' ∉ escapeQuoted c := by
  rw [escapeQuoted]
  split_ifs with nul tab ret newline mark glyphless
  · decide
  · decide
  · decide
  · decide
  · simpa using fun same : '\n' = c => newline same.symm
  · simp [escapeCode, hex_one_line]
  · simpa using fun same : '\n' = c => newline same.symm

theorem quote_one_line (chars : List Char) : '\n' ∉ quote chars := by
  simp [quote, escape_one_line]

theorem quote_list_one_line (texts : List String) : '\n' ∉ quoteList texts := by
  cases texts with
  | nil => decide
  | cons first others =>
      rw [quoteList, List.map_cons, intercalate_cons]
      simp [quote_one_line]

end OneLine

section Quotes

variable {chars others rest more : List Char} {texts otherTexts : List String}

theorem quote_injective (same : quote chars ++ rest = quote others ++ more) : chars = others ∧ rest = more := by
  have goesOn : ∀ (c : Char) (rest : List Char), ¬ (escapeQuoted c ++ rest).head? = some '"' := by
    intro c rest closes
    obtain ⟨first, behind, escaped, plain⟩ := escape_start c
    rw [escaped, List.cons_append, List.head?_cons, Option.some.injEq] at closes
    exact plain closes
  simp only [quote, List.cons_append, List.append_assoc, List.cons.injEq, true_and] at same
  obtain ⟨rfl, behind⟩ := row_injective escapeQuoted (·.head? = some '"')
    (fun _ _ => told_of_read unescape_escape) goesOn rfl rfl same
  exact ⟨rfl, (List.cons.inj behind).2⟩

theorem quote_list_injective (same : quoteList texts = quoteList otherTexts) : texts = otherTexts := by
  rw [quoteList, quoteList] at same
  refine intercalate_injective _ (fun text : String => quote text.toList) (fun _ => List.cons_ne_nil _ _) ?_
    (List.append_cancel_right (List.cons.inj same).2)
  intro a b rest more _ _ same
  obtain ⟨texts, behind⟩ := quote_injective same
  exact ⟨String.toList_inj.mp texts, behind⟩

end Quotes

end ShellLine.Text
