import Mathlib.Tactic.SplitIfs
import ShellLine.Json.Reader
import ShellLine.Json.Value

set_option autoImplicit false

namespace ShellLine.JsonText

open Json (escapeChar hexDigits4 newLine)

section Strings

variable {c : Char} {written rest : List Char}

-- How a character of a string is written.
inductive Escaped (c : Char) : List Char → Prop
  | short {sign : Char} (known : shortEscape? sign = some c) : Escaped c ['\\', sign]
  | code (control : c.toNat < 32) :
      Escaped c ['\\', 'u', '0', '0', Nat.digitChar (c.toNat / 16), Nat.digitChar (c.toNat % 16)]
  | plain (noQuote : c ≠ '"') (noBackslash : c ≠ '\\') (printable : 32 ≤ c.toNat) : Escaped c [c]

theorem escape_escaped (c : Char) : Escaped c (escapeChar c) := by
  rw [escapeChar]
  split_ifs with mark backspace feed newline ret tab control
  · rcases mark with rfl | rfl
    · exact .short rfl
    · exact .short rfl
  · exact .short (backspace ▸ rfl)
  · exact .short (feed ▸ rfl)
  · exact .short (newline ▸ rfl)
  · exact .short (ret ▸ rfl)
  · exact .short (tab ▸ rfl)
  · have digits : ∀ code < 32, hexDigits4 code =
        ['0', '0', Nat.digitChar (code / 16), Nat.digitChar (code % 16)] := by decide
    rw [digits c.toNat control]
    exact .code control
  · exact .plain (not_or.mp mark).1 (not_or.mp mark).2 (Nat.le_of_not_lt control)

theorem unit_of_control (control : c.toNat < 32) :
    unit? '0' '0' (Nat.digitChar (c.toNat / 16)) (Nat.digitChar (c.toNat % 16)) = some c.toNat := by
  have every : ∀ code < 32, unit? '0' '0' (Nat.digitChar (code / 16)) (Nat.digitChar (code % 16)) = some code := by
    decide
  exact every c.toNat control

theorem sign_not_unit {sign : Char} (known : shortEscape? sign = some c) : sign ≠ 'u' := by
  rintro rfl
  cases known

theorem split_plain (noQuote : c ≠ '"') (noBackslash : c ≠ '\\') :
    splitString (c :: rest) = (splitString rest).map fun (body, after) => (c :: body, after) := by
  rw [splitString.eq_def]
  split <;> simp_all

theorem split_escaped (escaped : Escaped c written) : splitString (written ++ rest) =
    (splitString rest).map fun (body, after) => (written ++ body, after) := by
  cases escaped with
  | short => rfl
  | code control =>
      have digit : ∀ d < 16, Nat.digitChar d ≠ '"' ∧ Nat.digitChar d ≠ '\\' := by decide
      obtain ⟨highQuote, highBackslash⟩ := digit (c.toNat / 16) (by omega)
      obtain ⟨lowQuote, lowBackslash⟩ := digit (c.toNat % 16) (Nat.mod_lt _ (by decide))
      simp only [List.cons_append, List.nil_append]
      rw [splitString, split_plain (by decide) (by decide), split_plain (by decide) (by decide),
        split_plain highQuote highBackslash, split_plain lowQuote lowBackslash]
      simp only [Option.map_map]
      rfl
  | plain noQuote noBackslash => exact split_plain noQuote noBackslash

theorem decode_escaped (escaped : Escaped c written) :
    decodeBody? (written ++ rest) = (decodeBody? rest).map (c :: ·) := by
  cases escaped with
  | short known =>
      have noUnit := sign_not_unit known
      simp only [List.cons_append, List.nil_append]
      rw [decodeBody?.eq_3 _ _ (fun _ _ _ _ _ unit => absurd unit noUnit), known]
  | code control =>
      have noHigh : isHighSurrogate c.toNat = false := by simp [isHighSurrogate]; omega
      have noLow : isLowSurrogate c.toNat = false := by simp [isLowSurrogate]; omega
      simp only [List.cons_append, List.nil_append]
      rw [decodeBody?, unit_of_control control]
      simp only [noHigh, noLow, Bool.false_eq_true, if_false, Char.ofNat_toNat]
  | plain noQuote noBackslash printable =>
      rw [List.singleton_append, decodeBody?.eq_def]
      split <;> simp_all [Nat.not_lt.mpr]

theorem body_of_escaped (escaped : Escaped c written) : isStringBody (written ++ rest) = isStringBody rest := by
  cases escaped with
  | short known =>
      have noUnit := sign_not_unit known
      simp only [List.cons_append, List.nil_append]
      rw [isStringBody.eq_3 _ _ (fun _ _ _ _ _ unit => absurd unit noUnit), known]
      rfl
  | code control =>
      simp only [List.cons_append, List.nil_append]
      rw [isStringBody, unit_of_control control]
      rfl
  | plain noQuote noBackslash printable =>
      rw [List.singleton_append, isStringBody.eq_def]
      split <;> simp_all

variable (chars rest : List Char)

theorem split_quoted : splitString (chars.flatMap escapeChar ++ '"' :: rest) =
    some (chars.flatMap escapeChar, rest) := by
  induction chars with
  | nil => rfl
  | cons c others ih =>
      rw [List.flatMap_cons, List.append_assoc, split_escaped (escape_escaped c), ih]
      rfl

theorem decode_quoted : decodeBody? (chars.flatMap escapeChar) = some chars := by
  induction chars with
  | nil => rfl
  | cons c others ih =>
      rw [List.flatMap_cons, decode_escaped (escape_escaped c), ih]
      rfl

theorem body_quoted : isStringBody (chars.flatMap escapeChar) = true := by
  induction chars with
  | nil => rfl
  | cons c others ih => rw [List.flatMap_cons, body_of_escaped (escape_escaped c), ih]

theorem quote_chars : Json.quote chars ++ rest = '"' :: (chars.flatMap escapeChar ++ '"' :: rest) := by
  simp [Json.quote]

/-- A written string is read back. -/
theorem quote_read_back : readString? (Json.quote chars ++ rest) = some (chars, rest) := by
  rw [quote_chars, readString?, split_quoted]
  change (decodeBody? (chars.flatMap escapeChar) >>= fun text => some (text, rest)) = _
  rw [decode_quoted]
  rfl

theorem quote_skipped : skipString? (chars.flatMap escapeChar ++ '"' :: rest) = some rest := by
  rw [skipString?, split_quoted]
  exact if_pos (body_quoted chars)

end Strings

section Naturals

variable {n : Nat} {rest : List Char}

theorem no_leading_zero (positive : n ≠ 0) : (Nat.toDigits 10 n).head? ≠ some '0' := by
  induction n using Nat.strongRecOn with
  | _ n ih =>
      rw [Nat.toDigits_eq_if (by decide)]
      split
      · have every : ∀ d < 10, d ≠ 0 → Nat.digitChar d ≠ '0' := by decide
        exact fun same => every n ‹_› positive (Option.some.inj same)
      · have first := ih (n / 10) (by omega) (by omega)
        obtain ⟨c, others, digits⟩ := List.exists_cons_of_ne_nil (Nat.toDigits_ne_nil (n := n / 10) (b := 10))
        rw [digits] at first ⊢
        exact first

theorem natural_read_back (n : Nat) (ends : ∀ c, rest.head? = some c → c.isDigit = false) :
    readNatural? (Nat.toDigits 10 n ++ rest) = some (n, rest) := by
  have digits : ∀ c ∈ Nat.toDigits 10 n, c.isDigit = true := fun c =>
    Nat.isDigit_of_mem_toDigits (by decide) (by decide)
  have stops : rest.takeWhile Char.isDigit = [] := by
    cases rest with
    | nil => rfl
    | cons c others => exact List.takeWhile_cons_of_neg (Bool.eq_false_iff.mp (ends c rfl))
  have run : (Nat.toDigits 10 n ++ rest).takeWhile Char.isDigit = Nat.toDigits 10 n := by
    rw [List.takeWhile_append_of_pos digits, stops, List.append_nil]
  have whole : ¬ (Nat.toDigits 10 n = [] ∨ (Nat.toDigits 10 n).head? = some '0' ∧ Nat.toDigits 10 n ≠ ['0']) := by
    rintro (empty | ⟨zero, other⟩)
    · exact Nat.toDigits_ne_nil empty
    · by_cases positive : n = 0
      · exact other (positive ▸ rfl)
      · exact no_leading_zero positive zero
  rw [readNatural?, readDigits?, run]
  simp only [if_neg whole, Option.bind_eq_bind, Option.bind_some, List.drop_left]
  exact congrArg (fun value => some (value, rest)) Nat.ofDigitChars_ten_toDigits

end Naturals

section Heights

mutual
-- The calls that nest when a value is passed over.
def valueHeight : Json → Nat
  | .null | .string _ => 1
  | .array items => itemsHeight items + 1
  | .object fields => fieldsHeight fields + 1
def itemsHeight : JsonItems → Nat
  | .nil => 0
  | .cons head tail => max (valueHeight head) (itemsHeight tail) + 1
def fieldsHeight : JsonFields → Nat
  | .nil => 0
  | .cons _ value tail => max (valueHeight value) (fieldsHeight tail) + 1
end

mutual
theorem value_height_le (value : Json) (depth : Nat) : valueHeight value ≤ 2 * (value.pretty depth).length := by
  cases value with
  | null => simp [valueHeight, Json.pretty]
  | string chars => simp [valueHeight, Json.pretty, Json.quote]; omega
  | array items =>
      cases items with
      | nil => simp [valueHeight, itemsHeight, Json.pretty]
      | cons head tail =>
          have first := value_height_le head (depth + 1)
          have others := items_height_le tail (depth + 1)
          simp only [valueHeight, itemsHeight, Json.pretty, List.length_append, List.length_cons]
          omega
  | object fields =>
      cases fields with
      | nil => simp [valueHeight, fieldsHeight, Json.pretty]
      | cons key value tail =>
          have first := value_height_le value (depth + 1)
          have others := fields_height_le tail (depth + 1)
          simp only [valueHeight, fieldsHeight, Json.pretty, List.length_append, List.length_cons]
          omega
theorem items_height_le (items : JsonItems) (depth : Nat) : itemsHeight items ≤ 2 * (items.pretty depth).length := by
  cases items with
  | nil => exact Nat.zero_le _
  | cons head tail =>
      have first := value_height_le head depth
      have others := items_height_le tail depth
      simp only [itemsHeight, JsonItems.pretty, List.length_append, List.length_cons]
      omega
theorem fields_height_le (fields : JsonFields) (depth : Nat) : fieldsHeight fields ≤ 2 * (fields.pretty depth).length := by
  cases fields with
  | nil => exact Nat.zero_le _
  | cons key value tail =>
      have first := value_height_le value depth
      have others := fields_height_le tail depth
      simp only [fieldsHeight, JsonFields.pretty, List.length_append, List.length_cons]
      omega
end

end Heights

section Values

def isSpace (c : Char) : Bool := c = ' ' || c = '\n' || c = '\t' || c = '\r'

variable {c : Char} {text rest : List Char} {fuel depth outer : Nat}

theorem skip_space_line (depth : Nat) (text : List Char) : skipSpace (newLine depth ++ text) = skipSpace text := by
  refine List.dropWhile_append_of_pos fun c member => ?_
  rcases List.mem_cons.mp member with rfl | blank
  · rfl
  · rw [List.eq_of_mem_replicate blank]
    rfl

theorem skip_space_at (solid : isSpace c = false) : skipSpace (c :: text) = c :: text :=
  List.dropWhile_cons_of_neg (Bool.eq_false_iff.mp solid)

theorem pretty_start (value : Json) (depth : Nat) :
    ∃ first more, value.pretty depth = first :: more ∧ first ∈ ['n', '"', '[', '\x7b'] := by
  cases value with
  | null => exact ⟨_, _, rfl, by decide⟩
  | string => exact ⟨_, _, rfl, by decide⟩
  | array items => cases items <;> exact ⟨_, _, rfl, by decide⟩
  | object fields => cases fields <;> exact ⟨_, _, rfl, by decide⟩

theorem skip_value_line (depth : Nat) (text : List Char) : skipValue? fuel (newLine depth ++ text) = skipValue? fuel text := by
  cases fuel with
  | zero => rfl
  | succ fuel => rw [skipValue?, skipValue?, skip_space_line]

theorem skip_value_blank (text : List Char) : skipValue? fuel (' ' :: text) = skipValue? fuel text := by
  cases fuel with
  | zero => rfl
  | succ fuel => rfl

theorem skip_members_line (depth : Nat) (text : List Char) : skipMembers? fuel (newLine depth ++ text) = skipMembers? fuel text := by
  cases fuel with
  | zero => rfl
  | succ fuel => rw [skipMembers?, skipMembers?, skip_space_line]

-- What is passed over behind an item and behind a field.
def behindItem? (fuel : Nat) (text : List Char) : Option (List Char) :=
  match skipSpace text with
  | ',' :: items => skipItems? fuel items
  | ']' :: after => some after
  | _ => none

def behindField? (fuel : Nat) (text : List Char) : Option (List Char) :=
  match skipSpace text with
  | ',' :: members => skipMembers? fuel members
  | '\x7d' :: after => some after
  | _ => none

theorem skip_items (passed : skipValue? fuel text = some rest) : skipItems? (fuel + 1) text = behindItem? fuel rest := by
  rw [skipItems?, passed]
  rfl

theorem skip_members {key value : List Char} (passed : skipValue? fuel value = some rest) :
    skipMembers? (fuel + 1) (Json.quote key ++ ':' :: value) = behindField? fuel rest := by
  rw [quote_chars, skipMembers?, skip_space_at (by decide)]
  simp only [quote_skipped, Option.map_some]
  rw [skip_space_at (by decide)]
  simp only [passed, Option.map_some]
  rw [behindField?]
  split <;> split <;> simp_all

theorem skip_array (head : Json) (depth : Nat) (text : List Char) :
    skipValue? (fuel + 1) ('[' :: (newLine depth ++ (head.pretty depth ++ text))) =
      skipItems? fuel (head.pretty depth ++ text) := by
  obtain ⟨first, more, start, among⟩ := pretty_start head depth
  have solid : isSpace first = false := by
    have none : ['n', '"', '[', '\x7b'].any isSpace = false := by decide
    exact Bool.not_eq_true _ ▸ List.any_eq_false.mp none first among
  rw [skipValue?, skip_space_at (by decide)]
  simp only [skip_space_line, start, List.cons_append, skip_space_at solid]
  split
  · rename_i same
    obtain ⟨rfl, -⟩ := List.cons.inj same
    exact absurd among (by decide)
  · rfl

theorem skip_object (key : List Char) (depth : Nat) (text : List Char) :
    skipValue? (fuel + 1) ('\x7b' :: (newLine depth ++ (Json.quote key ++ text))) =
      skipMembers? fuel (Json.quote key ++ text) := by
  rw [skipValue?, skip_space_at (by decide)]
  simp only [skip_space_line, quote_chars, skip_space_at (show isSpace '"' = false by decide)]
  rfl

mutual
theorem value_passed (value : Json) (depth : Nat) {fuel : Nat} (enough : valueHeight value ≤ fuel) (rest : List Char) :
    skipValue? fuel (value.pretty depth ++ rest) = some rest := by
  obtain ⟨fuel, rfl⟩ : ∃ less, fuel = less + 1 := by
    refine Nat.exists_eq_add_one.mpr (Nat.lt_of_lt_of_le ?_ enough)
    cases value <;> simp [valueHeight]
  cases value with
  | null => rfl
  | string chars =>
      rw [Json.pretty, quote_chars, skipValue?, skip_space_at (by decide)]
      exact quote_skipped chars rest
  | array items =>
      cases items with
      | nil => rfl
      | cons head tail =>
          obtain ⟨less, rfl⟩ := Nat.exists_eq_add_of_le' (Nat.le_of_succ_le_succ enough)
          have room := Nat.le_add_left (max (valueHeight head) (itemsHeight tail)) less
          have first := value_passed head (depth + 1) (Nat.le_trans (Nat.le_max_left ..) room)
            (tail.pretty (depth + 1) ++ (newLine depth ++ ']' :: rest))
          rw [Json.pretty]
          simp only [List.cons_append, List.append_assoc, List.nil_append]
          rw [skip_array]
          exact (skip_items first).trans
            (items_passed tail (depth + 1) depth (Nat.le_trans (Nat.le_max_right ..) room) rest)
  | object fields =>
      cases fields with
      | nil => rfl
      | cons key value tail =>
          obtain ⟨less, rfl⟩ := Nat.exists_eq_add_of_le' (Nat.le_of_succ_le_succ enough)
          have room := Nat.le_add_left (max (valueHeight value) (fieldsHeight tail)) less
          have first := value_passed value (depth + 1) (Nat.le_trans (Nat.le_max_left ..) room)
            (tail.pretty (depth + 1) ++ (newLine depth ++ '\x7d' :: rest))
          rw [Json.pretty]
          simp only [List.cons_append, List.append_assoc, List.nil_append]
          rw [skip_object]
          exact (skip_members ((skip_value_blank _).trans first)).trans
            (fields_passed tail (depth + 1) depth (Nat.le_trans (Nat.le_max_right ..) room) rest)
theorem items_passed (items : JsonItems) (depth outer : Nat) {fuel : Nat} (enough : itemsHeight items ≤ fuel)
    (rest : List Char) :
    behindItem? fuel (items.pretty depth ++ (newLine outer ++ ']' :: rest)) = some rest := by
  cases items with
  | nil => simp only [JsonItems.pretty, List.nil_append, behindItem?, skip_space_line, skip_space_at (show isSpace ']' = false by decide)]
  | cons head tail =>
      obtain ⟨less, rfl⟩ := Nat.exists_eq_add_of_le' enough
      have room := Nat.le_add_left (max (valueHeight head) (itemsHeight tail)) less
      have first := value_passed head depth (Nat.le_trans (Nat.le_max_left ..) room)
        (tail.pretty depth ++ (newLine outer ++ ']' :: rest))
      rw [← skip_value_line depth] at first
      simp only [JsonItems.pretty, List.cons_append, List.append_assoc, behindItem?,
        skip_space_at (show isSpace ',' = false by decide)]
      exact (skip_items first).trans (items_passed tail depth outer (Nat.le_trans (Nat.le_max_right ..) room) rest)
theorem fields_passed (fields : JsonFields) (depth outer : Nat) {fuel : Nat} (enough : fieldsHeight fields ≤ fuel)
    (rest : List Char) :
    behindField? fuel (fields.pretty depth ++ (newLine outer ++ '\x7d' :: rest)) = some rest := by
  cases fields with
  | nil => simp only [JsonFields.pretty, List.nil_append, behindField?, skip_space_line, skip_space_at (show isSpace '\x7d' = false by decide)]
  | cons key value tail =>
      obtain ⟨less, rfl⟩ := Nat.exists_eq_add_of_le' enough
      have room := Nat.le_add_left (max (valueHeight value) (fieldsHeight tail)) less
      have first := value_passed value depth (Nat.le_trans (Nat.le_max_left ..) room)
        (tail.pretty depth ++ (newLine outer ++ '\x7d' :: rest))
      simp only [JsonFields.pretty, List.cons_append, List.append_assoc, behindField?,
        skip_space_at (show isSpace ',' = false by decide)]
      rw [skip_members_line]
      exact (skip_members ((skip_value_blank _).trans first)).trans
        (fields_passed tail depth outer (Nat.le_trans (Nat.le_max_right ..) room) rest)
end

end Values

end ShellLine.JsonText
