import ShellLine.Config.Json
import ShellLine.Proofs.Json.Written

set_option autoImplicit false

namespace ShellLine

open JsonText
open Json (newLine)

def JsonFields.keys : JsonFields → List (List Char)
  | nil => []
  | cons key _ tail => key :: tail.keys

namespace NamedSettings

def names : List (List Char) := ["max_input_len".toList, "max_depth".toList, "error_style".toList]

variable {named : NamedSettings} {key text rest : List Char}

theorem unknown_field_passed (unknown : key ∉ names) (value : Json) (depth : Nat) :
    readField? named key (' ' :: (value.pretty depth ++ rest)) = some (named, rest) := by
  have noInput : key ≠ "max_input_len".toList := fun same => unknown (by rw [same]; decide)
  have noDepth : key ≠ "max_depth".toList := fun same => unknown (by rw [same]; decide)
  have noStyle : key ≠ "error_style".toList := fun same => unknown (by rw [same]; decide)
  have enough : valueHeight value ≤ 2 * (' ' :: (value.pretty depth ++ rest)).length + 2 := by
    have height := value_height_le value depth
    simp only [List.length_cons, List.length_append]
    omega
  rw [readField?, if_neg noInput, if_neg noDepth, if_neg noStyle, skip_value_blank, value_passed value depth enough]
  rfl

theorem read_fields_line {fuel : Nat} (depth : Nat) (text : List Char) :
    readFields? fuel named (newLine depth ++ text) = readFields? fuel named text := by
  cases fuel with
  | zero => rfl
  | succ fuel => rw [readFields?, readFields?, skip_space_line]

theorem skip_space_quote (key text : List Char) : skipSpace (Json.quote key ++ text) = Json.quote key ++ text :=
  skip_space_at (by decide)

section Fields

variable {more : NamedSettings} {fuel : Nat} {others : List Char}

theorem field_before_comma (field : readField? named key text = some (more, rest))
    (comma : skipSpace rest = ',' :: others) :
    readFields? (fuel + 1) named (Json.quote key ++ ':' :: text) = readFields? fuel more others := by
  have colon : skipLiteral? [':'] (skipSpace (':' :: text)) = some text := rfl
  rw [readFields?, skip_space_quote, quote_read_back]
  simp only [Option.bind_eq_bind, Option.bind_some, colon, field, comma]

theorem last_field (field : readField? named key text = some (more, rest))
    (brace : skipSpace rest = '\x7d' :: others) :
    readFields? (fuel + 1) named (Json.quote key ++ ':' :: text) = some (more, others) := by
  have colon : skipLiteral? [':'] (skipSpace (':' :: text)) = some text := rfl
  rw [readFields?, skip_space_quote, quote_read_back]
  simp only [Option.bind_eq_bind, Option.bind_some, colon, field, brace]

end Fields

theorem read_object_at {inner : List Char} (here : skipSpace inner = Json.quote key ++ text) :
    readObject? ('\x7b' :: inner) = readFields? (inner.length + 1) {} (Json.quote key ++ text) := by
  rw [readObject?, skip_space_at (by decide)]
  simp only [here, quote_chars, List.length_cons]
  rfl

theorem fields_unknown (tail : JsonFields) (key : List Char) (value : Json) (depth outer : Nat) {fuel : Nat}
    (unknown : ∀ name ∈ key :: tail.keys, name ∉ names) (enough : tail.keys.length < fuel) (rest : List Char) :
    readFields? fuel named (Json.quote key ++ ':' :: ' ' ::
      (value.pretty depth ++ (tail.pretty depth ++ (newLine outer ++ '\x7d' :: rest)))) = some (named, rest) := by
  obtain ⟨first, others⟩ := List.forall_mem_cons.mp unknown
  obtain ⟨fuel, rfl⟩ := Nat.exists_eq_add_of_le' (Nat.zero_lt_of_lt enough)
  have field : ∀ rest, readField? named key (' ' :: (value.pretty depth ++ rest)) = some (named, rest) :=
    fun rest => unknown_field_passed first value depth
  cases tail with
  | nil =>
      refine last_field (field _) ?_
      rw [JsonFields.pretty, List.nil_append, skip_space_line, skip_space_at (by decide)]
  | cons next inner more =>
      have fewer : more.keys.length < fuel := Nat.lt_of_succ_lt_succ enough
      simp only [JsonFields.pretty, List.cons_append, List.append_assoc]
      rw [field_before_comma (field _) (skip_space_at (by decide)), read_fields_line]
      exact fields_unknown more next inner depth outer others fewer rest

-- Every field takes up some of the text.
theorem keys_length_le (fields : JsonFields) (depth : Nat) : fields.keys.length ≤ (fields.pretty depth).length := by
  cases fields with
  | nil => exact Nat.zero_le _
  | cons key value tail =>
      have others := keys_length_le tail depth
      simp only [JsonFields.keys, JsonFields.pretty, List.length_cons, List.length_append]
      omega

end NamedSettings

open NamedSettings

/-- Fields that are no settings leave every setting at its default, whatever their values are. -/
theorem Config.unknown_fields_passed_over (fields : JsonFields) (unknown : ∀ name ∈ fields.keys, name ∉ names) :
    Config.ofJson? (Json.object fields).text = some .default := by
  have read : readObject? ((Json.object fields).pretty 0) = some ({}, []) := by
    cases fields with
    | nil => rfl
    | cons key value tail =>
        have shape : (Json.object (.cons key value tail)).pretty 0 = '\x7b' :: (newLine 1 ++ (Json.quote key ++
            ':' :: ' ' :: (value.pretty 1 ++ (tail.pretty 1 ++ (newLine 0 ++ ['\x7d']))))) := by
          simp [Json.pretty]
        have enough : tail.keys.length < ((Json.object (.cons key value tail)).pretty 0).length := by
          have others := keys_length_le tail 1
          simp only [shape, List.length_cons, List.length_append]
          omega
        rw [shape] at enough ⊢
        rw [read_object_at ((skip_space_line _ _).trans (skip_space_quote _ _))]
        exact fields_unknown tail key value 1 0 unknown enough []
  rw [Config.ofJson?, Json.text, String.toList_ofList, read]
  rfl

section Settings

open NamedSettings

variable {named : NamedSettings} {rest : List Char}

theorem limit_read_back {limit : Nat} (fits : limit ≤ Config.largestLimit)
    (ends : ∀ c, rest.head? = some c → c.isDigit = false) :
    readLimit? (Nat.toDigits 10 limit ++ rest) = some (limit, rest) := by
  have solid : skipSpace (Nat.toDigits 10 limit ++ rest) = Nat.toDigits 10 limit ++ rest := by
    obtain ⟨c, others, digits⟩ := List.exists_cons_of_ne_nil (Nat.toDigits_ne_nil (n := limit) (b := 10))
    have digit : c.isDigit = true :=
      Nat.isDigit_of_mem_toDigits (by decide) (by decide) (digits ▸ List.mem_cons_self)
    rw [digits]
    refine skip_space_at (Bool.eq_false_iff.mpr fun blank => ?_)
    simp only [isSpace, Bool.or_eq_true, decide_eq_true_eq] at blank
    rcases blank with ((rfl | rfl) | rfl) | rfl <;> cases digit
  rw [readLimit?, solid, natural_read_back limit ends]
  exact if_pos fits

theorem style_read_back (style : ErrorStyle) :
    readStyle? (Json.quote style.tag.toList ++ rest) = some (style, rest) := by
  cases style <;> rfl

end Settings

def Config.written (config : Config) : List Char :=
  '\x7b' :: (Json.quote "max_input_len".toList ++ ':' :: (Nat.toDigits 10 config.maxInputLength ++
    ',' :: (Json.quote "max_depth".toList ++ ':' :: (Nat.toDigits 10 config.maxDepth ++
      ',' :: (Json.quote "error_style".toList ++ ':' :: (Json.quote config.errorStyle.tag.toList ++ ['\x7d']))))))

open NamedSettings in
/-- Settings that are given are the ones that are read. -/
theorem Config.settings_read_back (config : Config) (fits : config.maxInputLength ≤ largestLimit)
    (shallow : config.maxDepth ≤ largestLimit) : Config.ofJson? (String.ofList config.written) = some config := by
  obtain ⟨input, depth, style⟩ := config
  have comma : ∀ {others : List Char} (c : Char), (',' :: others).head? = some c → c.isDigit = false := by
    rintro others c ⟨⟩
    rfl
  have first : ∀ rest, readField? {} "max_input_len".toList (Nat.toDigits 10 input ++ ',' :: rest) =
      some ({ maxInputLength := some input }, ',' :: rest) := by
    intro rest
    change (readLimit? _).bind _ = _
    rw [limit_read_back fits comma]
    rfl
  have second : ∀ rest, readField? { maxInputLength := some input } "max_depth".toList
      (Nat.toDigits 10 depth ++ ',' :: rest) =
      some ({ maxInputLength := some input, maxDepth := some depth }, ',' :: rest) := by
    intro rest
    change (readLimit? _).bind _ = _
    rw [limit_read_back shallow comma]
    rfl
  have third : readField? { maxInputLength := some input, maxDepth := some depth } "error_style".toList
      (Json.quote style.tag.toList ++ ['\x7d']) = some (⟨some input, some depth, some style⟩, ['\x7d']) := by
    change (readStyle? _).bind _ = _
    rw [style_read_back]
    rfl
  have room : ∀ others : List Char, (Json.quote "max_input_len".toList ++ ':' :: others).length + 1 =
      others.length + 14 + 1 + 1 + 1 := by
    intro others
    rw [Json.quote, List.cons_append, List.length_cons, List.length_append]
    have width : (List.flatMap Json.escapeChar "max_input_len".toList ++ ['"']).length = 14 := by decide
    rw [width, List.length_cons]
    omega
  have read : readObject? (Config.written ⟨input, depth, style⟩) = some (⟨some input, some depth, some style⟩, []) := by
    rw [Config.written, read_object_at (skip_space_quote _ _), room]
    rw [field_before_comma (first _) (skip_space_at (by decide)),
      field_before_comma (second _) (skip_space_at (by decide))]
    exact last_field third (skip_space_at (by decide))
  rw [Config.ofJson?, String.toList_ofList, read]
  rfl

end ShellLine
