import ShellLine.Proofs.Canonical.Syntax
import ShellLine.Proofs.Grammar.Halt
import ShellLine.Proofs.Grammar.Progress

set_option autoImplicit false

namespace ShellLine.Canonical

open ShellLine.Parser Grammar

def place (tokens : List Token) : Cursor := .start (spaced tokens)

def gap : List Token → List Char
  | [] => []
  | tokens => ' ' :: spaced tokens

def Leads (texts : List String) (tokens : List Token) : Prop :=
  ∀ token ∈ tokens.head?, String.ofList token.chars ∈ texts

section Places

variable {token : Token} {more : List Token}

theorem spaced_cons (token : Token) (more : List Token) :
    spaced (token :: more) = token.chars ++ gap more := by
  cases more with
  | nil => simp [spaced, gap]
  | cons second others => simp [spaced, gap, List.intercalate_cons_cons]

@[simp] theorem place_rest (tokens : List Token) : (place tokens).rest = spaced tokens := rfl

theorem token_nonempty (token : Token) : token.chars ≠ [] := by
  intro empty
  have starts := token.starts
  rw [empty] at starts
  cases starts

theorem spaced_head (token : Token) (more : List Token) :
    (spaced (token :: more)).head? = token.chars.head? := by
  rw [spaced_cons, List.head?_append_of_ne_nil _ (token_nonempty token)]

theorem gap_delimited (more : List Token) : (gap more).head?.all isDelimiter = true := by
  cases more <;> rfl

theorem layout_at_token (lines : Bool) (token : Token) (more : List Token)
    (sameLine : lines = false ∨ token.chars.head? ≠ some '\n') :
    layoutLength lines false (spaced (token :: more)) = 0 := by
  have starts := token.starts
  rw [spaced_cons]
  obtain ⟨ch, others, here⟩ := List.exists_cons_of_ne_nil (token_nonempty token)
  rw [here] at starts sameLine ⊢
  simp only [List.head?_cons, Option.any_some, startsToken, decide_eq_true_eq, List.mem_cons,
    List.not_mem_nil, or_false, not_or] at starts
  obtain ⟨noSpace, noTab, noComment, noEscape⟩ := starts
  rw [List.cons_append]
  unfold layoutLength
  split <;> simp_all

theorem layout_at_row (more : List Token) : layoutLength false false (spaced more) = 0 := by
  cases more with
  | nil => rfl
  | cons token others => exact layout_at_token false token others (Or.inl rfl)

theorem past_blanks_gap (more : List Token) : (Cursor.start (gap more)).pastBlanks = place more := by
  cases more with
  | nil => rfl
  | cons token others =>
      have one : layoutLength false false (gap (token :: others)) = 1 := by
        rw [gap, layoutLength, layout_at_row]
        simp
      rw [Cursor.pastBlanks, Cursor.rest_start, one]
      exact Cursor.advance_start_one ' ' _

theorem reads_gap (more : List Token) : blanks.Reads (.start (gap more)) () (place more) :=
  (gives_blanks _ _ ()).mpr (past_blanks_gap more)

theorem past_blanks_place (more : List Token) : (place more).pastBlanks = place more := by
  rw [Cursor.pastBlanks, place_rest, layout_at_row]
  rfl

theorem advance_token (token : Token) (more : List Token) :
    (place (token :: more)).advance token.chars.length = .start (gap more) := by
  rw [place, spaced_cons]
  exact Cursor.advance_start token.chars (gap more)

theorem place_left_lt (token : Token) (more : List Token) :
    (place more).left < (place (token :: more)).left := by
  have passed := past_blanks_left_le (.start (gap more))
  rw [past_blanks_gap] at passed
  have moved : (Cursor.start (gap more)).left < (place (token :: more)).left :=
    Cursor.left_lt_of_passed _ _ token.chars (token_nonempty token) (spaced_cons token more)
  omega

def Bare (token : Token) : Prop := ∀ ch ∈ token.chars, isDelimiter ch = false

theorem solid_start_bare (bare : Bare token) : solidStart (spaced (token :: more)) = token.chars := by
  rw [spaced_cons]
  apply take_while_stops
  · simpa [Bare] using bare
  · intro ch head
    have delimited := gap_delimited more
    rw [head] at delimited
    simpa using delimited

end Places

section Readings

variable {token : Token} {more : List Token}

theorem reads_operator {text : String} (same : token.chars = text.toList) :
    (operator text).Reads (place (token :: more)) () (place more) := by
  rw [Reads, gives_operator]
  refine ⟨?_, ?_⟩
  · rw [place_rest, spaced_cons, same]
    exact List.prefix_append _ _
  · rw [← String.length_toList, ← same, advance_token, past_blanks_gap]

theorem reads_lone {ch : Char} (same : token.chars = [ch]) (noBlank : ch ≠ ' ') :
    (loneOperator ch).Reads (place (token :: more)) () (place more) := by
  rw [Reads, gives_lone_operator]
  refine ⟨⟨?_, ?_⟩, ?_⟩
  · rw [place_rest, spaced_cons, same]
    rfl
  · rw [place_rest, spaced_cons, same]
    cases more with
    | nil => simp [gap]
    | cons second others => simpa [gap] using noBlank.symm
  · have passed := advance_token token more
    rw [same, List.length_singleton] at passed
    rw [passed, past_blanks_gap]

theorem reads_keyword {text : String} (known : text ∈ reservedWords) (same : token.chars = text.toList) :
    (keyword text).Reads (place (token :: more)) () (place more) := by
  rw [Reads, gives_keyword]
  refine ⟨?_, ?_⟩
  · have bare : Bare token := by
      rw [Bare, same]
      exact reserved_words_solid text known
    rw [starts_reserved_iff (reserved_words_solid text known), place_rest, solid_start_bare bare, same,
      String.ofList_toList]
  · rw [← String.length_toList, ← same, advance_token, past_blanks_gap]

theorem reads_name (parameter : Name) (more : List Token) :
    name.Reads (place (parameter.token :: more)) parameter.chars (.start (gap more)) := by
  have taken : (spaced (parameter.token :: more)).takeWhile continuesName = parameter.chars := by
    rw [spaced_cons]
    apply take_while_stops parameter.continues
    intro ch head
    cases more with
    | nil => cases head
    | cons second others =>
        cases head
        rfl
  rw [Reads, gives_name, place_rest, taken]
  refine ⟨?_, rfl, advance_token parameter.token more⟩
  rw [spaced_head]
  exact parameter.starts

theorem word_at_gap {part : Node} (read : (wordPart false).Reads (place (token :: more)) part (.start (gap more))) :
    (call .word).Reads (place (token :: more)) (.ofNodes .word [part]) (place more) := by
  have whole := word_of_part read (rejects_part_at_delimiter (gap_delimited more))
  rwa [past_blanks_gap] at whole

theorem reads_quoted (word : Quoted) (more : List Token) :
    (call .word).Reads (place (word.token :: more)) word.node (place more) := by
  apply word_at_gap
  rw [place, spaced_cons]
  have read := @reads_single false word.text word.closed (gap more)
  simpa [Quoted.token] using read

theorem reads_bare (bare : ∀ ch ∈ token.chars, isWordBreak false ch = false) (more : List Token) :
    (call .word).Reads (place (token :: more)) (.ofNodes .word [.leaf .unquotedLiteral token.chars])
      (place more) := by
  apply word_at_gap
  rw [place, spaced_cons]
  apply reads_plain (token_nonempty token) bare
  intro ch head
  have delimited := gap_delimited more
  rw [head] at delimited
  simpa [isWordBreak] using Or.inl delimited

def SameLine (tokens : List Token) : Prop := (spaced tokens).head? ≠ some '\n'

theorem past_break_place (sameLine : SameLine more) : (place more).pastBreak = place more :=
  if_neg sameLine

theorem reads_same_line (sameLine : SameLine more) : lineBreak.Reads (place more) () (place more) :=
  (gives_line_break _ _ ()).mpr (past_break_place sameLine)

theorem reads_newlines (same : token.chars = ['\n']) (sameLine : SameLine more) :
    newlines.Reads (place (token :: more)) () (place more) := by
  have layout : layoutLength true false (gap more) = (gap more).length - (spaced more).length := by
    cases more with
    | nil => rfl
    | cons second others =>
        have idle := layout_at_token true second others (Or.inr (by rwa [SameLine, spaced_head] at sameLine))
        rw [gap, layoutLength, idle, List.length_cons]
        · omega
        · simp
  have passed : (Cursor.start ('\n' :: gap more)).pastLines = place more := by
    apply Cursor.ext_rest
    rw [Cursor.pastLines, Cursor.rest_advance, Cursor.rest_start, layoutLength, if_pos rfl, layout,
      Nat.add_comm, List.drop_succ_cons]
    cases more with
    | nil => rfl
    | cons second others => simp [gap]
  rw [Reads, gives_newlines, place_rest, place, spaced_cons, same]
  exact ⟨rfl, passed⟩

end Readings

section Rejections

variable {tokens : List Token}

theorem rejects_operator {text : String} (other : text.toList.head? ≠ (spaced tokens).head?)
    (nonempty : text.toList ≠ []) : (operator text).Rejects (place tokens) := by
  rw [Rejects, fails_operator]
  exact fun here => other (head_of_start here nonempty).symm

theorem rejects_lone {ch : Char} (other : ¬ standsAlone ch (spaced tokens)) :
    (loneOperator ch).Rejects (place tokens) := (fails_lone_operator ch _).mpr other

theorem not_alone_of_head {ch : Char} {text : List Char} (other : text.head? ≠ some ch) :
    ¬ standsAlone ch text := fun alone => other alone.1

theorem leads_spaced {texts : List String} (leads : Leads texts tokens) :
    spaced tokens = [] ∨ ∃ text ∈ texts, ∃ first rest others, text.toList = first :: rest ∧
      spaced tokens = first :: rest ++ gap others := by
  cases tokens with
  | nil => exact Or.inl rfl
  | cons token others =>
      obtain ⟨first, rest, chars⟩ := List.exists_cons_of_ne_nil (token_nonempty token)
      refine Or.inr ⟨_, leads token rfl, first, rest, others, ?_, ?_⟩
      · rw [String.toList_ofList, chars]
      · rw [spaced_cons, chars]

theorem leads_head {texts : List String} (leads : Leads texts tokens) :
    (spaced tokens).head? = none ∨ ∃ text ∈ texts, (spaced tokens).head? = text.toList.head? := by
  cases tokens with
  | nil => exact Or.inl rfl
  | cons token others =>
      refine Or.inr ⟨_, leads token rfl, ?_⟩
      rw [spaced_head, String.toList_ofList]

theorem head_ne_of_leads {texts : List String} (leads : Leads texts tokens) {ch : Char}
    (other : ∀ text ∈ texts, text.toList.head? ≠ some ch) : (spaced tokens).head? ≠ some ch := by
  rcases leads_head leads with none | ⟨text, member, same⟩
  · rw [none]
    exact nofun
  · rw [same]
    exact other text member

theorem at_sign_of_leads {texts : List String} (leads : Leads texts tokens)
    (starts : ∀ text ∈ texts, AtSign text.toList) : AtSign (spaced tokens) := by
  rcases leads_head leads with none | ⟨text, member, same⟩
  · rw [AtSign, none]
    rfl
  · rw [AtSign, same]
    exact starts text member

theorem prefix_of_token {text chars : List Char} {others : List Token} (noSpace : ' ' ∉ text)
    (here : text <+: chars ++ gap others) : text <+: chars := by
  rcases List.prefix_or_prefix_of_prefix here (List.prefix_append _ _) with inside | ⟨more, rfl⟩
  · exact inside
  · have behind : more <+: gap others := (List.prefix_append_right_inj chars).mp here
    cases more with
    | nil => simp
    | cons ch rest =>
        have head := head_of_start behind (List.cons_ne_nil _ _)
        cases others with
        | nil => cases head
        | cons token tokens =>
            obtain rfl : ' ' = ch := by simpa [gap] using head
            simp at noSpace

theorem rejects_operator_of_leads {texts : List String} {text : String} (leads : Leads texts tokens)
    (nonempty : text.toList ≠ []) (noSpace : ' ' ∉ text.toList)
    (other : ∀ lead ∈ texts, ¬ text.toList <+: lead.toList) : (operator text).Rejects (place tokens) := by
  rw [Rejects, fails_operator, place_rest]
  intro here
  rcases leads_spaced leads with none | ⟨lead, member, first, rest, others, chars, same⟩
  · rw [none, List.prefix_nil] at here
    exact nonempty here
  · rw [same, ← chars] at here
    exact other lead member (prefix_of_token noSpace here)

theorem rejects_lone_of_leads {texts : List String} {ch : Char} (leads : Leads texts tokens)
    (other : ∀ lead ∈ texts, lead.toList.head? ≠ some ch ∨ lead.toList.take 2 = [ch, ch]) :
    (loneOperator ch).Rejects (place tokens) := by
  apply rejects_lone
  rcases leads_spaced leads with none | ⟨lead, member, first, rest, others, chars, same⟩
  · simp [standsAlone, none]
  · rw [same]
    intro alone
    have each := other lead member
    rw [chars] at each
    rcases each with noHead | doubled
    · exact noHead alone.1
    · cases rest with
      | nil => cases doubled
      | cons second others => simp_all [standsAlone]

theorem bare_of_reserved {token : Token} (reserved : String.ofList token.chars ∈ reservedWords) :
    Bare token := by
  simpa [Bare] using reserved_words_solid _ reserved

theorem rejects_keyword_of_leads {texts : List String} {word : String} (leads : Leads texts tokens)
    (known : word ∈ reservedWords) (other : ∀ lead ∈ texts, lead ∈ reservedWords ∧ lead ≠ word) :
    (keyword word).Rejects (place tokens) := by
  apply rejects_keyword known
  cases tokens with
  | nil =>
      rintro rfl
      exact absurd known (by decide)
  | cons token others =>
      obtain ⟨reserved, different⟩ := other _ (leads token rfl)
      rwa [place_rest, solid_start_bare (bare_of_reserved reserved)]

end Rejections

end ShellLine.Canonical
