import ShellLine.Proofs.Grammar.Written
import ShellLine.Proofs.Lines.Join

set_option autoImplicit false

namespace ShellLine.Lines

open ShellLine.Parser Grammar Operators

def singleText : List Char → Option (List Char × List Char)
  | [] => none
  | c :: rest => if c = '\'' then some ([], rest) else (singleText rest).map (Prod.map (c :: ·) id)

def doubleText : List Char → Option (List Char × List Char)
  | [] => none
  | '"' :: rest => some ([], rest)
  | '\\' :: '\n' :: rest => doubleText rest
  | '\\' :: c :: rest =>
      (doubleText rest).map
        (Prod.map ((if isDoubleQuotedEscape c then [c] else ['\\', c]) ++ ·) id)
  | c :: rest => (doubleText rest).map (Prod.map (c :: ·) id)

theorem single_text_passes {chars text rest : List Char} (found : singleText chars = some (text, rest)) :
    ∃ c behind, chars = c :: behind ∧ rest <:+ behind := by
  fun_induction singleText chars generalizing text with
  | case1 => cases found
  | case2 =>
      cases found
      exact ⟨_, _, rfl, List.suffix_refl _⟩
  | case3 c others _ ih =>
      obtain ⟨⟨inner, after⟩, inside, same⟩ := Option.map_eq_some_iff.mp found
      cases same
      obtain ⟨first, behind, rfl, suffix⟩ := ih inside
      exact ⟨c, _, rfl, suffix.trans (List.suffix_cons _ _)⟩

theorem double_text_passes {chars text rest : List Char} (found : doubleText chars = some (text, rest)) :
    ∃ c behind, chars = c :: behind ∧ rest <:+ behind := by
  fun_induction doubleText chars generalizing text with
  | case1 => cases found
  | case2 =>
      cases found
      exact ⟨_, _, rfl, List.suffix_refl _⟩
  | case3 _ ih =>
      obtain ⟨first, behind, rfl, suffix⟩ := ih found
      exact ⟨_, _, rfl, suffix.trans ⟨['\n', first], rfl⟩⟩
  | case4 c _ _ ih =>
      obtain ⟨⟨inner, after⟩, inside, same⟩ := Option.map_eq_some_iff.mp found
      cases same
      obtain ⟨first, behind, rfl, suffix⟩ := ih inside
      exact ⟨_, _, rfl, suffix.trans ⟨[c, first], rfl⟩⟩
  | case5 _ _ _ _ _ ih =>
      obtain ⟨⟨inner, after⟩, inside, same⟩ := Option.map_eq_some_iff.mp found
      cases same
      obtain ⟨first, behind, rfl, suffix⟩ := ih inside
      exact ⟨_, _, rfl, suffix.trans (List.suffix_cons _ _)⟩

theorem shorter_of_passes {chars rest : List Char}
    (passes : ∃ c behind, chars = c :: behind ∧ rest <:+ behind) :
    rest <:+ chars ∧ rest.length < chars.length := by
  obtain ⟨c, behind, rfl, suffix⟩ := passes
  exact ⟨suffix.trans (List.suffix_cons _ _), Nat.lt_succ_of_le suffix.length_le⟩

-- The text of the word at the start of a text, and what follows the word.
def wordText : List Char → List Char × List Char
  | [] => ([], [])
  | '\\' :: '\n' :: rest => wordText rest
  | '\\' :: c :: rest => Prod.map (c :: ·) id (wordText rest)
  | '\'' :: rest =>
      match _found : singleText rest with
      | some (text, after) => Prod.map (text ++ ·) id (wordText after)
      | none => ([], '\'' :: rest)
  | '"' :: rest =>
      match _found : doubleText rest with
      | some (text, after) => Prod.map (text ++ ·) id (wordText after)
      | none => ([], '"' :: rest)
  | c :: rest =>
      if isWordBreak false c then ([], c :: rest) else Prod.map (c :: ·) id (wordText rest)
termination_by text => text.length
decreasing_by
  all_goals simp_wf
  all_goals
    first
      | omega
      | have shorter := (shorter_of_passes (single_text_passes _found)).2; omega
      | have shorter := (shorter_of_passes (double_text_passes _found)).2; omega

section Equations

variable {c : Char} {rest text after : List Char}

theorem word_text_single (found : singleText rest = some (text, after)) :
    wordText ('\'' :: rest) = Prod.map (text ++ ·) id (wordText after) := by
  rw [wordText]
  split
  · rename_i same
    cases found.symm.trans same
    rfl
  · rename_i none
    cases found.symm.trans none

theorem word_text_unclosed_single (unclosed : singleText rest = none) :
    wordText ('\'' :: rest) = ([], '\'' :: rest) := by
  rw [wordText]
  split
  · rename_i found
    cases unclosed.symm.trans found
  · rfl

theorem word_text_double (found : doubleText rest = some (text, after)) :
    wordText ('"' :: rest) = Prod.map (text ++ ·) id (wordText after) := by
  rw [wordText]
  split
  · rename_i same
    cases found.symm.trans same
    rfl
  · rename_i none
    cases found.symm.trans none

theorem word_text_unclosed_double (unclosed : doubleText rest = none) :
    wordText ('"' :: rest) = ([], '"' :: rest) := by
  rw [wordText]
  split
  · rename_i found
    cases unclosed.symm.trans found
  · rfl

theorem not_quoting_of_plain (plain : isWordBreak false c = false) : isQuote c = false := by
  simp_all [isWordBreak, isQuote]

theorem bare_of_ne (noBackslash : c ≠ '\\') (noDouble : c ≠ '"') (noSingle : c ≠ '\'') :
    isQuote c = false := by
  simp [isQuote, noBackslash, noDouble, noSingle]

theorem word_text_bare (bare : isQuote c = false) :
    wordText (c :: rest) =
      if isWordBreak false c then ([], c :: rest) else Prod.map (c :: ·) id (wordText rest) := by
  simp only [isQuote, decide_eq_false_iff_not, List.mem_cons, not_or] at bare
  exact wordText.eq_6 c rest (fun _ same => absurd same bare.1) (fun _ _ same => absurd same bare.1)
    bare.2.2.1 bare.2.1

theorem word_text_lone_backslash : wordText ['\\'] = ([], ['\\']) := by
  simp [wordText, isWordBreak]

end Equations

section Join

theorem single_text_join (text : List Char) : singleText (joinLines .single text) =
    (singleText text).map (Prod.map id (joinLines .none)) := by
  fun_induction singleText text with
  | case1 => rfl
  | case2 rest => simp [joinLines, singleText]
  | case3 c rest other ih =>
      rw [joinLines, if_neg other, singleText, if_neg other, ih, Option.map_map, Option.map_map]
      rfl

theorem double_text_join (text : List Char) : doubleText (joinLines .double text) =
    (doubleText text).map (Prod.map id (joinLines .none)) := by
  fun_induction doubleText text with
  | case1 => rfl
  | case2 rest =>
      rw [join_text (by decide) (by decide)]
      rfl
  | case3 rest ih => rwa [join_pair (by decide)]
  | case4 c rest sameLine ih =>
      rw [join_escape (by decide) sameLine, doubleText.eq_4 _ _ sameLine, ih, Option.map_map,
        Option.map_map]
      rfl
  | case5 c rest noClose noPair noEscape ih =>
      have stays : Quote.double.after c = .double := by
        rw [Quote.after, if_neg noClose]
        rfl
      rw [joinLines.eq_5 _ _ _ noPair noEscape (by decide), stays]
      by_cases backslash : c = '\\'
      · subst backslash
        cases rest with
        | nil => rfl
        | cons next others => exact absurd rfl (noEscape next others rfl)
      · rw [doubleText.eq_5 _ _ noClose (fun _ same => absurd same backslash)
          (fun _ _ same => absurd same backslash), ih, Option.map_map, Option.map_map]
        rfl

theorem join_open_single (rest : List Char) :
    joinLines .none ('\'' :: rest) = '\'' :: joinLines .single rest := join_text (by decide) (by decide)

theorem join_open_double (rest : List Char) :
    joinLines .none ('"' :: rest) = '"' :: joinLines .double rest := join_text (by decide) (by decide)

theorem word_text_join (text : List Char) : wordText (joinLines .none text) =
    Prod.map id (joinLines .none) (wordText text) := by
  fun_induction wordText text with
  | case1 => simp [joinLines, wordText]
  | case2 rest ih => rwa [join_pair (by decide)]
  | case3 c rest sameLine ih =>
      rw [join_escape (by decide) sameLine, wordText.eq_3 _ _ sameLine, ih]
      rfl
  | case4 rest inner after found ih =>
      have joined := single_text_join rest
      rw [found] at joined
      rw [join_open_single, word_text_single joined, ih]
      rfl
  | case5 rest unclosed =>
      have joined := single_text_join rest
      rw [unclosed] at joined
      rw [join_open_single, word_text_unclosed_single joined, ← join_open_single]
      rfl
  | case6 rest inner after found ih =>
      have joined := double_text_join rest
      rw [found] at joined
      rw [join_open_double, word_text_double joined, ih]
      rfl
  | case7 rest unclosed =>
      have joined := double_text_join rest
      rw [unclosed] at joined
      rw [join_open_double, word_text_unclosed_double joined, ← join_open_double]
      rfl
  | case8 c rest _ noEscape noSingle noDouble ends =>
      by_cases backslash : c = '\\'
      · subst backslash
        cases rest with
        | nil => exact word_text_lone_backslash
        | cons next others => exact absurd rfl (noEscape next others rfl)
      · have bare : isQuote c = false := bare_of_ne backslash noDouble noSingle
        rw [join_bare bare, word_text_bare bare, if_pos ends, ← join_bare bare]
        rfl
  | case9 c rest _ _ _ _ plain ih =>
      have bare := not_quoting_of_plain (Bool.eq_false_iff.mpr plain)
      rw [join_bare bare, word_text_bare bare, if_neg plain, ih]
      rfl

end Join

section Rest

variable {p : Position} {fresh : Bool} {c : Char} {text rest : List Char}

theorem behind_inside (inside : isDelimiter c = false) :
    p.behind fresh (c :: rest) = if fresh then p.behindWord (c :: rest) else p :=
  if_neg (by simp [inside])

theorem starts_double {chars inner after : List Char} (found : doubleText chars = some (inner, after)) :
    tokenStarts .double p false chars = tokenStarts .none p false after := by
  fun_induction doubleText chars generalizing inner with
  | case1 => cases found
  | case2 rest =>
      cases found
      rfl
  | case3 rest ih => exact ih found
  | case4 c rest sameLine ih =>
      obtain ⟨⟨inside, behind⟩, here, same⟩ := Option.map_eq_some_iff.mp found
      cases same
      rw [tokenStarts.eq_4 _ _ _ _ _ sameLine (by decide), behind_inside rfl]
      exact ih here
  | case5 c rest noClose noPair noEscape ih =>
      obtain ⟨⟨inside, behind⟩, here, same⟩ := Option.map_eq_some_iff.mp found
      cases same
      have stays : Quote.double.after c = .double := by
        rw [Quote.after, if_neg noClose]
        rfl
      rw [tokenStarts.eq_5 _ _ _ _ _ noPair noEscape (by decide), stays, if_neg (by decide), ih here]

theorem starts_single_text {chars inner after : List Char}
    (found : singleText chars = some (inner, after)) :
    tokenStarts .single p fresh chars = tokenStarts .none p false after := by
  fun_induction singleText chars generalizing fresh inner with
  | case1 => cases found
  | case2 rest =>
      cases found
      rfl
  | case3 c rest other ih =>
      obtain ⟨⟨inside, behind⟩, here, same⟩ := Option.map_eq_some_iff.mp found
      cases same
      rw [tokenStarts, if_neg other, ih here]

-- No token starts in quotes that do not close.
theorem starts_unclosed_double {chars : List Char} (unclosed : doubleText chars = none) :
    tokenStarts .double p false chars = [] := by
  fun_induction doubleText chars with
  | case1 => rfl
  | case2 => cases unclosed
  | case3 rest ih => exact ih unclosed
  | case4 c rest sameLine ih =>
      rw [tokenStarts.eq_4 _ _ _ _ _ sameLine (by decide), behind_inside rfl]
      exact ih (Option.map_eq_none_iff.mp unclosed)
  | case5 c rest noClose noPair noEscape ih =>
      have stays : Quote.double.after c = .double := by
        rw [Quote.after, if_neg noClose]
        rfl
      rw [tokenStarts.eq_5 _ _ _ _ _ noPair noEscape (by decide), stays, if_neg (by decide)]
      exact ih (Option.map_eq_none_iff.mp unclosed)

theorem starts_unclosed_single {chars : List Char} (unclosed : singleText chars = none) :
    tokenStarts .single p fresh chars = [] := by
  fun_induction singleText chars generalizing fresh with
  | case1 => rfl
  | case2 => cases unclosed
  | case3 c rest other ih =>
      rw [tokenStarts, if_neg other]
      exact ih (Option.map_eq_none_iff.mp unclosed)

theorem starts_quote {quote : Char} (opens : quote ≠ '\\') (inside : isDelimiter quote = false) :
    tokenStarts .none p fresh (quote :: rest) =
      (if fresh then [(p, quote :: rest)] else []) ++
        tokenStarts (Quote.none.after quote) (if fresh then p.behindWord (quote :: rest) else p) false rest := by
  rw [starts_text (by decide) opens, if_pos rfl, behind_inside inside, inside]
  simp

theorem uncut_quote {quote : Char} (opens : quote ≠ '\\') (inside : isDelimiter quote = false)
    {behind : List Char} (uncut : Uncut p fresh (quote :: rest))
    (closes : ∀ p, tokenStarts (Quote.none.after quote) p false rest = tokenStarts .none p false behind) :
    Uncut (if fresh then p.behindWord (quote :: rest) else p) false behind := by
  rw [Uncut, starts_quote opens inside, closes] at uncut
  exact fun start member => uncut start (List.mem_append_right _ member)

theorem uncut_char (bare : isQuote c = false) (inside : isDelimiter c = false)
    (uncut : Uncut p fresh (c :: rest)) :
    Uncut (if fresh then p.behindWord (c :: rest) else p) false rest := by
  have behind := uncut_bare bare uncut
  rwa [behind_inside inside, inside] at behind

theorem uncut_inside {chars : List Char}
    (plain : ∀ ch ∈ chars, isQuote ch = false ∧ isDelimiter ch = false)
    (uncut : Uncut p false (chars ++ rest)) : Uncut p false rest := by
  induction chars with
  | nil => exact uncut
  | cons ch others ih =>
      obtain ⟨first, later⟩ := List.forall_mem_cons.mp plain
      exact ih later (uncut_char first.1 first.2 uncut)

theorem uncut_past_text {chars : List Char} (nonempty : chars ≠ [])
    (plain : ∀ ch ∈ chars, isQuote ch = false ∧ isDelimiter ch = false)
    (uncut : Uncut p true (chars ++ rest)) : Uncut (p.behindWord (chars ++ rest)) false rest := by
  obtain ⟨ch, others, rfl⟩ := List.exists_cons_of_ne_nil nonempty
  obtain ⟨first, later⟩ := List.forall_mem_cons.mp plain
  exact uncut_inside later (uncut_char first.1 first.2 uncut)

theorem inside_of_plain (plain : isWordBreak false c = false) : isDelimiter c = false := by
  simp_all [isWordBreak]

theorem uncut_word_inside (uncut : Uncut p false text) : Uncut p false (wordText text).2 := by
  fun_induction wordText text with
  | case1 => exact uncut
  | case2 rest ih => exact ih uncut
  | case3 c rest sameLine ih => exact ih (uncut_escape sameLine uncut)
  | case4 rest inner after found ih =>
      exact ih (uncut_quote (by decide) (by decide) uncut fun _ => starts_single_text found)
  | case6 rest inner after found ih =>
      exact ih (uncut_quote (by decide) (by decide) uncut fun _ => starts_double found)
  | case5 | case7 | case8 => exact uncut
  | case9 c rest _ _ _ _ plain ih =>
      have plain := Bool.eq_false_iff.mpr plain
      exact ih (uncut_char (not_quoting_of_plain plain) (inside_of_plain plain) uncut)

end Rest

end ShellLine.Lines
