import ShellLine.Proofs.Operators.Scan

set_option autoImplicit false

namespace ShellLine.Lines

open Grammar Operators

-- A text with its lines joined: outside single quotes, a backslash and the newline that it escapes are
-- taken out.
def joinLines : Quote → List Char → List Char
  | _, [] => []
  | .single, c :: rest => c :: joinLines (if c = '\'' then .none else .single) rest
  | quote, '\\' :: '\n' :: rest => joinLines quote rest
  | quote, '\\' :: c :: rest => '\\' :: c :: joinLines quote rest
  | quote, c :: rest => c :: joinLines (quote.after c) rest

def longOperators : List String :=
  ["&&", "||", ";;", "<<-", "<<", "<&", "<>", ">>", ">&", ">|"]

def behindLayout (text : List Char) : List Char := text.drop (layoutLength false false text)

-- What counts as a whole at the start of a text: reserved words, long operators, a name in front
-- of an equals sign, digits in front of a redirection, a name in front of a parenthesis, and the
-- name that a loop runs over.
structure Opening where
  words : List String
  operators : List String
  assigns : Bool
  describes : Bool
  defines : Bool
  parameter : List Char
deriving DecidableEq

def opening (text : List Char) : Opening where
  words := reservedWords.filter fun word => startsReserved word.toList text
  operators := longOperators.filter fun operator => operator.toList.isPrefixOf text
  assigns := text.head?.any startsName && (text.dropWhile continuesName).head? = some '='
  describes := text.head?.any Char.isDigit &&
    ((text.dropWhile Char.isDigit).head? = some '<' || (text.dropWhile Char.isDigit).head? = some '>')
  defines := text.head?.any startsName &&
    (behindLayout (text.dropWhile continuesName)).head? = some '('
  parameter :=
    if startsReserved "for".toList text then
      (behindLayout (text.drop 3)).takeWhile continuesName
    else []

-- What a word is: a command or something in front of it, an argument, or a word of the head of a loop
-- or choice.
inductive Role
  | command
  | argument
  | head
deriving DecidableEq

-- What is known of a place outside quotes. The target of a redirection may come first.
structure Position where
  role : Role
  target : Bool
deriving DecidableEq

namespace Position

def start : Position := ⟨.command, false⟩

-- Arguments and targets are words, whatever they look like. Digits in front of a redirection are no
-- argument.
def asks (p : Position) (o : Opening) : Opening :=
  if p.role = .argument ∨ p.target then ⟨[], o.operators, false, !p.target && o.describes, false, []⟩
  else o

-- The words behind `<<-` are not told apart.
def behindDelimiter (p : Position) (place : List Char) : Position :=
  match place.head? with
  | some ' ' | some '\t' => p
  | some '<' | some '>' => ⟨if "<<-".toList.isPrefixOf place then .head else p.role, true⟩
  | some '&' | some '|' => if p.target then p else start
  | _ => start

def behindWord (p : Position) (place : List Char) : Position :=
  if p.target then ⟨p.role, false⟩
  else if p.role = .argument then p
  else if "for" ∈ (opening place).words ∨ "case" ∈ (opening place).words then ⟨.head, false⟩
  else if (opening place).words ≠ [] then start
  else if p.role = .head ∨ (opening place).assigns ∨ (opening place).describes then p
  else ⟨.argument, false⟩

-- The position behind the first character of a place.
def behind (p : Position) (fresh : Bool) (place : List Char) : Position :=
  if place.head?.any isDelimiter then p.behindDelimiter place
  else if fresh then p.behindWord place
  else p

end Position

-- The places outside quotes where a token may start: at the beginning if `fresh`, at a delimiter
-- and behind one.
def tokenStarts : Quote → Position → Bool → List Char → List (Position × List Char)
  | _, _, _, [] => []
  | .single, p, _, c :: rest => tokenStarts (if c = '\'' then .none else .single) p false rest
  | quote, p, fresh, '\\' :: '\n' :: rest => tokenStarts quote p fresh rest
  | quote, p, fresh, '\\' :: c :: rest =>
      tokenStarts quote (p.behind fresh ('\\' :: c :: rest)) false rest
  | quote, p, fresh, c :: rest =>
      if quote = .none then
        (if fresh ∨ isDelimiter c then [(p, c :: rest)] else []) ++
          tokenStarts (quote.after c) (p.behind fresh (c :: rest)) (isDelimiter c) rest
      else tokenStarts (quote.after c) p false rest

-- No token changes where lines are joined.
def Uncut (p : Position) (fresh : Bool) (text : List Char) : Prop :=
  ∀ start ∈ tokenStarts .none p fresh text,
    start.1.asks (opening (joinLines .none start.2)) = start.1.asks (opening start.2)

instance (p : Position) (fresh : Bool) (text : List Char) : Decidable (Uncut p fresh text) :=
  inferInstanceAs (Decidable (∀ start ∈ _, _))

example : Uncut .start true "echo i\\\nf >x\\\n=1 2\\\n3".toList := by decide

def isQuote (c : Char) : Bool := c ∈ ['\\', '"', '\'']

section Join

variable {c : Char} {rest : List Char}

theorem after_bare (bare : isQuote c = false) : Quote.none.after c = .none := by
  simp_all [isQuote, Quote.after]

theorem ne_backslash_of_bare (bare : isQuote c = false) : c ≠ '\\' := by
  rintro rfl
  cases bare

theorem join_text {quote : Quote} (unquoted : quote ≠ .single) (text : c ≠ '\\') :
    joinLines quote (c :: rest) = c :: joinLines (quote.after c) rest :=
  joinLines.eq_5 quote c rest (fun _ same => absurd same text) (fun _ _ same => absurd same text)
    unquoted

theorem join_bare (bare : isQuote c = false) :
    joinLines .none (c :: rest) = c :: joinLines .none rest := by
  rw [join_text (by decide) (ne_backslash_of_bare bare), after_bare bare]

theorem join_bare_append {chars : List Char} (bare : ∀ ch ∈ chars, isQuote ch = false) :
    joinLines .none (chars ++ rest) = chars ++ joinLines .none rest := by
  induction chars with
  | nil => rfl
  | cons ch others ih =>
      obtain ⟨first, later⟩ := List.forall_mem_cons.mp bare
      rw [List.cons_append, join_bare first, ih later, List.cons_append]

theorem join_pair {quote : Quote} (unquoted : quote ≠ .single) :
    joinLines quote ('\\' :: '\n' :: rest) = joinLines quote rest :=
  joinLines.eq_3 quote rest unquoted

theorem join_escape {quote : Quote} (unquoted : quote ≠ .single) (sameLine : c ≠ '\n') :
    joinLines quote ('\\' :: c :: rest) = '\\' :: c :: joinLines quote rest :=
  joinLines.eq_4 quote c rest sameLine unquoted

theorem mem_of_mem_join {quote : Quote} {text : List Char} (member : c ∈ joinLines quote text) :
    c ∈ text := by
  fun_induction joinLines quote text <;> grind

theorem head_join {text : List Char} (noPair : ¬ ['\\', '\n'] <+: text) :
    (joinLines .none text).head? = text.head? := by
  generalize unquoted : Quote.none = quote
  fun_cases joinLines quote text with
  | case1 | case2 | case4 | case5 => rfl
  | case3 => exact absurd ⟨_, rfl⟩ noPair

end Join

section Layout

variable {lines : Bool} {text : List Char}

def isBlank (lines : Bool) (c : Char) : Bool := c = ' ' || c = '\t' || lines && c = '\n'

theorem layout_blank {c : Char} {rest : List Char} (blank : isBlank lines c = true) :
    layoutLength lines false (c :: rest) = 1 + layoutLength lines false rest := by
  simp only [isBlank, Bool.or_eq_true, Bool.and_eq_true, decide_eq_true_eq] at blank
  rcases blank with (rfl | rfl) | ⟨rfl, rfl⟩ <;> rfl

theorem idle_iff (clean : '#' ∉ text) : layoutLength lines false text = 0 ↔
    ¬ ['\\', '\n'] <+: text ∧ ∀ c, text.head? = some c → isBlank lines c = false := by
  constructor
  · refine fun idle => ⟨?_, fun c head => ?_⟩
    · rintro ⟨rest, rfl⟩
      simp [layoutLength] at idle
    · obtain ⟨rest, rfl⟩ := List.head?_eq_some_iff.mp head
      cases blank : isBlank lines c with
      | false => rfl
      | true => simp [layout_blank blank] at idle
  · rintro ⟨noPair, noBlank⟩
    generalize plain : false = comment
    fun_cases layoutLength lines comment text <;> simp_all [isBlank]

theorem no_pair_join (noPair : ¬ ['\\', '\n'] <+: text) :
    ¬ ['\\', '\n'] <+: joinLines .none text := by
  generalize unquoted : Quote.none = quote
  fun_cases joinLines quote text with
  | case1 => exact noPair
  | case2 => cases unquoted
  | case3 => exact absurd ⟨_, rfl⟩ noPair
  | case4 _ _ _ sameLine _ => simp_all
  | case5 _ c others _ _ text =>
      rintro ⟨behind, whole⟩
      cases others with
      | nil => simp [joinLines] at whole
      | cons next more => exact text next more (List.cons.inj whole).1.symm rfl

theorem idle_join (clean : '#' ∉ text) (idle : layoutLength lines false text = 0) :
    layoutLength lines false (joinLines .none text) = 0 := by
  obtain ⟨noPair, noBlank⟩ := (idle_iff clean).mp idle
  refine (idle_iff fun member => clean (mem_of_mem_join member)).mpr ⟨no_pair_join noPair, ?_⟩
  rwa [head_join noPair]

theorem join_blank {c : Char} {rest : List Char} (blank : isBlank lines c = true) :
    joinLines .none (c :: rest) = c :: joinLines .none rest := by
  apply join_bare
  simp only [isBlank, Bool.or_eq_true, Bool.and_eq_true, decide_eq_true_eq] at blank
  rcases blank with (rfl | rfl) | ⟨-, rfl⟩ <;> rfl

theorem join_behind_layout (lines : Bool) (clean : '#' ∉ text) :
    (joinLines .none text).drop (layoutLength lines false (joinLines .none text)) =
      joinLines .none (text.drop (layoutLength lines false text)) := by
  have past : ∀ {c : Char} {rest : List Char}, isBlank lines c = true →
      (joinLines .none rest).drop (layoutLength lines false (joinLines .none rest)) =
        joinLines .none (rest.drop (layoutLength lines false rest)) →
      (joinLines .none (c :: rest)).drop (layoutLength lines false (joinLines .none (c :: rest))) =
        joinLines .none ((c :: rest).drop (1 + layoutLength lines false rest)) := by
    intro c rest blank ih
    rw [join_blank blank, layout_blank blank, Nat.add_comm, List.drop_succ_cons, ih, Nat.add_comm,
      List.drop_succ_cons]
  generalize plain : false = comment
  fun_induction layoutLength lines comment text with
  | case1 => rfl
  | case2 _ rest newline ih =>
      subst plain
      exact past (by simp [isBlank, newline]) (ih (List.not_mem_of_not_mem_cons clean) rfl)
  | case4 => cases plain
  | case5 rest ih | case6 rest ih =>
      exact past rfl (ih (List.not_mem_of_not_mem_cons clean) rfl)
  | case7 rest ih => simp at clean
  | case8 rest ih =>
      rw [join_pair (by decide), ih (by simpa using clean) rfl, Nat.add_comm, List.drop_succ_cons,
        List.drop_succ_cons]
  | case3 _ rest oneLine =>
      subst plain
      have idle : layoutLength lines false ('\n' :: rest) = 0 := by simp [layoutLength, oneLine]
      rw [idle_join clean idle, List.drop_zero, List.drop_zero]
  | case9 rest =>
      have idle : layoutLength lines false rest = 0 := by simp_all [layoutLength]
      rw [idle_join clean idle, List.drop_zero, List.drop_zero]

end Layout

section Openings

variable {c : Char} {rest : List Char}

theorem no_text_here {texts : List String}
    (heads : ∀ word ∈ texts, word.toList.head?.any (· ≠ c) = true) (rest : List Char) :
    ∀ word ∈ texts, word.toList.isPrefixOf (c :: rest) = false := by
  intro word member
  have head := heads word member
  cases letters : word.toList with
  | nil => simp [letters] at head
  | cons first others =>
      have other : first ≠ c := by simpa [letters] using head
      simp [List.isPrefixOf, other]

-- At a character that no name, number or reserved word starts with, only operators stand.
theorem opening_operators (noWord : ∀ word ∈ reservedWords, word.toList.head?.any (· ≠ c) = true)
    (noName : startsName c = false) (noDigit : c.isDigit = false) :
    opening (c :: rest) = ⟨[], (opening (c :: rest)).operators, false, false, false, []⟩ := by
  have absent := no_text_here noWord rest
  have noLoop : startsReserved "for".toList (c :: rest) = false := by
    rw [startsReserved, absent "for" (by decide), Bool.false_and]
  rw [opening, noLoop]
  simp only [startsReserved, noName, noDigit, List.head?_cons, Option.any_some, Bool.false_and,
    Opening.mk.injEq, List.filter_eq_nil_iff, true_and]
  simp +contextual [absent]

theorem opening_delimiter (delimiter : isDelimiter c = true) :
    opening (c :: rest) = ⟨[], (opening (c :: rest)).operators, false, false, false, []⟩ := by
  have sorts : ∀ ch ∈ [' ', '\t', '\n', ';', '&', '|', '<', '>', '(', ')'],
      (∀ word ∈ reservedWords, word.toList.head?.any (· ≠ ch) = true) ∧ startsName ch = false ∧
        ch.isDigit = false := by decide
  obtain ⟨noWord, noName, noDigit⟩ := sorts c (by simpa [isDelimiter] using delimiter)
  exact opening_operators noWord noName noDigit

theorem opening_quoting (quoting : isQuote c = true) : opening (c :: rest) = opening [] := by
  have sorts : ∀ ch ∈ ['\\', '"', '\''],
      (∀ word ∈ reservedWords, word.toList.head?.any (· ≠ ch) = true) ∧ startsName ch = false ∧
        ch.isDigit = false ∧ ∀ operator ∈ longOperators, operator.toList.head?.any (· ≠ ch) = true := by
    decide
  obtain ⟨noWord, noName, noDigit, noOperator⟩ := sorts c (by simpa [isQuote] using quoting)
  have operators : (opening (c :: rest)).operators = [] := by
    simp +contextual [opening, no_text_here noOperator rest]
  rw [opening_operators noWord noName noDigit, operators]
  decide

end Openings

section Uncut

variable {p q : Position} {fresh : Bool} {c : Char} {rest text : List Char}

theorem starts_text {quote : Quote} (unquoted : quote ≠ .single) (noEscape : c ≠ '\\') :
    tokenStarts quote p fresh (c :: rest) =
      if quote = .none then
        (if fresh ∨ isDelimiter c then [(p, c :: rest)] else []) ++
          tokenStarts (quote.after c) (p.behind fresh (c :: rest)) (isDelimiter c) rest
      else tokenStarts (quote.after c) p false rest :=
  tokenStarts.eq_5 quote p fresh c rest (fun _ same => absurd same noEscape)
    (fun _ _ same => absurd same noEscape) unquoted

theorem starts_bare (bare : isQuote c = false) :
    tokenStarts .none p fresh (c :: rest) =
      (if fresh ∨ isDelimiter c then [(p, c :: rest)] else []) ++
        tokenStarts .none (p.behind fresh (c :: rest)) (isDelimiter c) rest := by
  rw [starts_text (by decide) (ne_backslash_of_bare bare), after_bare bare, if_pos rfl]

theorem uncut_bare (bare : isQuote c = false) (uncut : Uncut p fresh (c :: rest)) :
    Uncut (p.behind fresh (c :: rest)) (isDelimiter c) rest := by
  rw [Uncut, starts_bare bare] at uncut
  exact fun start member => uncut start (List.mem_append_right _ member)

theorem uncut_here (bare : isQuote c = false) (uncut : Uncut p true (c :: rest)) :
    p.asks (opening (joinLines .none (c :: rest))) = p.asks (opening (c :: rest)) := by
  rw [Uncut, starts_bare bare] at uncut
  exact uncut (p, _) (by simp)

theorem uncut_escape (sameLine : c ≠ '\n') (uncut : Uncut p fresh ('\\' :: c :: rest)) :
    Uncut (p.behind fresh ('\\' :: c :: rest)) false rest := by
  rwa [Uncut, tokenStarts.eq_4 _ _ _ _ _ sameLine (by decide)] at uncut

theorem delimiter_of_blank {lines : Bool} (blank : isBlank lines c = true) : isDelimiter c = true := by
  simp only [isBlank, Bool.or_eq_true, Bool.and_eq_true, decide_eq_true_eq] at blank
  rcases blank with (rfl | rfl) | ⟨-, rfl⟩ <;> rfl

theorem bare_of_accepts {accepts : Char → Bool} (none : ∀ quote ∈ ['\\', '"', '\''], accepts quote = false)
    (accepted : accepts c = true) : isQuote c = false := by
  rw [Bool.eq_false_iff]
  intro quoting
  cases (none c (by simpa [isQuote] using quoting)).symm.trans accepted

theorem plain_of_accepts {accepts : Char → Bool}
    (none : ∀ ch ∈ ['\\', '"', '\'', ' ', '\t', '\n', ';', '&', '|', '<', '>', '(', ')'], accepts ch = false)
    (accepted : accepts c = true) : isQuote c = false ∧ isDelimiter c = false := by
  refine ⟨bare_of_accepts (fun ch quote => none ch ?_) accepted, Bool.eq_false_iff.mpr fun delimiter => ?_⟩
  · exact List.mem_append_left [' ', '\t', '\n', ';', '&', '|', '<', '>', '(', ')'] quote
  · have among : c ∈ [' ', '\t', '\n', ';', '&', '|', '<', '>', '(', ')'] := by
      simpa [isDelimiter] using delimiter
    cases (none c (List.mem_append_right ['\\', '"', '\''] among)).symm.trans accepted

theorem bare_of_delimiter (delimiter : isDelimiter c = true) : isQuote c = false :=
  bare_of_accepts (by decide) delimiter

theorem uncut_delimiter (delimiter : isDelimiter c = true) (uncut : Uncut p fresh (c :: rest)) :
    Uncut (p.behindDelimiter (c :: rest)) true rest := by
  have behind := uncut_bare (bare_of_delimiter delimiter) uncut
  have past : p.behind fresh (c :: rest) = p.behindDelimiter (c :: rest) := if_pos (by simpa using delimiter)
  rwa [past, delimiter] at behind

section Within

-- What is asked at a position that is no more than another is asked at the other too.
def Position.Within (p q : Position) : Prop := p.target = q.target ∧ (p.role = q.role ∨ p.role = .argument)

theorem within_refl (p : Position) : p.Within p := ⟨rfl, Or.inl rfl⟩

theorem argument_within (role : Role) : (Position.mk .argument false).Within ⟨role, false⟩ :=
  ⟨rfl, Or.inr rfl⟩

theorem asks_within {o o' : Opening} (within : p.Within q) (same : q.asks o = q.asks o') :
    p.asks o = p.asks o' := by
  obtain ⟨role, target⟩ := p
  obtain ⟨role', target'⟩ := q
  obtain ⟨rfl, rfl | rfl⟩ := within
  · exact same
  · by_cases asked : role' = .argument ∨ target = true
    · simpa [Position.asks, asked] using same
    · rw [Position.asks, Position.asks, if_neg asked, if_neg asked] at same
      rw [same]

theorem target_behind_word (p : Position) (place : List Char) : (p.behindWord place).target = false := by
  rw [Position.behindWord]
  cases target : p.target with
  | true => rfl
  | false =>
      rw [if_neg Bool.false_ne_true]
      repeat' split
      all_goals first | rfl | exact target

theorem behind_word_role (p : Position) (place : List Char) :
    ∃ role, p.behindWord place = ⟨role, false⟩ := by
  refine ⟨(p.behindWord place).role, ?_⟩
  rw [← target_behind_word p place]

theorem behind_within (within : p.Within q) (fresh : Bool) (place : List Char) :
    (p.behind fresh place).Within (q.behind fresh place) := by
  obtain ⟨role, target⟩ := p
  obtain ⟨role', target'⟩ := q
  obtain ⟨rfl, rfl | rfl⟩ := within
  · exact within_refl _
  · rw [Position.behind, Position.behind]
    split
    · rw [Position.behindDelimiter, Position.behindDelimiter]
      repeat' split
      all_goals first | exact within_refl _ | exact ⟨rfl, Or.inr rfl⟩
    · split
      · cases target with
        | true => exact ⟨rfl, Or.inr rfl⟩
        | false => exact ⟨(target_behind_word _ _).symm, Or.inr rfl⟩
      · exact ⟨rfl, Or.inr rfl⟩

theorem starts_within {quote : Quote} {start : Position × List Char} (within : p.Within q)
    (member : start ∈ tokenStarts quote p fresh text) :
    ∃ other, (other, start.2) ∈ tokenStarts quote q fresh text ∧ start.1.Within other := by
  fun_induction tokenStarts quote p fresh text generalizing q with
  | case1 => cases member
  | case2 p fresh c rest ih => exact ih within member
  | case3 quote p fresh rest unquoted ih =>
      rw [tokenStarts.eq_3 _ _ _ _ unquoted]
      exact ih within member
  | case4 quote p fresh c rest unquoted sameLine ih =>
      rw [tokenStarts.eq_4 _ _ _ _ _ sameLine unquoted]
      exact ih (behind_within within _ _) member
  | case5 p fresh c rest noJoin noEscape unquoted ih =>
      rw [tokenStarts.eq_5 _ _ _ _ _ noJoin noEscape unquoted, if_pos rfl]
      simp only [List.mem_append] at member ⊢
      rcases member with here | later
      · split at here
        · rename_i starts
          obtain rfl := List.mem_singleton.mp here
          exact ⟨q, Or.inl (by simp [starts]), within⟩
        · cases here
      · obtain ⟨other, member, closer⟩ := ih (behind_within within _ _) later
        exact ⟨other, Or.inr member, closer⟩
  | case6 quote p fresh c rest unquoted noJoin noEscape inside ih =>
      rw [tokenStarts.eq_5 _ _ _ _ _ noJoin noEscape unquoted, if_neg inside]
      exact ih within member

theorem uncut_within (within : p.Within q) (uncut : Uncut q fresh text) : Uncut p fresh text := by
  intro start member
  obtain ⟨other, there, closer⟩ := starts_within within member
  exact asks_within closer (uncut _ there)

end Within

section Delimiters

theorem asks_delimiter (delimiter : isDelimiter c = true) (p : Position) :
    p.asks (opening (c :: rest)) = opening (c :: rest) := by
  rw [opening_delimiter delimiter, Position.asks]
  split <;> simp

theorem opening_at_delimiter (delimiter : isDelimiter c = true) (uncut : Uncut p fresh (c :: rest)) :
    opening (joinLines .none (c :: rest)) = opening (c :: rest) := by
  have bare := bare_of_delimiter delimiter
  rw [Uncut, starts_bare bare] at uncut
  have same := uncut (p, c :: rest) (by simp [delimiter])
  rw [join_bare bare] at same ⊢
  rwa [asks_delimiter delimiter, asks_delimiter delimiter] at same

theorem uncut_at_delimiter (delimiter : isDelimiter c = true) (uncut : Uncut p fresh (c :: rest)) :
    Uncut p true (c :: rest) := by
  have past : p.behind true (c :: rest) = p.behind fresh (c :: rest) := by simp [Position.behind, delimiter]
  rw [Uncut, starts_bare (bare_of_delimiter delimiter)] at uncut ⊢
  simpa only [past, delimiter, or_true] using uncut

def separators : List Char := ['\n', ';', '&', '|', '(', ')']

theorem delimiter_of_separator (separates : c ∈ separators) : isDelimiter c = true := by
  have every : ∀ ch ∈ separators, isDelimiter ch = true := by decide
  exact every c separates

theorem behind_separator (separates : c ∈ separators) (role : Role) :
    (Position.mk role false).behindDelimiter (c :: rest) = .start := by
  simp only [separators, List.mem_cons, List.not_mem_nil, or_false] at separates
  rcases separates with rfl | rfl | rfl | rfl | rfl | rfl <;> rfl

theorem uncut_behind_separator {role : Role} (separates : c ∈ separators)
    (uncut : Uncut ⟨role, false⟩ fresh (c :: rest)) : Uncut .start true rest := by
  have behind := uncut_delimiter (delimiter_of_separator separates) uncut
  rwa [behind_separator separates] at behind

-- Whatever stands in front of a separator, a command may start behind it.
theorem uncut_at_separator {role : Role} (separates : c ∈ separators)
    (uncut : Uncut ⟨role, false⟩ fresh (c :: rest)) : Uncut .start true (c :: rest) := by
  have delimiter := delimiter_of_separator separates
  have past : Position.start.behind true (c :: rest) = .start :=
    (if_pos (by simpa using delimiter)).trans (behind_separator separates .command)
  rw [Uncut, starts_bare (bare_of_delimiter delimiter), past, delimiter]
  intro start member
  rcases List.mem_append.mp member with here | later
  · obtain rfl : start = (.start, c :: rest) := by simpa using here
    rw [opening_at_delimiter delimiter uncut]
  · exact uncut_behind_separator separates uncut start later

end Delimiters

section Layout

variable {lines : Bool}

theorem behind_blank (settled : lines = true → p = .start) (blank : isBlank lines c = true) :
    p.behindDelimiter (c :: rest) = p := by
  simp only [isBlank, Bool.or_eq_true, Bool.and_eq_true, decide_eq_true_eq] at blank
  rcases blank with (rfl | rfl) | ⟨crossed, rfl⟩
  · rfl
  · rfl
  · rw [settled crossed]
    rfl

-- Behind blanks and line breaks a token may start. Where only lines are joined, nothing changes.
theorem uncut_behind_layout (settled : lines = true → p = .start) (clean : '#' ∉ text)
    (uncut : Uncut p fresh text) :
    Uncut p true (text.drop (layoutLength lines false text)) ∨
      Uncut p fresh (text.drop (layoutLength lines false text)) ∧
        joinLines .none (text.drop (layoutLength lines false text)) = joinLines .none text := by
  have past : ∀ {c : Char} {rest : List Char} {fresh : Bool}, isBlank lines c = true →
      Uncut p fresh (c :: rest) →
      (∀ {fresh : Bool}, Uncut p fresh rest →
        Uncut p true (rest.drop (layoutLength lines false rest)) ∨
          Uncut p fresh (rest.drop (layoutLength lines false rest)) ∧
            joinLines .none (rest.drop (layoutLength lines false rest)) = joinLines .none rest) →
      Uncut p true ((c :: rest).drop (1 + layoutLength lines false rest)) := by
    intro c rest fresh blank uncut ih
    have behind := uncut_delimiter (delimiter_of_blank blank) uncut
    rw [behind_blank settled blank] at behind
    rw [Nat.add_comm, List.drop_succ_cons]
    exact (ih behind).elim id And.left
  generalize plain : false = comment
  fun_induction layoutLength lines comment text generalizing fresh with
  | case1 => exact Or.inr ⟨uncut, rfl⟩
  | case2 _ rest newline ih =>
      exact Or.inl (past (by simp [isBlank, newline]) uncut fun behind =>
        ih (List.not_mem_of_not_mem_cons clean) behind rfl)
  | case3 => exact Or.inr ⟨uncut, rfl⟩
  | case4 => cases plain
  | case5 rest ih | case6 rest ih =>
      exact Or.inl (past rfl uncut fun behind => ih (List.not_mem_of_not_mem_cons clean) behind rfl)
  | case7 rest ih => simp at clean
  | case8 rest ih =>
      rw [Nat.add_comm, List.drop_succ_cons, List.drop_succ_cons]
      exact ih (by simpa using clean) uncut rfl
  | case9 rest => exact Or.inr ⟨uncut, rfl⟩

end Layout

end Uncut

end ShellLine.Lines
