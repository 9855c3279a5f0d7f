import ShellLine.Proofs.Grammar.Word

set_option autoImplicit false

namespace ShellLine.Operators

open Grammar

inductive Quote
  | none
  | single
  | double
deriving DecidableEq, Repr

-- What stands out in a text: the start of an expansion, or an operator.
inductive Sign
  | expansion
  | operator (text : List Char)
deriving DecidableEq, Repr

def pairs : List (Char × Char) :=
  [('&', '&'), ('|', '|'), (';', ';'), ('<', '<'), ('<', '&'), ('<', '>'), ('>', '>'), ('>', '&'),
    ('>', '|')]

def singles : List Char := ['&', '|', ';', '<', '>', '(', ')']

def shown (quote : Quote) (c : Char) : List Sign :=
  if c = '$' ∨ c = backtick then [.expansion]
  else if quote = .none ∧ c ∈ singles then [.operator [c]]
  else []

def Quote.after (quote : Quote) (c : Char) : Quote :=
  if c = '"' then if quote = .none then .double else .none
  else if quote = .none ∧ c = '\'' then .single
  else quote

-- What is active in a text: a backslash hides the next character outside single quotes, and quotes
-- hide operators.
def signs : Quote → List Char → List Sign
  | _, [] => []
  | .single, c :: rest => signs (if c = '\'' then .none else .single) rest
  | quote, [c] => shown quote c
  | quote, c :: next :: rest =>
      if c = '\\' then signs quote rest
      else if quote = .none ∧ (c, next) ∈ pairs then .operator [c, next] :: signs .none rest
      else shown quote c ++ signs (quote.after c) (next :: rest)

-- The operators that are taken wherever they stand.
def isFixed : List Char → Bool
  | [a] => a ∈ ['(', ')']
  | [a, b] => (a, b) ∈ pairs
  | _ => false

def isActive (c : Char) : Bool := c ∈ ['$', backtick, '\\', '"', '\''] || c ∈ singles

theorem first_of_pair {c next : Char} (pair : (c, next) ∈ pairs) : c ∈ singles := by
  have every : ∀ pair ∈ pairs, pair.1 ∈ singles := by decide
  exact every (c, next) pair

theorem active_of_single {c : Char} (single : c ∈ singles) : isActive c = true := by
  simp [isActive, single]

theorem not_active_of_word_text {braced : Bool} {c : Char} (plain : isWordBreak braced c = false) :
    isActive c = false := by
  simp_all [isWordBreak, isDelimiter, isActive, singles]

theorem not_active_of_continues {c : Char} (continues : continuesName c = true) :
    isActive c = false := by
  have every : ∀ ch ∈ ['$', backtick, '\\', '"', '\''] ++ singles, continuesName ch = false := by
    decide
  rw [Bool.eq_false_iff]
  intro active
  have member : c ∈ ['$', backtick, '\\', '"', '\''] ++ singles := by
    simpa [isActive, or_assoc] using active
  cases continues.symm.trans (every c member)

section Scan

variable {c : Char} {rest : List Char}

theorem signs_step {quote : Quote} (unquoted : quote ≠ .single) (noEscape : c ≠ '\\')
    (alone : quote = .none → ∀ next, rest.head? = some next → (c, next) ∉ pairs) :
    signs quote (c :: rest) = shown quote c ++ signs (quote.after c) rest := by
  cases rest with
  | nil => cases quote <;> simp_all [signs]
  | cons next others =>
      have noPair : ¬ (quote = .none ∧ (c, next) ∈ pairs) := fun both => alone both.1 next rfl both.2
      rw [signs, if_neg noEscape, if_neg noPair]
      exact unquoted

theorem signs_plain (plain : isActive c = false) : signs .none (c :: rest) = signs .none rest := by
  have noPair : ∀ next, (c, next) ∉ pairs := by
    intro next pair
    cases plain.symm.trans (active_of_single (first_of_pair pair))
  simp only [isActive, Bool.or_eq_false_iff, decide_eq_false_iff_not, List.mem_cons, not_or] at plain
  rw [signs_step (by decide) plain.1.2.2.1 fun _ next _ => noPair next]
  simp [shown, Quote.after, plain]

theorem signs_plain_append {chars : List Char} (plain : ∀ ch ∈ chars, isActive ch = false) :
    signs .none (chars ++ rest) = signs .none rest := by
  induction chars with
  | nil => rfl
  | cons ch others ih =>
      obtain ⟨first, later⟩ := List.forall_mem_cons.mp plain
      rw [List.cons_append, signs_plain first, ih later]

theorem signs_escape {quote : Quote} (unquoted : quote ≠ .single) :
    signs quote ('\\' :: c :: rest) = signs quote rest := by
  rw [signs, if_pos rfl]
  exact unquoted

theorem signs_single {chars : List Char} (closed : '\'' ∉ chars) :
    signs .none ('\'' :: chars ++ '\'' :: rest) = signs .none rest := by
  have inside : signs .single (chars ++ '\'' :: rest) = signs .none rest := by
    induction chars with
    | nil => rfl
    | cons ch others ih =>
        obtain ⟨first, later⟩ := List.ne_and_not_mem_of_not_mem_cons closed
        rw [List.cons_append, signs, if_neg (Ne.symm first), ih later]
  rw [List.cons_append, signs_step (by decide) (by decide) fun _ next _ pair => ?_]
  · exact inside
  · exact absurd (first_of_pair pair) (by decide)

theorem signs_open_double : signs .none ('"' :: rest) = signs .double rest := by
  rw [signs_step (by decide) (by decide) fun _ next _ pair => ?_]
  · rfl
  · exact absurd (first_of_pair pair) (by decide)

theorem signs_close_double : signs .double ('"' :: rest) = signs .none rest := by
  rw [signs_step (by decide) (by decide) fun impossible => by cases impossible]
  rfl

theorem signs_double_plain {chars : List Char} (plain : ∀ ch ∈ chars, isDoubleQuotedText ch = true) :
    signs .double (chars ++ rest) = signs .double rest := by
  induction chars with
  | nil => rfl
  | cons ch others ih =>
      obtain ⟨first, later⟩ := List.forall_mem_cons.mp plain
      simp only [isDoubleQuotedText, decide_eq_true_eq, List.mem_cons, not_or] at first
      rw [List.cons_append, signs_step (by decide) first.2.1 fun impossible => by cases impossible]
      simp [shown, Quote.after, first, ih later]

theorem signs_double_kept
    (other : ∀ ch, rest.head? = some ch → isDoubleQuotedEscape ch = false) :
    signs .double ('\\' :: rest) = signs .double rest := by
  cases rest with
  | nil => rfl
  | cons ch others =>
      have plain : isDoubleQuotedText ch = true := by
        have first := other ch rfl
        simp_all [isDoubleQuotedText, isDoubleQuotedEscape]
      have text : signs .double ([ch] ++ others) = signs .double others :=
        signs_double_plain (List.forall_mem_singleton.mpr plain)
      rw [signs_escape (by decide), ← text]
      rfl

theorem signs_expansion {quote : Quote} (unquoted : quote ≠ .single)
    (starts : c = '$' ∨ c = backtick) : .expansion ∈ signs quote (c :: rest) := by
  have noPair : ∀ next, (c, next) ∉ pairs := by
    intro next pair
    have single := first_of_pair pair
    rcases starts with rfl | rfl <;> exact absurd single (by decide)
  have noEscape : c ≠ '\\' := by
    rcases starts with rfl | rfl <;> decide
  rw [signs_step unquoted noEscape fun _ next _ => noPair next]
  simp [shown, starts]

theorem signs_pair {next : Char} (pair : (c, next) ∈ pairs) :
    signs .none (c :: next :: rest) = .operator [c, next] :: signs .none rest := by
  have noEscape : c ≠ '\\' := by
    rintro rfl
    exact absurd (first_of_pair pair) (by decide)
  rw [signs, if_neg noEscape, if_pos ⟨rfl, pair⟩]
  exact Quote.noConfusion

theorem signs_lone (single : c ∈ singles)
    (alone : ∀ next, rest.head? = some next → (c, next) ∉ pairs) :
    signs .none (c :: rest) = .operator [c] :: signs .none rest := by
  have every : ∀ ch ∈ singles, ch ≠ '\\' ∧ shown .none ch = [.operator [ch]] ∧
      Quote.none.after ch = .none := by decide
  obtain ⟨noEscape, shows, after⟩ := every c single
  rw [signs_step (by decide) noEscape fun _ => alone, shows, after]
  rfl

theorem signs_layout (lines : Bool) (text : List Char) (clean : '#' ∉ text) :
    signs .none (text.drop (layoutLength lines false text)) = signs .none text := by
  generalize plain : false = comment
  fun_induction layoutLength lines comment text with
  | case1 | case3 | case9 => rfl
  | case2 comment rest newline ih =>
      rw [Nat.add_comm, List.drop_succ_cons, ih (List.not_mem_of_not_mem_cons clean) rfl,
        signs_plain (by decide)]
  | case4 => cases plain
  | case5 rest ih | case6 rest ih =>
      rw [Nat.add_comm, List.drop_succ_cons, ih (List.not_mem_of_not_mem_cons clean) rfl,
        signs_plain (by decide)]
  | case7 rest ih => simp at clean
  | case8 rest ih =>
      rw [Nat.add_comm, List.drop_succ_cons, List.drop_succ_cons, ih ?_ rfl, signs_escape (by decide)]
      simpa using clean

end Scan

end ShellLine.Operators
