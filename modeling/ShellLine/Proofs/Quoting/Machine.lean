import ShellLine.Proofs.Grammar.Word

set_option autoImplicit false

namespace ShellLine.Quoting

open Grammar

-- Where the machine stands: between tokens, behind a backslash there, in a comment, or in a
-- token, of which it carries the text so far.
inductive Phase
  | between
  | joining
  | comment
  | bare (token : List Char)
  | escape (token : List Char)
  | single (token : List Char)
  | double (token : List Char)
  | doubleEscape (token : List Char)
deriving DecidableEq, Repr

structure Scan where
  tokens : List (List Char)
  phase : Phase
deriving DecidableEq, Repr

def isGap (c : Char) : Bool := c ∈ [' ', '\t', '\n', ';']

def bareStep (token : List Char) (c : Char) : Phase :=
  if c = '\'' then .single token
  else if c = '"' then .double token
  else if c = '\\' then .escape token
  else .bare (token ++ [c])

def doubleEscapeStep (token : List Char) (c : Char) : List Char :=
  if c = '\n' then token
  else if isDoubleQuotedEscape c then token ++ [c]
  else token ++ ['\\', c]

def Scan.step (s : Scan) (c : Char) : Scan :=
  match s.phase with
  | .between =>
      if isGap c then s
      else if c = '#' then ⟨s.tokens, .comment⟩
      else if c = '\\' then ⟨s.tokens, .joining⟩
      else ⟨s.tokens, bareStep [] c⟩
  | .joining => ⟨s.tokens, if c = '\n' then .between else .bare [c]⟩
  | .comment => ⟨s.tokens, if c = '\n' then .between else .comment⟩
  | .bare token =>
      if isGap c then ⟨s.tokens ++ [token], .between⟩ else ⟨s.tokens, bareStep token c⟩
  | .escape token => ⟨s.tokens, .bare (if c = '\n' then token else token ++ [c])⟩
  | .single token => ⟨s.tokens, if c = '\'' then .bare token else .single (token ++ [c])⟩
  | .double token =>
      ⟨s.tokens, if c = '"' then .bare token
        else if c = '\\' then .doubleEscape token
        else .double (token ++ [c])⟩
  | .doubleEscape token => ⟨s.tokens, .double (doubleEscapeStep token c)⟩

-- The tokens at the end of the text, which ends the last one.
def Scan.finish (s : Scan) : List (List Char) :=
  match s.phase with
  | .between | .comment => s.tokens
  | .joining => s.tokens ++ [['\\']]
  | .bare token | .single token | .double token => s.tokens ++ [token]
  | .escape token | .doubleEscape token => s.tokens ++ [token ++ ['\\']]

def Scan.run (s : Scan) (text : List Char) : List (List Char) := (text.foldl step s).finish

-- The tokens of a text with their quotes removed.
def tokens (text : List Char) : List (List Char) := Scan.run ⟨[], .between⟩ text

namespace Scan

theorem run_cons (s : Scan) (c : Char) (text : List Char) : s.run (c :: text) = (s.step c).run text :=
  rfl

section Runs

variable {finished : List (List Char)}

theorem step_plain (token : List Char) {c : Char} (plain : isWordBreak false c = false) :
    step ⟨finished, .bare token⟩ c = ⟨finished, .bare (token ++ [c])⟩ := by
  have noGap : isGap c = false := by
    simp_all [isWordBreak, isDelimiter, isGap]
  have noQuote : c ≠ '\'' ∧ c ≠ '"' ∧ c ≠ '\\' := by
    refine ⟨?_, ?_, ?_⟩ <;> rintro rfl <;> exact absurd plain (by decide)
  simp [step, bareStep, noGap, noQuote]

theorem run_plain (token : List Char) {chars : List Char}
    (plain : ∀ c ∈ chars, isWordBreak false c = false) (rest : List Char) :
    run ⟨finished, .bare token⟩ (chars ++ rest) = run ⟨finished, .bare (token ++ chars)⟩ rest := by
  induction chars generalizing token with
  | nil => rw [List.append_nil, List.nil_append]
  | cons c others ih =>
      obtain ⟨first, later⟩ := List.forall_mem_cons.mp plain
      rw [List.cons_append, run_cons, step_plain token first, ih _ later, List.append_assoc]
      rfl

theorem run_single (token : List Char) {chars : List Char} (closed : '\'' ∉ chars)
    (rest : List Char) :
    run ⟨finished, .single token⟩ (chars ++ '\'' :: rest) =
      run ⟨finished, .bare (token ++ chars)⟩ rest := by
  induction chars generalizing token with
  | nil => simp [run_cons, step]
  | cons c others ih =>
      obtain ⟨first, later⟩ := List.ne_and_not_mem_of_not_mem_cons closed
      have copied : step ⟨finished, .single token⟩ c = ⟨finished, .single (token ++ [c])⟩ := by
        simp [step, Ne.symm first]
      rw [List.cons_append, run_cons, copied, ih _ later, List.append_assoc]
      rfl

theorem run_double_text (token : List Char) {chars : List Char}
    (plain : ∀ c ∈ chars, isDoubleQuotedText c = true) (rest : List Char) :
    run ⟨finished, .double token⟩ (chars ++ rest) =
      run ⟨finished, .double (token ++ chars)⟩ rest := by
  induction chars generalizing token with
  | nil => rw [List.append_nil, List.nil_append]
  | cons c others ih =>
      obtain ⟨first, later⟩ := List.forall_mem_cons.mp plain
      have noQuote : c ≠ '"' ∧ c ≠ '\\' := by
        constructor <;> rintro rfl <;> exact absurd first (by decide)
      have copied : step ⟨finished, .double token⟩ c = ⟨finished, .double (token ++ [c])⟩ := by
        simp [step, noQuote]
      rw [List.cons_append, run_cons, copied, ih _ later, List.append_assoc]
      rfl

theorem run_kept (token : List Char) {rest : List Char}
    (other : ∀ c, rest.head? = some c → isDoubleQuotedEscape c = false ∧ c ≠ '\n') :
    run ⟨finished, .doubleEscape token⟩ rest = run ⟨finished, .double (token ++ ['\\'])⟩ rest := by
  cases rest with
  | nil => rfl
  | cons c others =>
      obtain ⟨kept, sameLine⟩ := other c rfl
      have noQuote : c ≠ '"' ∧ c ≠ '\\' := by
        constructor <;> rintro rfl <;> exact absurd kept (by decide)
      simp [run_cons, step, doubleEscapeStep, kept, sameLine, noQuote]

theorem run_layout (lines comment : Bool) (text : List Char) :
    run ⟨finished, if comment then .comment else .between⟩ text =
      run ⟨finished, .between⟩ (text.drop (layoutLength lines comment text)) := by
  fun_induction layoutLength lines comment text with
  | case1 comment => cases comment <;> rfl
  | case2 comment rest _ ih =>
      rw [Nat.add_comm, List.drop_succ_cons, ← ih]
      cases comment <;> rfl
  | case3 comment rest _ => cases comment <;> rfl
  | case4 c rest notNewline ih =>
      rw [Nat.add_comm, List.drop_succ_cons, ← ih]
      have sameLine : c ≠ '\n' := notNewline
      simp [run_cons, step, sameLine]
  | case5 rest ih | case6 rest ih | case7 rest ih =>
      rw [Nat.add_comm, List.drop_succ_cons, ← ih]
      rfl
  | case8 rest ih =>
      rw [Nat.add_comm, List.drop_succ_cons, List.drop_succ_cons, ← ih]
      rfl
  | case9 => rfl

theorem run_past_blanks (c : Cursor) :
    run ⟨finished, .between⟩ c.rest = run ⟨finished, .between⟩ c.pastBlanks.rest := by
  rw [Cursor.pastBlanks, Cursor.rest_advance]
  exact run_layout false false c.rest

theorem run_past_break (c : Cursor) :
    run ⟨finished, .between⟩ c.rest = run ⟨finished, .between⟩ c.pastBreak.rest := by
  rw [Cursor.pastBreak]
  split
  · rw [Cursor.pastLines, Cursor.rest_advance]
    exact run_layout true false c.rest
  · rfl

end Runs

end Scan

-- Where a token ends: in front of a gap or at the end of the text.
def Ends (text : List Char) : Prop := ∀ c, text.head? = some c → isGap c = true

theorem run_end (finished : List (List Char)) (token : List Char) {text : List Char}
    (ends : Ends text) :
    Scan.run ⟨finished, .bare token⟩ text = Scan.run ⟨finished ++ [token], .between⟩ text := by
  cases text with
  | nil => rfl
  | cons c rest => simp [Scan.run_cons, Scan.step, ends c rfl]

-- Where a token starts: with a character that is neither layout nor a separator.
def Starts (text : List Char) : Prop :=
  ∃ c rest, text = c :: rest ∧ isGap c = false ∧ c ≠ '#' ∧
    (c = '\\' → ∃ other, rest.head? = some other ∧ other ≠ '\n')

theorem run_start (finished : List (List Char)) {text : List Char} (starts : Starts text) :
    Scan.run ⟨finished, .between⟩ text = Scan.run ⟨finished, .bare []⟩ text := by
  obtain ⟨c, rest, rfl, noGap, noComment, joins⟩ := starts
  by_cases backslash : c = '\\'
  · subst backslash
    obtain ⟨other, head, sameLine⟩ := joins rfl
    obtain ⟨more, rfl⟩ := List.head?_eq_some_iff.mp head
    simp [Scan.run_cons, Scan.step, bareStep, isGap, sameLine]
  · simp [Scan.run_cons, Scan.step, noGap, noComment, backslash]

end ShellLine.Quoting
