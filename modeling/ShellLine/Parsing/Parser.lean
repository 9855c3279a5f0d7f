import ShellLine.Source.Cursor
import ShellLine.Parsing.Expected
import ShellLine.Tree.Forest
import Std.Data.TreeMap.Basic

set_option autoImplicit false

namespace ShellLine

inductive Rule
  | word
  | redirection
  | operand
  | command
  | andOr
  | conditional
deriving DecidableEq, Repr

-- How a repetition goes on after a turn.
inductive Turn (α : Type)
  | more (value : α)
  | last (value : α)
  | stop
deriving Repr

-- A step either yields a value or fails. `expected` notes what could stand here, `look` gives the text
-- to come, `place` the number of its bytes and `skip` passes over characters. `attempt` turns failure
-- into a value and goes back, `nested` works one level deeper, and `rounds` collects the values of its
-- turns.
inductive Parser : Type → Type 1
  | succeed {α : Type} (value : α) : Parser α
  | andThen {α β : Type} (first : Parser α) (next : α → Parser β) : Parser β
  | fail {α : Type} : Parser α
  | expected (e : Expected) : Parser Unit
  | look : Parser (List Char)
  | place : Parser Nat
  | skip (count : Nat) : Parser Unit
  | attempt {α : Type} (inner : Parser α) : Parser (Option α)
  | nested {α : Type} (inner : Parser α) : Parser α
  | rounds {α : Type} (turn : Parser (Turn α)) : Parser (List α)
  | call (rule : Rule) : Parser Node

-- The rightmost place at which something was missing, and what was missing there.
structure Failure where
  cursor : Cursor
  expected : List Expected
deriving DecidableEq

def Failure.note (failure : Failure) (cursor : Cursor) (e : Expected) : Failure :=
  if failure.cursor.left < cursor.left then failure
  else if cursor.left < failure.cursor.left then ⟨cursor, [e]⟩
  else ⟨failure.cursor, e :: failure.expected⟩

-- What a rule gave where it was tried: nothing, or a node and the place after it.
abbrev Entry := Option (Node × Cursor)

abbrev Table := Std.TreeMap Nat Entry

structure State where
  cursor : Cursor
  failure : Failure
  table : Table
  tooDeep : Bool

namespace State

def start (text : List Char) : State :=
  ⟨.start text, ⟨.start text, []⟩, ∅, false⟩

def note (s : State) (e : Expected) : State := { s with failure := s.failure.note s.cursor e }

end State

namespace Parser

instance : Monad Parser where
  pure := succeed
  bind := andThen

-- Takes turns until one stops. A turn that passes over nothing is the last.
def repeatTurns {α : Type} (turn : State → Option (Turn α) × State) (taken : List α)
    (s : State) : Option (List α) × State :=
  match turn s with
  | (none, t) => (none, t)
  | (some .stop, t) => (some taken.reverse, t)
  | (some (.last value), t) => (some (value :: taken).reverse, t)
  | (some (.more value), t) =>
      if t.cursor.left < s.cursor.left then repeatTurns turn (value :: taken) t
      else (some (value :: taken).reverse, t)
termination_by s.cursor.left

-- Runs a parser at a nesting level. `calls` answers for the rules; a limit of 0 is none.
def run (calls : Rule → Nat → State → Option Node × State) (limit : Nat) {α : Type} :
    Parser α → Nat → State → Option α × State
  | succeed value, _, s => (some value, s)
  | andThen first next, level, s =>
      match first.run calls limit level s with
      | (some value, t) => (next value).run calls limit level t
      | (none, t) => (none, t)
  | fail, _, s => (none, s)
  | expected e, _, s => (some (), s.note e)
  | look, _, s => (some s.cursor.rest, s)
  | place, _, s => (some s.cursor.left, s)
  | skip count, _, s => (some (), { s with cursor := s.cursor.advance count })
  | attempt inner, level, s =>
      match inner.run calls limit level s with
      | (some value, t) => (some (some value), t)
      | (none, t) => (some none, { t with cursor := s.cursor })
  | nested inner, level, s =>
      if limit ≠ 0 ∧ limit ≤ level then (none, { s with tooDeep := true })
      else inner.run calls limit (level + 1) s
  | rounds turn, level, s => repeatTurns (turn.run calls limit level) [] s
  | call rule, level, s => calls rule level s

section Nested

variable {calls : Rule → Nat → State → Option Node × State} {limit level : Nat} {s : State}
  {α : Type} {inner : Parser α}

theorem run_nested_full (full : limit ≠ 0 ∧ limit ≤ level) :
    (nested inner).run calls limit level s = (none, { s with tooDeep := true }) := by
  rw [run, if_pos full]

theorem run_nested_below (below : ¬ (limit ≠ 0 ∧ limit ≤ level)) :
    (nested inner).run calls limit level s = inner.run calls limit (level + 1) s := by
  rw [run, if_neg below]

end Nested

def orElse {α : Type} (first : Parser α) (second : Unit → Parser α) : Parser α := do
  match ← attempt first with
  | some value => return value
  | none => second ()

instance {α : Type} : OrElse (Parser α) := ⟨orElse⟩

-- Goes back to the start when the parser fails.
def atomic {α : Type} (inner : Parser α) : Parser α := do
  match ← attempt inner with
  | some value => return value
  | none => fail

def refuse {α : Type} (e : Expected) : Parser α := do
  expected e
  fail

def optional {α : Type} (inner : Parser α) : Parser Unit := do
  let _ ← attempt inner

def many {α : Type} (item : Parser α) : Parser (List α) :=
  rounds do
    match ← attempt item with
    | some value => return .more value
    | none => return .stop

def take (count : Nat) : Parser (List Char) := do
  let text ← look
  skip count
  return text.take count

def takeWhile (accepts : Char → Bool) : Parser (List Char) := do
  take ((← look).takeWhile accepts).length

end Parser

end ShellLine
