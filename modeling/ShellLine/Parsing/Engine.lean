import ShellLine.Parsing.Parser

set_option autoImplicit false

namespace ShellLine

namespace Rule

def rank : Rule → Nat
  | word => 0
  | redirection => 1
  | operand => 2
  | command => 3
  | andOr => 4
  | conditional => 5

def isKept : Rule → Bool
  | word | redirection | command | andOr => true
  | operand | conditional => false

-- Later places are lower, and of the rules at one place those of lower rank. The height of
-- a rule at a place is also the key of its result in the table.
def height (rule : Rule) (cursor : Cursor) : Nat := 6 * cursor.left + rule.rank

end Rule

-- How rules are evaluated: whether results are kept, and how deep constructs may nest, 0
-- for any depth.
structure Mode where
  keeps : Bool
  limit : Nat
deriving DecidableEq, Repr

namespace Mode

def kept? (mode : Mode) (rule : Rule) (s : State) : Option Entry :=
  if mode.keeps && rule.isKept then s.table[rule.height s.cursor]? else none

-- Keeps the result of a rule that was tried at `before`. A failed rule goes back there.
def record (mode : Mode) (rule : Rule) (before : Cursor) (result : Option Node) (t : State) :
    Option Node × State :=
  let after : State := if result.isNone then { t with cursor := before } else t
  let entry := result.map fun node => (node, after.cursor)
  if mode.keeps && rule.isKept then
    (result, { after with table := after.table.insert (rule.height before) entry })
  else (result, after)

end Mode

def replay (entry : Entry) (s : State) : Option Node × State :=
  match entry with
  | some (node, after) => (some node, { s with cursor := after })
  | none => (none, s)

-- The result of a rule of a grammar. A call that does not stand lower than its caller fails.
def evaluate (grammar : Rule → Parser Node) (mode : Mode) (rule : Rule) (level : Nat)
    (s : State) : Option Node × State :=
  match mode.kept? rule s with
  | some entry => replay entry s
  | none =>
      let calls (inner : Rule) (deeper : Nat) (t : State) : Option Node × State :=
        if inner.height t.cursor < rule.height s.cursor then
          evaluate grammar mode inner deeper t
        else (none, t)
      let outcome := (grammar rule).run calls mode.limit level s
      mode.record rule s.cursor outcome.1 outcome.2
termination_by rule.height s.cursor

end ShellLine
