import ShellLine.Parsing.Engine

set_option autoImplicit false

namespace ShellLine.Bytewise

open Text

-- Offsets count the bytes of a text.
structure State where
  pos : Nat
  failPos : Nat
  expected : List Expected
  memo : List ((Rule × Nat) × Option (Node × Nat))
  tooDeep : Bool
deriving Repr

namespace State

def start : State := ⟨0, 0, [], [], false⟩

def fail (s : State) (e : Expected) : State :=
  if s.pos < s.failPos then s
  else if s.failPos < s.pos then { s with failPos := s.pos, expected := [e] }
  else { s with expected := s.expected ++ [e] }

def kept? (s : State) (rule : Rule) : Option (Option (Node × Nat)) := s.memo.lookup (rule, s.pos)

def keep (s : State) (rule : Rule) (start : Nat) (entry : Option (Node × Nat)) : State :=
  { s with memo := ((rule, start), entry) :: s.memo }

end State

-- Nothing stands at an offset inside a character or past the end.
def charsFrom? : List Char → Nat → Option (List Char)
  | chars, 0 => some chars
  | [], _ + 1 => none
  | c :: rest, offset + 1 =>
      if offset + 1 < c.utf8Size then none else charsFrom? rest (offset + 1 - c.utf8Size)

def slice? (text : List Char) (start stop : Nat) : Option (List Char) := do
  let ahead ← charsFrom? text start
  let behind ← charsFrom? text stop
  if start ≤ stop then some (ahead.take (ahead.length - behind.length)) else none

def bytes (text : List Char) : List UInt8 := text.flatMap String.utf8EncodeChar

-- `rest` and `slice` take text out of the text, and so panic at offsets that split a character.
inductive Action : Type → Type
  | fail (e : Expected) : Action Unit
  | peek (ahead : Nat) : Action (Option UInt8)
  | rest : Action (List Char)
  | slice (start stop : Nat) : Action (List Char)
  | position : Action Nat
  | length : Action Nat
  | moveTo (pos : Nat) : Action Unit

-- A program that gives a value or misses. A miss leaves the offset where it is, unless an `attempt`
-- goes back; `maybe` only asks whether there was one. `scan` passes over bytes one at a time, and
-- `call` runs a rule or replays what was kept of it.
inductive Program : Type → Type 1
  | give {α : Type} (value : α) : Program α
  | miss {α : Type} : Program α
  | andThen {α β : Type} (first : Program α) (next : α → Program β) : Program β
  | act {α : Type} (action : Action α) : Program α
  | scan (goesOn : UInt8 → Bool) : Program Unit
  | maybe {α : Type} (inner : Program α) : Program (Option α)
  | attempt {α : Type} (inner : Program α) : Program (Option α)
  | nested {α : Type} (inner : Program α) : Program α
  | rounds {α : Type} (turn : Program (Turn α)) : Program (List α)
  | call (rule : Rule) : Program Node

inductive Moment
  | stands (s : State)
  | scans (start : Nat) (s : State)
  | saves (pos : Nat)
  | slices (start stop : Nat)
deriving Repr

abbrev Trail := List Moment

inductive Outcome (α : Type)
  | gave (value : α) (s : State)
  | missed (s : State)
  | panicked
deriving Repr

-- Nothing if the run is cut short.
abbrev Run (α : Type) := Option (Trail × Outcome α)

namespace Outcome

variable {α β : Type}

def follow (next : α → State → Run β) : Outcome α → Run β
  | gave value t => next value t
  | missed t => some ([], .missed t)
  | panicked => some ([], .panicked)

def tried (back : State → State) : Outcome α → Trail × Outcome (Option α)
  | gave value t => ([], .gave (some value) t)
  | missed t => ([.stands (back t)], .gave none (back t))
  | panicked => ([], .panicked)

-- A rule that misses goes back to where it was called.
def kept (rule : Rule) (start : Nat) : Outcome Node → Trail × Outcome Node
  | gave node t =>
      let u := t.keep rule start (some (node, t.pos))
      ([.stands u], .gave node u)
  | missed t =>
      let u := { t with pos := start }.keep rule start none
      ([.stands u], .missed u)
  | panicked => ([], .panicked)

end Outcome

namespace Run

variable {α β : Type}

def chain (first : Run α) (next : α → State → Run β) : Run β :=
  first.bind fun (before, outcome) =>
    (outcome.follow next).map fun (after, final) => (before ++ after, final)

def close (inner : Run α) (last : Outcome α → Trail × Outcome β) : Run β :=
  inner.map fun (trail, outcome) => (trail ++ (last outcome).1, (last outcome).2)

-- The offset to go back to is saved first.
def around (inner : Run α) (start : Nat) (last : Outcome α → Trail × Outcome β) : Run β :=
  (inner.close last).map fun (trail, outcome) => (.saves start :: trail, outcome)

-- What some rules give is kept.
def ofRule (rule : Rule) (start : Nat) (body : Run Node) : Run Node :=
  if rule.isKept then body.around start (Outcome.kept rule start) else body

end Run

def takeOut (text : List Char) (start stop : Nat) (s : State) : Trail × Outcome (List Char) :=
  match slice? text start stop with
  | some chars => ([.slices start stop], .gave chars s)
  | none => ([.slices start stop], .panicked)

def Action.perform (text : List Char) {α : Type} : Action α → State → Trail × Outcome α
  | fail e, s => ([.stands (s.fail e)], .gave () (s.fail e))
  | peek ahead, s => ([], .gave (bytes text)[s.pos + ahead]? s)
  | rest, s => takeOut text s.pos (bytes text).length s
  | slice start stop, s => takeOut text start stop s
  | position, s => ([.saves s.pos], .gave s.pos s)
  | length, s => ([], .gave (bytes text).length s)
  | moveTo pos, s => ([.stands { s with pos := pos }], .gave () { s with pos := pos })

def scanBytes (goesOn : UInt8 → Bool) (start : Nat) : List UInt8 → State → Trail × Outcome Unit
  | [], s => ([.stands s], .gave () s)
  | b :: others, s =>
      if goesOn b then
        let after := scanBytes goesOn start others { s with pos := s.pos + 1 }
        (.scans start s :: after.1, after.2)
      else ([.stands s], .gave () s)

def repeatTurns {α : Type} (turn : State → Run (Turn α)) : Nat → State → Run (List α)
  | 0, _ => none
  | turns + 1, s =>
      (turn s).chain fun next t =>
        match next with
        | .stop => some ([], .gave [] t)
        | .last value => some ([], .gave [value] t)
        | .more value =>
            (repeatTurns turn turns t).chain fun values u => some ([], .gave (value :: values) u)

-- A limit of 0 is none. Repetitions that take too many turns are cut short.
def Program.run (text : List Char) (limit : Nat) (calls : Rule → Nat → State → Run Node) (turns : Nat)
    {α : Type} : Program α → Nat → State → Run α
  | give value, _, s => some ([], .gave value s)
  | miss, _, s => some ([], .missed s)
  | andThen first next, level, s =>
      (first.run text limit calls turns level s).chain fun value t =>
        (next value).run text limit calls turns level t
  | act action, _, s => some (action.perform text s)
  | scan goesOn, _, s => some (scanBytes goesOn s.pos ((bytes text).drop s.pos) s)
  | maybe inner, level, s =>
      (inner.run text limit calls turns level s).close (Outcome.tried id)
  | attempt inner, level, s =>
      (inner.run text limit calls turns level s).around s.pos
        (Outcome.tried fun t => { t with pos := s.pos })
  | nested inner, level, s =>
      if limit ≠ 0 ∧ limit ≤ level then
        some ([.stands { s with tooDeep := true }], .missed { s with tooDeep := true })
      else inner.run text limit calls turns (level + 1) s
  | rounds turn, level, s => repeatTurns (turn.run text limit calls turns level) turns s
  | call rule, level, s => calls rule level s

def replay (entry : Option (Node × Nat)) (s : State) : Trail × Outcome Node :=
  match entry with
  | some (node, stop) => ([.stands { s with pos := stop }], .gave node { s with pos := stop })
  | none => ([], .missed s)

def evaluate (rules : Rule → Program Node) (text : List Char) (limit : Nat) :
    Nat → Rule → Nat → State → Run Node
  | 0, _, _, _ => none
  | fuel + 1, rule, level, s =>
      match if rule.isKept then s.kept? rule else none with
      | some entry => some (replay entry s)
      | none =>
          Run.ofRule rule s.pos
            ((rules rule).run text limit (evaluate rules text limit fuel) fuel level s)

namespace Program

instance : Monad Program where
  pure := give
  bind := andThen

variable {α : Type}

def orElse (first : Program α) (second : Unit → Program α) : Program α := do
  match ← maybe first with
  | some value => return value
  | none => second ()

instance : OrElse (Program α) := ⟨orElse⟩

-- Goes back to the start at every miss.
def atomic (inner : Program α) : Program α := do
  match ← attempt inner with
  | some value => return value
  | none => miss

def fail (e : Expected) : Program Unit := act (.fail e)

def refuse (e : Expected) : Program α := do
  fail e
  miss

def optional (inner : Program α) : Program Unit := do
  let _ ← maybe inner

def many (item : Program α) : Program (List α) :=
  rounds do
    match ← maybe item with
    | some value => return .more value
    | none => return .stop

-- Items that go back to their starts.
def attempts (item : Program α) : Program (List α) := many (atomic item)

-- A byte is looked at as the character it is if it is one of ASCII.
def peekAt (ahead : Nat) : Program (Option Char) := do
  return (← act (.peek ahead)).map Char.ofUInt8

def peek : Program (Option Char) := peekAt 0

def rest : Program (List Char) := act .rest

def position : Program Nat := act .position

def moveTo (pos : Nat) : Program Unit := act (.moveTo pos)

def advance (count : Nat) : Program Unit := do moveTo ((← position) + count)

def sliceFrom (start : Nat) : Program (List Char) := do act (.slice start (← position))

def scanWhile (accepts : Char → Bool) : Program Unit := scan fun b => accepts (.ofUInt8 b)

end Program

end ShellLine.Bytewise
