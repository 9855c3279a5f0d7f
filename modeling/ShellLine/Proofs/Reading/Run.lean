import ShellLine.Proofs.Reading.Basic

set_option autoImplicit false

namespace ShellLine

def chain {α β : Type} (result : Option α × State) (next : α → State → Option β × State) :
    Option β × State :=
  match result.1 with
  | some value => next value result.2
  | none => (none, result.2)

-- Whether a reading that goes down `depth` levels stays within the limit.
def Fits (limit level depth : Nat) : Prop := limit = 0 ∨ depth = 0 ∨ level + depth ≤ limit

theorem fits_max (limit level a b : Nat) :
    Fits limit level (max a b) ↔ Fits limit level a ∧ Fits limit level b := by
  simp only [Fits]
  omega

theorem fits_mono {limit level a b : Nat} (less : a ≤ b) (fits : Fits limit level b) :
    Fits limit level a := by
  rw [Fits] at *
  omega

theorem chain_sticky {α β : Type} {result : Option α × State}
    {next : α → State → Option β × State} (deep : result.2.tooDeep = true)
    (sticky : ∀ a t, t.tooDeep = true → (next a t).2.tooDeep = true) :
    (chain result next).2.tooDeep = true := by
  obtain ⟨value, t⟩ := result
  cases value with
  | none => exact deep
  | some a => exact sticky a t deep

section Simulation

variable (grammar : Rule → Parser Node) (text : List Char)

def TableRight (table : Table) (failure : Failure) : Prop :=
  ∀ rule c entry, c.rest <:+ text → table[rule.height c]? = some entry →
    entry = (reading grammar rule c).outcome ∧
      ∀ n ∈ (reading grammar rule c).notes, failure.Covers n

structure Faithful {α : Type} (s : State) (result : Option α × State) (r : Reading α) : Prop where
  value : result.1 = r.outcome.map Prod.fst
  cursor : ∀ a d, r.outcome = some (a, d) → result.2.cursor = d
  failure : result.2.failure.Agrees (s.failure.absorb r.notes)
  table : TableRight grammar text result.2.table result.2.failure

-- A run is cut short only if the reading goes too deep; without a table it then always is.
structure Follows (mode : Mode) (level : Nat) {α : Type} (s : State)
    (result : Option α × State) (r : Reading α) : Prop where
  deep : result.2.tooDeep = true → ¬ Fits mode.limit level r.depth
  plain : result.2.tooDeep = false → mode.keeps = false → Fits mode.limit level r.depth
  faithful : result.2.tooDeep = false → Faithful grammar text s result r

structure Simulates (mode : Mode) (calls : Rule → Nat → State → Option Node × State)
    (reads : Rule → Cursor → Reading Node) : Prop where
  sticky : ∀ rule level s, s.tooDeep = true → (calls rule level s).2.tooDeep = true
  follows : ∀ rule level s, s.cursor.rest <:+ text → TableRight grammar text s.table s.failure →
    s.tooDeep = false → Follows grammar text mode level s (calls rule level s) (reads rule s.cursor)
  forward : GoForward reads

variable {grammar text}

theorem table_right_note {table : Table} {failure : Failure} (cursor : Cursor) (e : Expected)
    (right : TableRight grammar text table failure) :
    TableRight grammar text table (failure.note cursor e) := by
  intro rule c entry within found
  obtain ⟨same, covered⟩ := right rule c entry within found
  exact ⟨same, fun n taken => Failure.note_covers failure cursor e n (covered n taken)⟩

-- A reading that stays on its level cannot cut a run short.
theorem follows_of_faithful {mode : Mode} {level : Nat} {α : Type} {s : State}
    {result : Option α × State} {r : Reading α} (flat : r.depth = 0)
    (shallow : result.2.tooDeep = false) (faithful : Faithful grammar text s result r) :
    Follows grammar text mode level s result r := by
  refine ⟨?_, fun _ _ => Or.inr (Or.inl flat), fun _ => faithful⟩
  intro deep
  cases shallow.symm.trans deep

theorem follows_step {mode : Mode} {level : Nat} {α : Type} {s : State} (value : α) (c : Cursor)
    (right : TableRight grammar text s.table s.failure) (shallow : s.tooDeep = false) :
    Follows grammar text mode level s (some value, { s with cursor := c })
      { outcome := some (value, c) } := by
  apply follows_of_faithful rfl shallow
  refine ⟨rfl, ?_, Failure.agrees_refl _, right⟩
  intro a d here
  cases here
  rfl

theorem follows_fail {mode : Mode} {level : Nat} {α : Type} {s : State}
    (right : TableRight grammar text s.table s.failure) (shallow : s.tooDeep = false) :
    Follows grammar text mode level s ((none : Option α), s) .failed := by
  apply follows_of_faithful rfl shallow
  refine ⟨rfl, ?_, Failure.agrees_refl _, right⟩
  intro a d impossible
  cases impossible

theorem follows_note {mode : Mode} {level : Nat} {s : State} (e : Expected)
    (right : TableRight grammar text s.table s.failure) (shallow : s.tooDeep = false) :
    Follows grammar text mode level s (some (), s.note e)
      { outcome := some ((), s.cursor), notes := [(s.cursor, e)] } := by
  apply follows_of_faithful rfl shallow
  refine ⟨rfl, ?_, Failure.agrees_refl _, table_right_note s.cursor e right⟩
  intro a d here
  cases here
  rfl

theorem follows_and_then {mode : Mode} {level : Nat} {α β : Type} {s : State}
    {first : Option α × State} {r : Reading α} {next : α → State → Option β × State}
    {nextReading : α → Cursor → Reading β}
    (follows : Follows grammar text mode level s first r)
    (sticky : ∀ a t, t.tooDeep = true → (next a t).2.tooDeep = true)
    (nextFollows : ∀ a t, r.outcome = some (a, t.cursor) → t.tooDeep = false →
      TableRight grammar text t.table t.failure →
      Follows grammar text mode level t (next a t) (nextReading a t.cursor)) :
    Follows grammar text mode level s (chain first next) (r.andThen nextReading) := by
  obtain ⟨value, t⟩ := first
  cases tooDeep : t.tooDeep with
  | true =>
      have overrun := follows.deep tooDeep
      have stays : (chain (value, t) next).2.tooDeep = true := chain_sticky tooDeep sticky
      refine ⟨fun _ => ?_, fun shallow => ?_, fun shallow => ?_⟩
      · rw [Reading.andThen]
        cases r.outcome with
        | none => exact overrun
        | some pair => exact fun fits => overrun ((fits_max _ _ _ _).mp fits).1
      · cases stays.symm.trans shallow
      · cases stays.symm.trans shallow
  | false =>
      have faithful := follows.faithful tooDeep
      have value_eq : value = r.outcome.map Prod.fst := faithful.value
      rw [Reading.andThen]
      cases read : r.outcome with
      | none =>
          rw [read] at value_eq
          cases value_eq
          refine ⟨follows.deep, follows.plain, fun _ => ?_⟩
          refine ⟨rfl, ?_, faithful.failure, faithful.table⟩
          intro a d impossible
          cases impossible
      | some pair =>
          obtain ⟨a, d⟩ := pair
          rw [read] at value_eq
          cases value_eq
          obtain rfl : t.cursor = d := faithful.cursor a d read
          have second := nextFollows a t read tooDeep faithful.table
          refine ⟨fun overrun fits => ?_, fun shallow plain => ?_, fun shallow => ?_⟩
          · exact second.deep overrun ((fits_max _ _ _ _).mp fits).2
          · exact (fits_max _ _ _ _).mpr ⟨follows.plain tooDeep plain, second.plain shallow plain⟩
          · have last := second.faithful shallow
            refine ⟨last.value, last.cursor, ?_, last.table⟩
            rw [Failure.absorb_append]
            exact Failure.agrees_trans last.failure
              (Failure.absorb_agrees faithful.failure _)

theorem run_and_then {calls : Rule → Nat → State → Option Node × State} {limit : Nat}
    {α β : Type} (first : Parser α) (next : α → Parser β) (level : Nat) (s : State) :
    (Parser.andThen first next).run calls limit level s =
      chain (first.run calls limit level s) fun a t => (next a).run calls limit level t := by
  rw [Parser.run, chain]
  obtain ⟨value, t⟩ := first.run calls limit level s
  cases value <;> rfl

theorem run_attempt {calls : Rule → Nat → State → Option Node × State} {limit : Nat}
    {α : Type} (inner : Parser α) (level : Nat) (s : State) :
    (Parser.attempt inner).run calls limit level s =
      (some (inner.run calls limit level s).1,
        { (inner.run calls limit level s).2 with
          cursor := match (inner.run calls limit level s).1 with
            | some _ => (inner.run calls limit level s).2.cursor
            | none => s.cursor }) := by
  rw [Parser.run]
  obtain ⟨value, t⟩ := inner.run calls limit level s
  cases value <;> rfl

def afterTurn {α : Type} (turn : State → Option (Turn α) × State) (taken : List α) (s : State) :
    Turn α → State → Option (List α) × State
  | .stop, t => (some taken.reverse, t)
  | .last value, t => (some (value :: taken).reverse, t)
  | .more value, t =>
      if t.cursor.left < s.cursor.left then Parser.repeatTurns turn (value :: taken) t
      else (some (value :: taken).reverse, t)

theorem repeat_turns_chain {α : Type} (turn : State → Option (Turn α) × State) (taken : List α)
    (s : State) :
    Parser.repeatTurns turn taken s = chain (turn s) (afterTurn turn taken s) := by
  rw [Parser.repeatTurns, chain]
  obtain ⟨value, t⟩ := turn s
  cases value with
  | none => rfl
  | some next => cases next <;> rfl

theorem after_turn_sticky {α : Type} {turn : State → Option (Turn α) × State} {taken : List α}
    {s t : State} {next : Turn α}
    (again : ∀ value, t.cursor.left < s.cursor.left →
      (Parser.repeatTurns turn (value :: taken) t).2.tooDeep = true)
    (deep : t.tooDeep = true) : (afterTurn turn taken s next t).2.tooDeep = true := by
  cases next with
  | stop => exact deep
  | last value => exact deep
  | more value =>
      rw [afterTurn]
      by_cases progress : t.cursor.left < s.cursor.left
      · simpa only [if_pos progress] using again value progress
      · simpa only [if_neg progress] using deep

theorem repeat_turns_sticky {α : Type} (turn : State → Option (Turn α) × State)
    (sticky : ∀ s, s.tooDeep = true → (turn s).2.tooDeep = true) (taken : List α) (s : State)
    (deep : s.tooDeep = true) : (Parser.repeatTurns turn taken s).2.tooDeep = true := by
  rw [repeat_turns_chain]
  refine chain_sticky (sticky s deep) fun next t after => after_turn_sticky ?_ after
  intro value _progress
  exact repeat_turns_sticky turn sticky (value :: taken) t after
termination_by s.cursor.left

theorem run_sticky {calls : Rule → Nat → State → Option Node × State} {limit : Nat}
    (sticky : ∀ rule level s, s.tooDeep = true → (calls rule level s).2.tooDeep = true)
    {α : Type} (p : Parser α) :
    ∀ level s, s.tooDeep = true → (p.run calls limit level s).2.tooDeep = true := by
  induction p with
  | succeed | fail | expected | look | place | skip => exact fun _ _ deep => deep
  | andThen first next firstSticky nextSticky =>
      intro level s deep
      rw [run_and_then]
      exact chain_sticky (firstSticky level s deep) fun a t after => nextSticky a level t after
  | attempt inner ih =>
      intro level s deep
      rw [run_attempt]
      exact ih level s deep
  | nested inner ih =>
      intro level s deep
      by_cases full : limit ≠ 0 ∧ limit ≤ level
      · rw [Parser.run_nested_full full]
      · rw [Parser.run_nested_below full]
        exact ih (level + 1) s deep
  | rounds turn ih =>
      intro level s deep
      exact repeat_turns_sticky _ (ih level) [] s deep
  | call rule => exact sticky rule

theorem repeat_turns_follows {mode : Mode} {level : Nat} {α : Type}
    {turn : State → Option (Turn α) × State} {turnReading : Cursor → Reading (Turn α)}
    (sticky : ∀ s, s.tooDeep = true → (turn s).2.tooDeep = true)
    (follows : ∀ s, s.cursor.rest <:+ text → TableRight grammar text s.table s.failure →
      s.tooDeep = false → Follows grammar text mode level s (turn s) (turnReading s.cursor))
    (forward : ∀ c next d, (turnReading c).outcome = some (next, d) → d.rest <:+ c.rest)
    (taken : List α) (s : State) (within : s.cursor.rest <:+ text)
    (right : TableRight grammar text s.table s.failure) (shallow : s.tooDeep = false) :
    Follows grammar text mode level s (Parser.repeatTurns turn taken s)
      (readTurns turnReading taken s.cursor) := by
  rw [repeat_turns_chain, readTurns]
  refine follows_and_then (follows s within right shallow) ?_ ?_
  · intro next t deep
    exact after_turn_sticky (fun value _ => repeat_turns_sticky turn sticky _ t deep) deep
  · intro next t read shallowThen rightThen
    cases next with
    | stop => exact follows_step _ t.cursor rightThen shallowThen
    | last value => exact follows_step _ t.cursor rightThen shallowThen
    | more value =>
        rw [afterTurn]
        by_cases progress : t.cursor.left < s.cursor.left
        · simp only [if_pos progress]
          exact repeat_turns_follows sticky follows forward _ t
            ((forward _ _ _ read).trans within) rightThen shallowThen
        · simp only [if_neg progress]
          exact follows_step _ t.cursor rightThen shallowThen
termination_by s.cursor.left

section Inner

variable {mode : Mode} {calls : Rule → Nat → State → Option Node × State}
  {reads : Rule → Cursor → Reading Node} {level : Nat} {s : State} {α : Type} {inner : Parser α}

theorem follows_attempt (tried : Follows grammar text mode level s
      (inner.run calls mode.limit level s) (inner.read reads s.cursor)) :
    Follows grammar text mode level s ((Parser.attempt inner).run calls mode.limit level s)
      ((Parser.attempt inner).read reads s.cursor) := by
  rw [run_attempt, Parser.read]
  cases read : (inner.read reads s.cursor).outcome with
  | none =>
      refine ⟨tried.deep, tried.plain, fun shallow => ?_⟩
      have faithful := tried.faithful shallow
      have failed : (inner.run calls mode.limit level s).1 = none := by
        rw [faithful.value, read]
        rfl
      refine ⟨by rw [failed]; rfl, ?_, faithful.failure, faithful.table⟩
      intro a d here
      cases here
      simp only [failed]
  | some pair =>
      obtain ⟨value, d⟩ := pair
      refine ⟨tried.deep, tried.plain, fun shallow => ?_⟩
      have faithful := tried.faithful shallow
      have given : (inner.run calls mode.limit level s).1 = some value := by
        rw [faithful.value, read]
        rfl
      refine ⟨by rw [given]; rfl, ?_, faithful.failure, faithful.table⟩
      intro a e here
      cases here
      simp only [given]
      exact faithful.cursor value d read

-- One level deeper a run is cut short one level earlier.
theorem follows_nested (deeper : Follows grammar text mode (level + 1) s
      (inner.run calls mode.limit (level + 1) s) (inner.read reads s.cursor)) :
    Follows grammar text mode level s ((Parser.nested inner).run calls mode.limit level s)
      ((Parser.nested inner).read reads s.cursor) := by
  rw [Parser.read]
  by_cases full : mode.limit ≠ 0 ∧ mode.limit ≤ level
  · rw [Parser.run_nested_full full]
    refine ⟨fun _ fits => ?_, fun impossible => ?_, fun impossible => ?_⟩
    · rw [Fits] at fits
      dsimp only at fits
      omega
    · cases impossible
    · cases impossible
  · rw [Parser.run_nested_below full]
    refine ⟨fun deep fits => deeper.deep deep ?_, fun shallow plain => ?_, fun shallow => ?_⟩
    · rw [Fits] at fits ⊢
      dsimp only at fits
      omega
    · have fits := deeper.plain shallow plain
      rw [Fits] at fits ⊢
      dsimp only
      omega
    · have faithful := deeper.faithful shallow
      exact ⟨faithful.value, faithful.cursor, faithful.failure, faithful.table⟩

end Inner

theorem run_follows {mode : Mode} {calls : Rule → Nat → State → Option Node × State}
    {reads : Rule → Cursor → Reading Node} (simulates : Simulates grammar text mode calls reads)
    {α : Type} (p : Parser α) :
    ∀ level s, s.cursor.rest <:+ text → TableRight grammar text s.table s.failure →
      s.tooDeep = false →
      Follows grammar text mode level s (p.run calls mode.limit level s)
        (p.read reads s.cursor) := by
  induction p with
  | succeed value => exact fun _ s _ right shallow => follows_step value s.cursor right shallow
  | fail => exact fun _ _ _ right shallow => follows_fail right shallow
  | expected e => exact fun _ _ _ right shallow => follows_note e right shallow
  | look => exact fun _ s _ right shallow => follows_step s.cursor.rest s.cursor right shallow
  | place => exact fun _ s _ right shallow => follows_step s.cursor.left s.cursor right shallow
  | skip count =>
      exact fun _ s _ right shallow => follows_step () (s.cursor.advance count) right shallow
  | andThen first next firstFollows nextFollows =>
      intro level s within right shallow
      rw [run_and_then, Parser.read]
      refine follows_and_then (firstFollows level s within right shallow)
        (fun a => run_sticky simulates.sticky (next a) level) ?_
      intro a t read shallowThen rightThen
      have passed := read_forward simulates.forward first s.cursor a t.cursor read
      exact nextFollows a level t (passed.trans within) rightThen shallowThen
  | attempt inner ih =>
      intro level s within right shallow
      exact follows_attempt (ih level s within right shallow)
  | nested inner ih =>
      intro level s within right shallow
      exact follows_nested (ih (level + 1) s within right shallow)
  | rounds turn ih =>
      intro level s within right shallow
      exact repeat_turns_follows (run_sticky simulates.sticky turn level) (ih level)
        (read_forward simulates.forward turn) [] s within right shallow
  | call rule => exact simulates.follows rule

end Simulation

end ShellLine
