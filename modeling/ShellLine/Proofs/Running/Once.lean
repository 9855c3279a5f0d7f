import ShellLine.Proofs.Running.Unique

set_option autoImplicit false

namespace ShellLine

def State.Keeps (s t : State) : Prop :=
  ∀ (key : Nat) (entry : Entry), s.table[key]? = some entry → t.table[key]? = some entry

def Moment.tried? (mode : Mode) : Moment → Option (Rule × Cursor)
  | tries rule s => if mode.keeps && rule.isKept then some (rule, s.cursor) else none
  | steps _ _ | keeps _ _ _ => none

def Trace.tried (mode : Mode) (trace : Trace) : List (Rule × Cursor) :=
  trace.filterMap (Moment.tried? mode)

-- What a run from one state to another leaves of the table, with the rules it may call below a bound.
structure Orderly (mode : Mode) (bound : Nat) (s : State) (trace : Trace) (t : State) : Prop where
  first : ∀ u ∈ trace.states, s.Keeps u
  last : ∀ u ∈ trace.states, u.Keeps t
  whole : s.Keeps t
  between : trace.states.Pairwise State.Keeps
  above : ∀ key, bound ≤ key → t.table[key]? = s.table[key]?
  fresh : ∀ pair ∈ trace.tried mode, pair.1.height pair.2 < bound ∧
    s.table[pair.1.height pair.2]? = none ∧ t.table[pair.1.height pair.2]? ≠ none
  once : (trace.tried mode).Nodup
  vacant : ∀ rule place u, .keeps rule place u ∈ trace → (mode.keeps && rule.isKept) = true →
    u.table[rule.height place]? = none

section Tables

variable {mode : Mode} {bound : Nat} {s t u : State} {trace later : Trace}

theorem keeps_of_table (same : t.table = s.table) : s.Keeps t := by
  intro key entry found
  rwa [same]

theorem keeps_trans (first : s.Keeps t) (second : t.Keeps u) : s.Keeps u :=
  fun key entry found => second key entry (first key entry found)

theorem absent_of_keeps (keeps : s.Keeps t) {key : Nat} (absent : t.table[key]? = none) :
    s.table[key]? = none := by
  cases found : s.table[key]? with
  | none => rfl
  | some entry => exact (keeps key entry found).symm.trans absent

theorem present_of_keeps (keeps : s.Keeps t) {key : Nat} (present : s.table[key]? ≠ none) :
    t.table[key]? ≠ none := fun absent => present (absent_of_keeps keeps absent)

@[simp] theorem tried_append (mode : Mode) (trace later : Trace) :
    Trace.tried mode (trace ++ later) = trace.tried mode ++ Trace.tried mode later :=
  List.filterMap_append ..

theorem orderly_step (same : t.table = s.table) : Orderly mode bound s [.steps s t] t where
  first := List.forall_mem_cons.mpr ⟨keeps_of_table rfl, List.forall_mem_singleton.mpr (keeps_of_table same)⟩
  last := List.forall_mem_cons.mpr ⟨keeps_of_table same, List.forall_mem_singleton.mpr (keeps_of_table rfl)⟩
  whole := keeps_of_table same
  between := List.pairwise_pair.mpr (keeps_of_table same)
  above key _ := by rw [same]
  fresh pair member := by cases member
  once := List.nodup_nil
  vacant rule place u member := by simp at member

theorem orderly_append (first : Orderly mode bound s trace t) (second : Orderly mode bound t later u) :
    Orderly mode bound s (trace ++ later) u where
  first v member := by
    rw [Trace.states_append] at member
    exact (List.mem_append.mp member).elim (first.first v) fun member =>
      keeps_trans first.whole (second.first v member)
  last v member := by
    rw [Trace.states_append] at member
    exact (List.mem_append.mp member).elim
      (fun member => keeps_trans (first.last v member) second.whole) (second.last v)
  whole := keeps_trans first.whole second.whole
  between := by
    rw [Trace.states_append]
    exact List.pairwise_append.mpr ⟨first.between, second.between,
      fun v before w after => keeps_trans (first.last v before) (second.first w after)⟩
  above key high := (second.above key high).trans (first.above key high)
  fresh pair member := by
    rw [tried_append] at member
    rcases List.mem_append.mp member with before | after
    · obtain ⟨below, absent, present⟩ := first.fresh pair before
      exact ⟨below, absent, present_of_keeps second.whole present⟩
    · obtain ⟨below, absent, present⟩ := second.fresh pair after
      exact ⟨below, absent_of_keeps first.whole absent, present⟩
  once := by
    rw [tried_append]
    refine List.nodup_append.mpr ⟨first.once, second.once, ?_⟩
    rintro pair before other after rfl
    exact (first.fresh pair before).2.2 (second.fresh pair after).2.1
  vacant rule place v member :=
    (List.mem_append.mp member).elim (first.vacant rule place v) (second.vacant rule place v)

theorem orderly_end (orderly : Orderly mode bound s trace t) (same : u.table = t.table) :
    Orderly mode bound s trace u where
  first := orderly.first
  last v member := keeps_trans (orderly.last v member) (keeps_of_table same)
  whole := keeps_trans orderly.whole (keeps_of_table same)
  between := orderly.between
  above key high := by rw [same, orderly.above key high]
  fresh := by
    rw [same]
    exact orderly.fresh
  once := orderly.once
  vacant := orderly.vacant

end Tables

section Records

variable {mode : Mode} {rule : Rule} {c : Cursor} {value : Option Node} {t : State}

theorem record_elsewhere {key : Nat} (elsewhere : rule.height c ≠ key) :
    (mode.record rule c value t).2.table[key]? = t.table[key]? := by
  rw [record_table]
  split
  · rw [Std.TreeMap.getElem?_insert, if_neg (fun same => elsewhere (Nat.compare_eq_eq.mp same))]
  · rfl

theorem keeps_record
    (vacant : (mode.keeps && rule.isKept) = true → t.table[rule.height c]? = none) :
    t.Keeps (mode.record rule c value t).2 := by
  intro key entry found
  by_cases here : rule.height c = key
  · by_cases keeps : (mode.keeps && rule.isKept) = true
    · rw [← here, vacant keeps] at found
      cases found
    · rwa [record_table, if_neg keeps]
  · rwa [record_elsewhere here]

theorem record_present (keeps : (mode.keeps && rule.isKept) = true) :
    (mode.record rule c value t).2.table[rule.height c]? ≠ none := by
  rw [record_table, if_pos keeps, Std.TreeMap.getElem?_insert_self]
  exact Option.some_ne_none _

theorem vacant_of_missing {s : State} (missing : mode.kept? rule s = none)
    (keeps : (mode.keeps && rule.isKept) = true) : s.table[rule.height s.cursor]? = none := by
  rwa [Mode.kept?, if_pos keeps] at missing

-- A rule that is tried calls only lower ones, so nothing is kept for it until it is done.
theorem orderly_called {bound : Nat} {s : State} {trace : Trace} (missing : mode.kept? rule s = none)
    (lower : rule.height s.cursor < bound) (body : Orderly mode (rule.height s.cursor) s trace t) :
    Orderly mode bound s (.tries rule s :: trace ++ [.keeps rule s.cursor t])
      (mode.record rule s.cursor value t).2 := by
  have vacant : (mode.keeps && rule.isKept) = true → t.table[rule.height s.cursor]? = none := by
    intro keeps
    rw [body.above _ (Nat.le_refl _)]
    exact vacant_of_missing missing keeps
  have recorded : t.Keeps (mode.record rule s.cursor value t).2 := keeps_record vacant
  have states : Trace.states (.tries rule s :: trace ++ [.keeps rule s.cursor t]) =
      s :: (trace.states ++ [t]) := by simp [Trace.states, Moment.states]
  have tried : Trace.tried mode (.tries rule s :: trace ++ [.keeps rule s.cursor t]) =
      (if mode.keeps && rule.isKept then [(rule, s.cursor)] else []) ++ trace.tried mode := by
    cases keeps : mode.keeps && rule.isKept <;> simp [Trace.tried, Moment.tried?, keeps]
  refine ⟨?first, ?last, keeps_trans body.whole recorded, ?between, ?above, ?fresh, ?once, ?vacant⟩
  case first =>
    rw [states]
    refine List.forall_mem_cons.mpr ⟨keeps_of_table rfl, List.forall_mem_append.mpr ⟨body.first, ?_⟩⟩
    exact List.forall_mem_singleton.mpr body.whole
  case last =>
    rw [states]
    refine List.forall_mem_cons.mpr ⟨keeps_trans body.whole recorded, List.forall_mem_append.mpr
      ⟨fun u member => keeps_trans (body.last u member) recorded, List.forall_mem_singleton.mpr recorded⟩⟩
  case between =>
    rw [states, List.pairwise_cons, List.pairwise_append]
    refine ⟨List.forall_mem_append.mpr ⟨body.first, List.forall_mem_singleton.mpr body.whole⟩,
      body.between, List.pairwise_singleton _ _, fun u member => ?_⟩
    exact List.forall_mem_singleton.mpr (body.last u member)
  case above =>
    intro key high
    rw [record_elsewhere (by omega)]
    exact body.above key (by omega)
  case fresh =>
    rw [tried]
    refine List.forall_mem_append.mpr ⟨?_, fun pair member => ?_⟩
    · split
      · rename_i keeps
        exact List.forall_mem_singleton.mpr
          ⟨lower, vacant_of_missing missing keeps, record_present keeps⟩
      · simp
    · obtain ⟨below, absent, present⟩ := body.fresh pair member
      exact ⟨Nat.lt_trans below lower, absent, present_of_keeps recorded present⟩
  case once =>
    rw [tried]
    refine List.nodup_append.mpr ⟨by split <;> simp, body.once, ?_⟩
    rintro pair here other there rfl
    split at here
    · obtain rfl := List.mem_singleton.mp here
      exact Nat.lt_irrefl _ (body.fresh _ there).1
    · cases here
  case vacant =>
    intro other place u member keeps
    rcases List.mem_append.mp member with before | last
    · rcases List.mem_cons.mp before with impossible | inside
      · cases impossible
      · exact body.vacant other place u inside keeps
    · cases List.mem_singleton.mp last
      exact vacant keeps

end Records

theorem runs_orderly {text : List Char} {mode : Mode} {α : Type} {p : Parser α} {level bound : Nat}
    {s : State} {trace : Trace} {result : Option α × State} (runs : Runs mode p level s trace result)
    (sound : s.Sound text) (lower : p.CallsLower attained bound s.cursor) :
    Orderly mode bound s trace result.2 := by
  induction runs generalizing bound with
  | succeed | fail | expected | look | place | skip | refused => exact orderly_step rfl
  | andThen first _ firstOrderly laterOrderly =>
      obtain ⟨-, middle, given⟩ := runs_sound first sound
      exact orderly_append (firstOrderly sound lower.1)
        (laterOrderly middle (lower.2 _ _ _ (given _ rfl)))
  | cut _ ih => exact ih sound lower.1
  | attempt _ ih | nested _ _ ih => exact ih sound lower
  | missed _ ih => exact orderly_end (ih sound lower) rfl
  | broken _ ih | stop _ ih | last _ ih => exact ih sound (lower _ (List.suffix_refl _))
  | more turn _ turnOrderly laterOrderly =>
      obtain ⟨-, middle, given⟩ := runs_sound turn sound
      have forward := Parser.may_give_forward attained_forward _ (given _ rfl)
      exact orderly_append (turnOrderly sound (lower _ (List.suffix_refl _)))
        (laterOrderly middle fun d behind => lower d (behind.trans forward))
  | @replayed _ _ s entry kept =>
      refine orderly_step ?_
      cases entry <;> rfl
  | @called rule _ s t value trace missing _ ih =>
      have ranked := Grammar.grammar_ranked attained_forward rule s.cursor _ (Nat.le_refl _)
      exact orderly_called missing lower (ih sound ranked)

section Size

def keysUpTo (length : Nat) : List Nat :=
  (List.range (length + 1)).flatMap fun left => [6 * left, 6 * left + 1, 6 * left + 3, 6 * left + 4]

theorem length_keys_up_to (length : Nat) : (keysUpTo length).length = 4 * (length + 1) := by
  simp [keysUpTo, List.length_flatMap, List.map_const', Nat.mul_comm]

theorem table_size_le {text : List Char} {s : State} (sound : s.Sound text) :
    s.table.size ≤ 4 * (Text.byteLength text + 1) := by
  rw [← length_keys_up_to, ← Std.TreeMap.length_keys]
  refine List.Nodup.length_le_of_subset Std.TreeMap.nodup_keys fun key member => ?_
  obtain ⟨entry, found⟩ := Option.isSome_iff_exists.mp
    (Std.TreeMap.mem_iff_isSome_getElem?.mp (Std.TreeMap.mem_keys.mp member))
  obtain ⟨rule, c, isKept, within, rfl, -⟩ := sound.table found
  have short := Cursor.left_le_of_suffix c (.start text) within
  refine List.mem_flatMap.mpr ⟨c.left, List.mem_range.mpr (Nat.lt_succ_of_le short), ?_⟩
  cases rule <;> simp [Rule.height, Rule.rank, Rule.isKept] at isKept ⊢

end Size

-- The parsers of the grammar that give a node by themselves, but for that of the program and for
-- operands, which may be empty. The items of a `case` are turns of a repetition.
def Grammar.nodeParsers : List (Parser Node) :=
  [.call .word, .call .redirection, .call .command, .call .andOr, .call .conditional, wordPart false,
    wordPart true, unquotedLiteral false, unquotedLiteral true, singleQuote, bareEscape, doubleQuote,
    backquote false, backquote true, dollarExpansion, arithmeticExpansion, commandExpansion,
    bracedExpansion, redirectedDescriptor, assignment, commandWord, simpleCommand, functionDefinition,
    braceGroup, subshell, doGroup, forClause, caseClause, ifClause, elsePart,
    loopClause "while" .whileLoop, loopClause "until" .untilLoop, compoundCommand, compoundList,
    pipeSequence, pipeline, termList false, termList true, completeCommand]

section Nodes

open ShellLine.Parser

theorem node_parsers_advance : ∀ p ∈ Grammar.nodeParsers, p.Advances attained := by
  have forward := attained_forward
  have advance := attained_advance
  have keyed : ∀ {word : String} {next : Unit → Parser Node}, word.toList ≠ [] →
      (atomic (Grammar.keyword word >>= next)).Advances attained := fun nonempty =>
    advances_atomic (advances_first forward (Grammar.keyword_advances nonempty))
  have descriptor : Grammar.redirectedDescriptor.Advances attained := by
    refine advances_atomic ?_
    rintro room c node d ⟨digits, e, taken, later⟩
    dsimp only at later
    split at later
    · exact (may_give_refuse _ _ _ _ later).elim
    · rename_i nonempty
      exact Nat.lt_of_le_of_lt (may_give_left_le forward later)
        (Grammar.take_while_advances taken nonempty)
  have commandWord : Grammar.commandWord.Advances attained := by
    refine advances_second forward fun text => ?_
    split
    · exact advances_refuse _
    · exact Grammar.call_advances advance (by decide)
  have elsePart : Grammar.elsePart.Advances attained := by
    refine advances_atomic ?_
    rintro room c node d ⟨tried, e, ⟨u, rfl, given⟩ | ⟨rfl, rfl⟩, later⟩
    · exact Nat.lt_of_le_of_lt (may_give_left_le forward later)
        (Grammar.keyword_advances (by decide) _ _ _ _ given)
    · exact advances_first forward (Grammar.keyword_advances (by decide)) _ _ _ _ later
  simp only [Grammar.nodeParsers, List.forall_mem_cons, List.not_mem_nil, false_implies, implies_true,
    and_true]
  exact ⟨Grammar.call_advances advance (by decide), Grammar.call_advances advance (by decide),
    Grammar.call_advances advance (by decide), Grammar.call_advances advance (by decide),
    Grammar.call_advances advance (by decide), Grammar.word_part_advances forward false,
    Grammar.word_part_advances forward true, Grammar.unquoted_literal_advances false,
    Grammar.unquoted_literal_advances true, Grammar.single_quote_advances forward,
    Grammar.bare_escape_advances forward, Grammar.double_quote_advances forward,
    Grammar.backquote_advances forward false, Grammar.backquote_advances forward true,
    Grammar.dollar_expansion_advances forward, Grammar.arithmetic_expansion_advances forward,
    Grammar.command_expansion_advances forward, Grammar.braced_expansion_advances forward, descriptor,
    Grammar.assignment_advances forward, commandWord, Grammar.simple_command_advances forward advance,
    Grammar.function_definition_advances forward, keyed (by decide),
    advances_atomic (advances_first forward (Grammar.operator_advances forward (by decide))),
    keyed (by decide), keyed (by decide), keyed (by decide), keyed (by decide), elsePart,
    keyed (by decide), keyed (by decide), Grammar.compound_command_advances forward,
    Grammar.compound_list_advances forward advance, Grammar.pipe_sequence_advances forward advance,
    Grammar.pipeline_advances forward advance, Grammar.term_list_advances forward advance false,
    Grammar.term_list_advances forward advance true, Grammar.complete_command_advances forward advance⟩

end Nodes

structure TriesOnce (mode : Mode) (text : List Char) (trace : Trace) (last : State) : Prop where
  -- No rule is tried again where it was tried, be it done with or not.
  once : (trace.tried mode).Nodup
  vacant : ∀ rule place s, .keeps rule place s ∈ trace → (mode.keeps && rule.isKept) = true →
    s.table[rule.height place]? = none
  kept : (trace.states ++ [last]).Pairwise State.Keeps
  size : ∀ s ∈ trace.states ++ [last], s.table.size ≤ 4 * (Text.byteLength text + 1)
  consumes : ∀ s ∈ trace.states ++ [last], ∀ p ∈ Grammar.nodeParsers, ∀ level steps node t,
    Runs mode p level s steps (some node, t) → t.cursor.left < s.cursor.left
  consumesItem : ∀ s ∈ trace.states ++ [last], ∀ level steps turn t,
    Runs mode Grammar.caseItem level s steps (some turn, t) → t.cursor.left < s.cursor.left

/-- Every text is read in one run that comes to its end, whatever the limit on nesting. It tries each
rule whose results are kept at most once at a place and finds nothing there when it keeps the result;
what is kept never changes, and there are at most four results for each place of the text. Whatever
gives a node passes over a byte at least. -/
theorem program_tries_rules_once (mode : Mode) (input : String) :
    ∃ trace, Runs mode Grammar.program 0 (.start input.toList) trace (readProgram mode input.toList) ∧
      (∀ other result, Runs mode Grammar.program 0 (.start input.toList) other result →
        other = trace ∧ result = readProgram mode input.toList) ∧
      TriesOnce mode input.toList trace (readProgram mode input.toList).2 := by
  obtain ⟨trace, runs⟩ := program_runs mode input.toList
  obtain ⟨states, last, -⟩ := runs_sound runs (start_sound input.toList)
  have orderly := runs_orderly runs (start_sound input.toList) (program_lower input.toList)
  have sound : ∀ s ∈ trace.states ++ [(readProgram mode input.toList).2], s.Sound input.toList :=
    List.forall_mem_append.mpr ⟨states, List.forall_mem_singleton.mpr last⟩
  have passes : ∀ {α : Type} {p : Parser α}, p.Advances attained →
      ∀ s ∈ trace.states ++ [(readProgram mode input.toList).2], ∀ level steps value t,
        Runs mode p level s steps (some value, t) → t.cursor.left < s.cursor.left := by
    intro α p advances s member level steps value t inner
    obtain ⟨-, -, given⟩ := runs_sound inner (sound s member)
    exact advances _ _ _ _ (given value rfl)
  refine ⟨trace, runs, fun other result again => ?_, ?_⟩
  · obtain ⟨same, sameResult⟩ := runs_unique runs again
    exact ⟨same.symm, sameResult.symm⟩
  · exact
      { once := orderly.once
        vacant := orderly.vacant
        kept := List.pairwise_append.mpr ⟨orderly.between, List.pairwise_singleton _ _,
          fun s member => List.forall_mem_singleton.mpr (orderly.last s member)⟩
        size := fun s member => table_size_le (sound s member)
        consumes := fun s member p listed => passes (node_parsers_advance p listed) s member
        consumesItem := passes (Grammar.case_item_advances attained_forward attained_advance) }

end ShellLine
