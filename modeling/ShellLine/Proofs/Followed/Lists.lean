import ShellLine.Proofs.Closure.Extent
import ShellLine.Proofs.Closure.Lists
import ShellLine.Proofs.Followed.Carry

set_option autoImplicit false

namespace ShellLine.Followed

open ShellLine.Parser Grammar Closure

variable {T : Tails} {c d : Cursor} {lines : Bool} {node : Node}

section Rules

-- The patterns that could be read at a place end in the text, and none of them is cut short.
def PatternsWithin (T : Tails) (c : Cursor) : Prop :=
  ∀ values d, Items (reading grammar) nextPattern c values d →
    T.Inside d ∧ ¬ Stuck d ∧ ∀ e, (loneOperator '|').Reads d () e → T.Inside e ∧ ¬ Stuck e

def AfterRule (T : Tails) : Rule → Cursor → Prop
  | .word, d | .redirection, d => ¬ Stuck d
  | .operand, d => d.rest.head? = some '\x7d'
  | .command, d => Halts d.rest ∧ PatternsWithin T d
  | .andOr, d => EndsChain d.rest
  | .conditional, d => String.ofList (solidStart d.rest) = "fi"

-- What a rule reads in front of one tail it reads in front of the other.
def CarriesOver (T : Tails) (rule : Rule) (c : Cursor) : Prop :=
  T.Carry (fun _ => True) (AfterRule T rule) (call rule) (call rule) T.node c

-- A place further on than which all rules carry over, and words back from the other tail too.
structure Ahead (T : Tails) (c : Cursor) : Prop where
  within : c.rest <:+ T.text ++ T.old
  forth : ∀ rule e, e.rest <:+ c.rest → e.left < c.left → CarriesOver T rule e
  back : ∀ e, e.rest <:+ c.rest → e.left < c.left → T.Inside e → CarriesOver T.swap .word (T.there e)

theorem Ahead.behind (ahead : Ahead T c) (behind : d.rest <:+ c.rest) : Ahead T d where
  within := behind.trans ahead.within
  forth := fun rule e suffix earlier => ahead.forth rule e (suffix.trans behind)
    (Nat.lt_of_lt_of_le earlier (Cursor.left_le_of_suffix d c behind))
  back := fun e suffix earlier => ahead.back e (suffix.trans behind)
    (Nat.lt_of_lt_of_le earlier (Cursor.left_le_of_suffix d c behind))

theorem Ahead.past {α : Type} {p : Parser α} {value : α} (ahead : Ahead T c) (read : p.Reads c value d) :
    Ahead T d := ahead.behind (reads_forward read)

theorem Ahead.rule (ahead : Ahead T c) (moved : d.left < c.left) (behind : d.rest <:+ c.rest) (rule : Rule) :
    ∀ e, e.rest <:+ d.rest → CarriesOver T rule e :=
  fun e suffix => ahead.forth rule e (suffix.trans behind)
    (Nat.lt_of_le_of_lt (Cursor.left_le_of_suffix e d suffix) moved)

def ChainsCarryOver (T : Tails) (c : Cursor) : Prop := ∀ e, e.rest <:+ c.rest → CarriesOver T .andOr e

theorem ChainsCarryOver.behind (chains : ChainsCarryOver T c) (behind : d.rest <:+ c.rest) : ChainsCarryOver T d :=
  fun e suffix => chains e (suffix.trans behind)

end Rules

section Separators

theorem carry_sign_separator {ch : Char} {kind : Separator} (other : ch ≠ '\n') (plain : isQuoting ch = false) :
    T.Carry (T.Open true) (T.Open lines) (signSeparator lines ch kind) (signSeparator lines ch kind) id c := by
  refine carry_bind (S := T.Open lines) (carry_lone other plain) (fun _ here => here.1) fun _ _ _ => ?_
  cases lines with
  | false => exact carry_then (carry_pure (f := id) rfl) fun _ _ _ => carry_pure rfl
  | true => exact carry_then carry_line_break fun _ _ _ => carry_pure rfl

theorem miss_sign_separator {Q : Cursor → Prop} {ch : Char} {kind : Separator} (other : ch ≠ '\n') :
    T.Miss Q (signSeparator lines ch kind) (signSeparator lines ch kind) c := by
  intro rejected inside _
  rw [rejects_sign_separator_iff] at rejected ⊢
  exact miss_lone other rejected inside trivial

theorem carry_separator :
    T.Carry (fun c => EndsChain c.rest) (T.Open lines) (separator lines) (separator lines) id c := by
  have carry : T.Carry (T.Open true) (T.Open lines) (separator lines) (separator lines) id c := by
    refine carry_or_else (carry_sign_separator (by decide) (by decide)) (miss_sign_separator (by decide)) ?_
      (fun here => here)
    refine carry_or_else (carry_sign_separator (by decide) (by decide)) (miss_sign_separator (by decide)) ?_
      (fun here => here)
    cases lines with
    | false => exact carry_fail
    | true => exact carry_then carry_newlines fun _ _ _ => carry_pure rfl
  exact carry.start fun kind d read _ _ _ => (behind_of_separator (c := c) read).1

theorem miss_separator :
    T.Miss (fun c => lines = true → c.rest ≠ T.old) (separator lines) (separator lines) c := by
  refine miss_or_else (miss_sign_separator (by decide)) (miss_or_else (miss_sign_separator (by decide)) ?_)
  cases lines with
  | false => exact fun _ _ _ => fails_fail _
  | true =>
      intro rejected inside remains
      refine (fails_bind _ _ _).mpr (Or.inl (miss_newlines ?_ inside (remains rfl)))
      exact ((fails_bind _ _ _).mp rejected).resolve_right fun made => absurd made (by simp)

end Separators

section Terms

-- What stands behind a list: its last chain ends, and nothing of the tail can go on with it.
def Tails.Ends (T : Tails) (lines : Bool) (c : Cursor) : Prop :=
  EndsChain c.rest ∧ (lines = true → c.rest ≠ T.old)

theorem open_of_ends (ends : T.Ends lines c) : T.Open lines c := ⟨not_stuck_of_halts ends.1.halts, ends.2⟩

theorem node_separated (kind : Separator) (node : Node) :
    T.node (separatedNode kind node) = separatedNode kind (T.node node) := by
  cases kind <;> simp [separatedNode]

theorem open_at_chain (read : (call .andOr).Reads c node d) (inside : T.Inside d) : T.Open true c := by
  have moves : (call .andOr).Moves := call_moves and_or_moves
  refine open_of_moves (fun stuck => ?_) moves read inside
  exact not_fails_of_gives read (Barred.rejects_chain (Or.inr (Or.inr stuck)))

theorem chain_rejects_there (halts : Halts c.rest) (inside : T.Inside c) : (call .andOr).Rejects (T.there c) :=
  chain_rejects_at_halt ((halts_is_local.there inside).mpr halts)

theorem more_term_there (chain : CarriesOver T .andOr c) (read : (term lines).Reads c (.more node) d)
    (inside : T.Inside d) (here : T.Open lines d) :
    (term lines).Reads (T.there c) (.more (T.node node)) (T.there d) ∧ T.Open lines c := by
  obtain ⟨first, e, kind, given, separated, rfl⟩ := more_term_form read
  obtain ⟨separatedThere, ends⟩ := carry_separator kind d separated inside here
  have atSeparator := inside_before inside (reads_forward separated)
  have solid := open_at_chain given atSeparator
  rw [node_separated]
  exact ⟨reads_more_term (chain first e given atSeparator ends).1 separatedThere, solid.1, fun _ => solid.2 rfl⟩

theorem last_term_there {turn : Turn Node} (chain : CarriesOver T .andOr c) (read : (term lines).Reads c turn d)
    (last : ∀ value, turn ≠ .more value) (inside : T.Inside d) (ends : T.Ends lines d) :
    (term lines).Reads (T.there c) (mapTurn T.node turn) (T.there d) ∧ T.Open lines c := by
  cases term_form read with
  | stop =>
      refine ⟨reads_bind (reads_missed (chain_rejects_there ends.1.halts inside)) (reads_pure _ _), ?_⟩
      exact open_of_ends ends
  | last given none =>
      have solid := open_at_chain given inside
      refine ⟨reads_last_term (chain _ d given inside ends.1).1 (miss_separator none inside ends.2), ?_⟩
      exact ⟨solid.1, fun _ => solid.2 rfl⟩
  | background | sequential => exact absurd rfl (last _)

theorem rejects_term_list (noChain : (call .andOr).Rejects c) : (termList lines).Rejects c := by
  have stop : (term lines).Reads c .stop c := reads_bind (reads_missed noChain) (reads_pure _ _)
  rw [termList, Rejects, fails_bind]
  exact Or.inr ⟨[], c, reads_rounds (.stop stop), fails_fail c⟩

theorem term_list_moves : (termList lines).Moves :=
  moves_of_advances (term_list_advances attained_forward attained_advance lines)

theorem carry_term_list (chains : ChainsCarryOver T c) :
    T.Carry (T.Open true) (T.Ends lines) (termList lines) (termList lines) T.node c := by
  have carry : T.Carry (T.Open lines) (T.Ends lines) (termList lines) (termList lines) T.node c := by
    refine carry_bind (f := List.map T.node) (R := T.Ends lines) (S := T.Ends lines) ?_ (fun _ ends => ends) ?_
    · refine carry_rounds (term_moves lines) ?_ ?_
      · exact fun e _ _ suffix => more_term_there (chains e suffix)
      · exact fun e _ _ suffix => last_term_there (chains e suffix)
    · intro terms e _
      match terms with
      | [] => exact carry_fail
      | [only] => exact carry_pure rfl
      | first :: second :: others => exact carry_pure (node_of_nodes _ _)
  refine carry.start fun list d read inside _ _ => open_of_moves ?_ term_list_moves read inside
  exact fun stuck => not_fails_of_gives read (rejects_term_list (Barred.rejects_chain (Or.inr (Or.inr stuck))))

theorem carry_compound_list (chains : ChainsCarryOver T c) :
    T.Carry (T.Open true) (T.Ends true) compoundList compoundList T.node c := by
  refine carry_nested (carry_atomic (carry_then carry_line_break fun _ d broken => ?_))
  exact carry_term_list (chains.behind (reads_forward broken))

theorem rejects_compound_list_there (halts : Halts c.pastBreak.rest) (inside : T.Inside c.pastBreak)
    (here : T.Open true c.pastBreak) : compoundList.Rejects (T.there c) := by
  apply rejects_compound_list_at_halt
  rw [past_break_there inside here.1 (here.2 rfl)]
  exact (halts_is_local.there inside).mpr halts

end Terms

section Commands

theorem carry_complete_command (chains : ChainsCarryOver T c) :
    T.Carry (T.Open true) (T.Ends false) completeCommand completeCommand T.node c :=
  carry_then (carry_term_list chains) fun _ _ _ => carry_pure (node_wrap _ _)

theorem complete_command_moves : completeCommand.Moves :=
  moves_of_advances (complete_command_advances attained_forward attained_advance)

theorem next_command_moves : nextCommand.Moves := first_moves newlines_move

theorem ends_chain_at_break (newline : c.rest.head? = some '\n') : EndsChain c.rest :=
  ends_chain_of_head newline (halts_of_head newline (by decide)) (Or.inl (by decide))

theorem carry_next_command (chains : ChainsCarryOver T c) :
    T.Carry (T.Ends false) (T.Ends false) nextCommand nextCommand T.node c := by
  have carry : T.Carry (T.Open true) (T.Ends false) nextCommand nextCommand T.node c :=
    carry_then carry_newlines fun _ _ broken =>
      carry_complete_command (chains.behind (reads_forward broken))
  exact carry.start fun _ _ read _ _ _ => ⟨ends_chain_at_break (next_command_form read).1, nofun⟩

theorem complete_commands_there {first : Node} {others more : List Node} {e : Cursor}
    (chains : ChainsCarryOver T c) (read : completeCommands.Reads c (first :: others) d) (inside : T.Inside d)
    (ends : EndsChain d.rest) (behind : Items (reading grammar) nextCommand (T.there d) more e) :
    completeCommands.Reads (T.there c) (T.node first :: (others.map T.node ++ more)) e ∧ T.Open true c := by
  cases complete_commands_form read with
  | @some f _ _ _ given items =>
      have suffix := reads_forward given
      have atNext := inside_before inside (reads_forward ((gives_many _ _ _ _).mpr items))
      obtain ⟨itemsThere, starts⟩ := items_there next_command_moves
        (fun g within => carry_next_command (chains.behind (within.trans suffix))) items inside ⟨ends, nofun⟩ behind
      obtain ⟨command, here⟩ := carry_complete_command chains first f given atNext starts
      exact ⟨reads_bind (reads_tried command) (reads_bind (reads_many itemsThere) (reads_pure _ _)), here⟩

theorem rejects_next_command_there (halts : Halts c.pastBreak.rest) (inside : T.Inside c.pastBreak)
    (here : T.Open true c.pastBreak) : nextCommand.Rejects (T.there c) := by
  have behind : c.pastBreak.rest <:+ c.rest := reads_forward ((gives_line_break c _ ()).mpr rfl)
  have remains := remains_before inside behind (here.2 rfl)
  have before := inside_before inside behind
  by_cases newline : c.rest.head? = some '\n'
  · rw [Cursor.pastBreak, if_pos newline] at halts inside here
    have broken : newlines.Reads c () c.pastLines := (gives_newlines _ _ _).mpr ⟨newline, rfl⟩
    refine (fails_bind _ _ _).mpr (Or.inr ⟨(), _, (carry_newlines () _ broken inside here).1, ?_⟩)
    exact rejects_complete_command_at_halt ((halts_is_local.there inside).mpr halts)
  · exact (fails_bind _ _ _).mpr (Or.inl (miss_newlines ((fails_newlines _).mpr newline) before remains))

theorem carry_complete_commands (chains : ChainsCarryOver T c) :
    T.Carry (T.Open true) (fun d => T.Ends true d ∧ nextCommand.Rejects (T.there d))
      completeCommands completeCommands (List.map T.node) c := by
  rintro commands d read inside ⟨ends, stops⟩
  cases commands with
  | nil =>
      cases complete_commands_form read with
      | none =>
          have halts : Halts (T.there c).rest := (halts_is_local.there inside).mpr ends.1.halts
          refine ⟨?_, open_of_ends ends⟩
          exact reads_bind (reads_missed (rejects_complete_command_at_halt halts)) (reads_pure _ _)
  | cons first others =>
      obtain ⟨readThere, here⟩ := complete_commands_there chains read inside ends.1 (.stop stops)
      rw [List.append_nil] at readThere
      exact ⟨readThere, here⟩

end Commands

end ShellLine.Followed
