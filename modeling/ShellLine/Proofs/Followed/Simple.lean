import ShellLine.Proofs.Closure.Simple
import ShellLine.Proofs.Followed.Words

set_option autoImplicit false

namespace ShellLine.Followed

open ShellLine.Parser Grammar Closure

variable {T : Tails} {c d : Cursor} {node : Node}

section Redirections

theorem describes_is_local : Local Describes := by
  intro text tail apart
  rw [Describes, Describes, take_while_apart apart (by decide), drop_while_apart apart (by decide)]
  exact and_congr_right fun _ =>
    or_congr (head_is_local (by decide) _ tail apart) (head_is_local (by decide) _ tail apart)

theorem carry_descriptor :
    T.Carry (fun _ => True) (fun _ => True) redirectedDescriptor redirectedDescriptor T.node c := by
  intro node d read inside _
  have before := inside_before inside (reads_forward read)
  obtain ⟨describes, rfl, rfl⟩ := reads_descriptor_iff.mp read
  have same := ((take_while_is_local (by decide) (c.rest.takeWhile Char.isDigit)).there before).mpr rfl
  refine ⟨reads_descriptor_iff.mpr ⟨(describes_is_local.there before).mpr describes, ?_, ?_⟩, trivial⟩
  · rw [node_leaf, same]
  · rw [same]
    exact (there_advance (take_while_within Char.isDigit c.rest) inside).symm

theorem miss_descriptor : T.Miss (fun _ => True) redirectedDescriptor redirectedDescriptor c :=
  fun rejected inside _ => rejects_descriptor_iff.mpr fun describes =>
    rejects_descriptor_iff.mp rejected ((describes_is_local.there inside).mp describes)

theorem carry_described : T.Carry (fun _ => True) (fun _ => True) (attempt redirectedDescriptor)
    (attempt redirectedDescriptor) (Option.map T.node) c :=
  carry_attempt carry_descriptor miss_descriptor fun here => here

theorem redirection_operators_on_one_line : ∀ pair ∈ redirectionOperators, '\n' ∉ pair.1.toList := by decide

theorem mark_there (inside : T.Inside c) :
    c.left - Text.byteLength T.old + Text.byteLength T.new = (T.there c).left := by
  have same := left_there inside
  have bound := tail_le_left inside
  omega

theorem redirection_carries_over (ahead : Ahead T c) : CarriesOver T .redirection c := by
  refine carry_call (carry_then (S := fun _ => True) carry_described fun described e tried => ?_)
  refine carry_place fun inside => ?_
  refine carry_bind (S := fun d => ¬ Stuck d) (carry_literal_among redirection_operators_on_one_line)
    (fun _ _ => trivial) fun kind f found => ?_
  refine carry_then (S := fun d => ¬ Stuck d) carry_blanks fun _ g blank => ?_
  have atTarget : Ahead T g := ((ahead.past tried).past found).past blank
  refine carry_then (carry_free_word (word_carries_over atTarget)) fun target h _ => ?_
  refine carry_pure ?_
  have marked : T.node ⟨kind, .ofNodes [target], if kind.isHereDocument then some e.left else none⟩ =
      ⟨kind, .ofNodes [T.node target], if kind.isHereDocument then some (T.there e).left else none⟩ := by
    rw [Tails.node, Node.moved, Kind.moveMark, moved_row, ← mark_there inside]
    cases kind.isHereDocument <;> rfl
  rw [node_of_nodes, List.map_append, List.map_cons, List.map_nil, Option.toList_map, marked]
  rfl

structure ClearWithin (T : Tails) (c : Cursor) : Prop where
  free : ¬ Stuck c
  uncut : ¬ RedirectionTo (fun e => ¬ (T.Inside e ∧ ¬ Stuck e)) c

theorem miss_redirection : T.Miss (ClearWithin T) (call .redirection) (call .redirection) c := by
  intro rejected inside clear
  obtain ⟨described, d, tried⟩ : ∃ described d, (attempt redirectedDescriptor).Reads c described d :=
    (gives_or_fails _ _ _).resolve_right (fails_attempt _ _)
  have atOperator : T.Inside d := by
    rcases (gives_attempt _ _ _ _).mp tried with ⟨_, -, given⟩ | ⟨-, -, rfl⟩
    · obtain ⟨-, -, rfl⟩ := reads_descriptor_iff.mp given
      refine inside_of_passed inside ?_ (rest_take_while c Char.isDigit)
      exact fun member => absurd (List.all_eq_true.mp List.all_takeWhile _ member) (by decide)
    · exact inside
  rw [rejects_call] at rejected ⊢
  refine (fails_bind _ _ _).mpr (Or.inr ⟨_, _, (carry_described described d tried atOperator trivial).1, ?_⟩)
  rw [fails_place_bind]
  rcases gives_or_fails (reading grammar) (literalAmong redirectionOperators) d with ⟨kind, e, found⟩ | missing
  · obtain ⟨within, free⟩ : T.Inside e.pastBlanks ∧ ¬ Stuck e.pastBlanks := by
      by_contra leads
      exact clear.uncut ⟨described, d, kind, e, tried, found, leads⟩
    have blank : blanks.Reads e () e.pastBlanks := (gives_blanks _ _ _).mpr rfl
    have noTarget : (call .word).Rejects e.pastBlanks := by
      rcases gives_or_fails (reading grammar) (call .word) e.pastBlanks with ⟨target, f, word⟩ | noWord
      · obtain ⟨node, given⟩ : ∃ node, redirection.Reads c node f :=
          ⟨_, reads_bind tried (reads_bind ((gives_place _ _ _).mpr ⟨rfl, rfl⟩) (reads_bind found
            (reads_bind blank (reads_bind word (reads_pure _ _)))))⟩
        exact absurd rejected (not_fails_of_gives given)
      · exact noWord
    have atEnd := inside_before within (reads_forward blank)
    refine (fails_bind _ _ _).mpr (Or.inr ⟨kind, _,
      (carry_literal_among redirection_operators_on_one_line kind e found atEnd trivial).1, ?_⟩)
    refine (fails_bind _ _ _).mpr (Or.inr ⟨(), _, (carry_blanks () _ blank within free).1, ?_⟩)
    exact (fails_bind _ _ _).mpr (Or.inl (miss_word noTarget within free))
  · exact (fails_bind _ _ _).mpr (Or.inl (miss_literal_among redirection_operators_on_one_line missing atOperator
      trivial))

theorem clear_of_halts_within (halts : Halts c.rest) : ClearWithin T c :=
  ⟨not_stuck_of_halts halts, not_redirection_at_halt halts⟩

theorem clear_of_redirection_within (read : (call .redirection).Reads c node d) (inside : T.Inside d) :
    ClearWithin T c := by
  refine ⟨not_stuck_of_redirection ((reads_call _ _ _ _).mp read), fun leads => ?_⟩
  obtain ⟨e, word, out, given⟩ := target_of_redirection leads read
  exact out ⟨inside_before inside (reads_forward given), not_stuck_of_word ((reads_call _ _ _ _).mp given)⟩

theorem clear_of_word_within (read : (call .word).Reads c node d) (clear : ClearWithin T d) : ClearWithin T c :=
  ⟨not_stuck_of_word ((reads_call _ _ _ _).mp read), fun leads => clear.uncut (word_past_redirection leads read)⟩

theorem carry_redirections (ahead : Ahead T c) :
    T.Carry (fun c => ¬ Stuck c) (fun d => Halts d.rest) (many (call .redirection)) (many (call .redirection))
      (List.map T.node) c := by
  refine carry_many (call_moves redirection_moves) (fun e suffix => ?_) ?_ fun _ => not_stuck_of_halts
  · exact (redirection_carries_over (ahead.behind suffix)).start fun _ _ read _ _ _ =>
      not_stuck_of_redirection ((reads_call _ _ _ _).mp read)
  · exact fun d _ _ inside halts => rejects_redirection_at_halt ((halts_is_local.there inside).mpr halts)

end Redirections

section Simple

theorem carry_assignment (ahead : Ahead T c) :
    T.Carry (fun _ => True) (fun d => ¬ Stuck d) assignment assignment T.node c := by
  refine carry_atomic (carry_then (S := fun _ => True) (carry_name.start fun _ _ _ _ _ _ => trivial)
    fun parameter d named => ?_)
  refine carry_then (S := fun _ => True) (carry_literal (by decide)) fun _ e equals => ?_
  refine carry_then (S := fun d => ¬ Stuck d) (carry_parts ((ahead.past named).past equals) fun _ => miss_free_part)
    fun parts f _ => ?_
  refine carry_then carry_blanks fun _ g _ => carry_pure ?_
  rw [Tails.node, Node.moved, move_no_mark, Forest.moved, moved_row, List.map_cons, List.map_nil, moved_of_nodes]
  rfl

theorem miss_assignment : T.Miss (fun _ => True) assignment assignment c := by
  refine miss_atomic (miss_bind miss_name fun parameter d named rejected inside _ => ?_)
  obtain ⟨-, here⟩ := name_is_plain named
  obtain ⟨-, run, -⟩ := (gives_name _ _ _).mp named
  have within : T.Inside d := by
    refine inside_of_passed inside (fun member => ?_) here
    rw [← run] at member
    exact absurd (List.all_eq_true.mp List.all_takeWhile _ member) (by decide)
  have noEquals : (literal "=").Rejects d := by
    rcases (fails_bind _ _ _).mp rejected with missing | ⟨_, e, -, later⟩
    · exact missing
    · simp [wordParts] at later
  refine (fails_bind _ _ _).mpr (Or.inr ⟨parameter, _, (carry_name parameter d named within trivial).1, ?_⟩)
  exact (fails_bind _ _ _).mpr (Or.inl (miss_literal (by decide) noEquals within trivial))

theorem carry_lead_item (ahead : Ahead T c) :
    T.Carry (ClearWithin T) (ClearWithin T) leadItem leadItem T.node c := by
  intro node d read inside clear
  rcases (gives_or_else _ _ _ _ _).mp read with redirected | ⟨-, assigned⟩
  · exact ⟨reads_first (redirection_carries_over ahead node d redirected inside clear.free).1,
      clear_of_redirection_within redirected inside⟩
  · obtain ⟨parameter, e, named, later⟩ := (gives_bind _ _ _ _ _).mp ((gives_atomic _ _ _ _).mp assigned)
    obtain ⟨namedThere, solid⟩ := carry_name parameter e named (inside_before inside (reads_forward later)) trivial
    obtain ⟨ch, head, noDigit, noInput, noOutput⟩ := head_of_name named
    exact ⟨reads_second (rejects_redirection_at_name namedThere)
      (carry_assignment ahead node d assigned inside clear.free).1,
      solid.1, not_redirection_at head noDigit noInput noOutput⟩

theorem carry_argument_item (ahead : Ahead T c) :
    T.Carry (ClearWithin T) (ClearWithin T) argumentItem argumentItem T.node c := by
  intro node d read inside clear
  rcases (gives_or_else _ _ _ _ _).mp read with redirected | ⟨noRedirection, word⟩
  · exact ⟨reads_first (redirection_carries_over ahead node d redirected inside clear.free).1,
      clear_of_redirection_within redirected inside⟩
  · have start := clear_of_word_within word clear
    exact ⟨reads_second (miss_redirection noRedirection (inside_before inside (reads_forward word)) start)
      (word_carries_over ahead node d word inside clear.free).1, start⟩

theorem carry_lead_items (ahead : Ahead T c) :
    T.Carry (ClearWithin T) (ClearWithin T) (many leadItem) (many leadItem) (List.map T.node) c := by
  refine carry_many lead_item_moves (fun e suffix => carry_lead_item (ahead.behind suffix)) (fun d _ => ?_)
    fun _ clear => clear
  exact miss_or_else miss_redirection fun rejected inside _ => miss_assignment rejected inside trivial

theorem carry_arguments (ahead : Ahead T c) :
    T.Carry (ClearWithin T) (fun d => Halts d.rest) (many argumentItem) (many argumentItem) (List.map T.node) c := by
  refine carry_many argument_item_moves (fun e suffix => carry_argument_item (ahead.behind suffix)) (fun d _ => ?_)
    fun _ => clear_of_halts_within
  refine miss_or_else (fun _ inside halts => ?_) fun rejected inside halts => ?_
  · exact rejects_redirection_at_halt ((halts_is_local.there inside).mpr halts)
  · exact miss_word rejected inside (not_stuck_of_halts halts)

theorem carry_unless_reserved {α β : Type} {P Q : Cursor → Prop} {f : α → β} {no p : Parser α}
    {no' p' : Parser β} (never : ∀ d, no.Rejects d) (carry : T.Carry P Q p p' f c) :
    T.Carry P Q (do if reservedAhead (← look) then no else p)
      (do if reservedAhead (← look) then no' else p') f c := by
  refine carry_look fun inside => ?_
  have same := reserved_ahead_is_local.there inside
  by_cases reserved : reservedAhead c.rest = true
  · rw [if_pos reserved]
    exact fun _ _ read => absurd (never c) (not_fails_of_gives read)
  · rw [if_neg reserved, if_neg (same.not.mpr reserved)]
    exact carry

theorem carry_command_word (ahead : Ahead T c) :
    T.Carry (ClearWithin T) (ClearWithin T) commandWord commandWord T.node c := by
  have carry : T.Carry (fun _ => True) (ClearWithin T) commandWord commandWord T.node c :=
    carry_unless_reserved (fun _ => fails_refuse _ _)
      ((word_carries_over ahead).finish fun _ clear => clear.free)
  exact carry.start fun node d read _ clear _ => clear_of_word_within (command_word_form read).2 clear

theorem miss_command_word : T.Miss (ClearWithin T) commandWord commandWord c := by
  intro rejected inside clear
  rw [commandWord, Rejects, fails_look_bind] at rejected ⊢
  have same := reserved_ahead_is_local.there inside
  by_cases reserved : reservedAhead c.rest = true
  · rw [if_pos (same.mpr reserved)]
    exact fails_refuse _ _
  · rw [if_neg reserved] at rejected
    rw [if_neg (same.not.mpr reserved)]
    exact miss_word rejected inside clear.free

theorem node_lead (items : List Node) : (leadNodes items).map T.node = leadNodes (items.map T.node) := by
  cases items <;> simp [leadNodes]

theorem carry_simple_command (ahead : Ahead T c) :
    T.Carry (ClearWithin T) (fun d => Halts d.rest) simpleCommand simpleCommand T.node c := by
  refine carry_then (S := ClearWithin T) (carry_lead_items ahead) fun items d leads => ?_
  have atWord := ahead.past leads
  refine carry_attempt_bind (S := ClearWithin T) (carry_command_word atWord) (fun _ clear => clear)
    (fun first e named => ?_) miss_command_word (fun clear => clear) fun _ => ?_
  · refine carry_then (S := fun d => Halts d.rest) (carry_arguments (atWord.past named))
      fun others f _ => carry_pure ?_
    have row := node_lead (T := T) items
    rw [leadNodes, leadNodes] at row
    rw [node_of_nodes, List.map_append, List.map_cons, row]
  · have missed : T.Carry (fun d => Halts d.rest) (fun d => Halts d.rest)
        (if items = [] then fail else return .ofNodes .simpleCommand (leadNodes items))
        (if items.map T.node = [] then fail else return .ofNodes .simpleCommand (leadNodes (items.map T.node)))
        T.node d := by
      cases items with
      | nil => exact carry_fail
      | cons first others => exact carry_pure (by rw [node_of_nodes, node_lead])
    exact missed.start fun _ _ _ _ _ => clear_of_halts_within

end Simple

end ShellLine.Followed
