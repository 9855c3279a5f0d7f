import ShellLine.Proofs.Closure.Ends

set_option autoImplicit false

namespace ShellLine.Closure

open ShellLine.Parser Grammar

variable {c d : Cursor}

section Runs

theorem reads_skip_closed {count : Nat} (within : count ≤ c.rest.length) :
    (skip count).Reads (closed c) () (closed (c.advance count)) :=
  (gives_skip _ _ _ _).mpr (closed_advance within)

theorem moved_join_texts (move : Nat → Nat) (children : List Child) :
    (joinTexts children).moved move = joinTexts (children.map (Child.moved move)) := by
  induction children with
  | nil => rfl
  | cons child others ih =>
      cases child with
      | node inner =>
          rw [List.map_cons, joinTexts, moved_cons, ih]
          · rfl
          · simp
      | list items =>
          rw [List.map_cons, joinTexts, moved_cons, ih]
          · rfl
          · simp
      | text chars =>
          rw [List.map_cons, Child.moved, joinTexts, joinTexts, ← ih]
          cases joinTexts others with
          | text more rest => rfl
          | nil | node | list =>
              simp only [Forest.moved]
              split <;> rfl

theorem moved_quoted (move : Nat → Nat) (kind : Kind) (children : List Child) :
    (quotedNode kind children).moved move = quotedNode kind (children.map (Child.moved move)) := by
  rw [quotedNode, Node.moved, move_no_mark, moved_join_texts]
  rfl

theorem shifted_quoted (kind : Kind) (children : List Child) :
    (quotedNode kind children).shifted = quotedNode kind (children.map Child.shifted) := by
  rw [shifted_is_moved, moved_quoted, shifted_child_is_moved]

end Runs

section Backquotes

variable {inDoubleQuote : Bool} {turn : Turn Child}

def isBackquotedEscape (inDoubleQuote : Bool) (ch : Char) : Bool :=
  ch = backtick ∨ ch = '$' ∨ ch = '\\' ∨ inDoubleQuote ∧ ch = '"'

def isBackquotedText (ch : Char) : Bool := ch ≠ backtick && ch ≠ '\\'

inductive TickTurn (inDoubleQuote : Bool) (c : Cursor) : Turn Child → Cursor → Prop
  | close {d : Cursor} (here : c.rest = backtick :: d.rest) : TickTurn inDoubleQuote c .stop d
  | run {d : Cursor} {chars : List Char} (nonempty : chars ≠ [])
      (plain : ∀ ch ∈ chars, isBackquotedText ch = true)
      (ends : ∀ ch, d.rest.head? = some ch → isBackquotedText ch = false)
      (here : c.rest = chars ++ d.rest) : TickTurn inDoubleQuote c (.more (.text chars)) d
  | kept {d : Cursor} (here : c.rest = '\\' :: d.rest)
      (other : ∀ ch, d.rest.head? = some ch → isBackquotedEscape inDoubleQuote ch = false) :
      TickTurn inDoubleQuote c (.more (.text ['\\'])) d
  | escape {d : Cursor} {ch : Char} (escaped : isBackquotedEscape inDoubleQuote ch = true)
      (here : c.rest = '\\' :: ch :: d.rest) :
      TickTurn inDoubleQuote c (.more (.node (.leaf .backquotedEscape [ch]))) d

theorem tick_turn_of_reads (read : (backquotedPart inDoubleQuote).Reads c turn d) :
    TickTurn inDoubleQuote c turn d := by
  rw [backquotedPart, Reads, gives_look_bind] at read
  split at read
  · simp at read
  · rename_i rest here
    split at read
    · rename_i ch head
      obtain ⟨others, rfl⟩ := List.head?_eq_some_iff.mp head
      split at read
      · rename_i escaped
        simp only [gives_bind, gives_skip, gives_pure] at read
        obtain ⟨_, _, rfl, rfl, rfl⟩ := read
        exact .escape (by simpa [isBackquotedEscape] using escaped) (by rw [rest_skip_pair here]; exact here)
      · rename_i kept
        simp only [gives_bind, gives_skip, gives_pure] at read
        obtain ⟨_, _, rfl, rfl, rfl⟩ := read
        have after := rest_skip_cons here
        refine .kept (by rw [after]; exact here) ?_
        rw [after]
        rintro _ ⟨rfl⟩
        simpa [isBackquotedEscape] using kept
    · rename_i none
      rw [List.head?_eq_none_iff] at none
      subst none
      simp only [gives_bind, gives_skip, gives_pure] at read
      obtain ⟨_, _, rfl, rfl, rfl⟩ := read
      have after := rest_skip_cons here
      exact .kept (by rw [after]; exact here) (by simp [after])
  · rename_i ch rest noEscape here
    split at read
    · rename_i tick
      simp only [gives_bind, gives_skip, gives_pure] at read
      obtain ⟨_, _, rfl, rfl, rfl⟩ := read
      exact .close (by rw [rest_skip_cons here, ← tick]; exact here)
    · rename_i tick
      simp only [gives_bind, gives_pure] at read
      obtain ⟨chars, e, taken, rfl, rfl⟩ := read
      obtain ⟨whole, plain, ends⟩ := take_while_form taken
      have first : isBackquotedText ch = true := by simp_all [isBackquotedText]
      exact .run (taken_nonempty whole ends (by rw [here]; rfl) first) plain ends whole

theorem reads_of_tick_turn (form : TickTurn inDoubleQuote c turn d) :
    (backquotedPart inDoubleQuote).Reads c turn d := by
  cases form with
  | close here =>
      rw [Cursor.eq_start here]
      simp [backquotedPart, backtick, Cursor.ext_rest (.start d.rest) d rfl]
  | run nonempty plain ends here =>
      obtain ⟨first, others, rfl⟩ := List.exists_cons_of_ne_nil nonempty
      have text := plain first (List.mem_cons_self ..)
      have noTick : first ≠ backtick := by
        rintro rfl
        simp [isBackquotedText] at text
      have noEscape : first ≠ '\\' := by
        rintro rfl
        simp [isBackquotedText] at text
      have passed := take_while_stops plain ends
      have run : ((takeWhile fun c => c ≠ backtick && c ≠ '\\') >>= fun chars =>
          pure (Turn.more (Child.text chars))).Reads c (.more (.text (first :: others))) d := by
        refine reads_bind ((gives_take_while _ _ _ _).mpr ?_) (reads_pure _ _)
        change c.rest.takeWhile isBackquotedText = _ ∧
          c.advance (c.rest.takeWhile isBackquotedText).length = d
        rw [here, passed]
        exact ⟨rfl, Cursor.ext_rest _ _ (c.rest_advance_append _ _ here)⟩
      rw [backquotedPart, Reads, gives_look_bind, here, List.cons_append]
      split
      case h_1 => contradiction
      case h_2 same => cases same; exact absurd rfl noEscape
      case h_3 same =>
        cases same
        rw [if_neg noTick]
        exact run
  | kept here other =>
      rw [Cursor.eq_start here]
      cases rest : d.rest with
      | nil => simp [backquotedPart, Cursor.ext_rest (.start []) d rest.symm]
      | cons ch others =>
          have plain := other ch (by rw [rest]; rfl)
          have kept : ¬ (ch = backtick ∨ ch = '$' ∨ ch = '\\' ∨ inDoubleQuote ∧ ch = '"') := by
            simpa [isBackquotedEscape] using plain
          simp [backquotedPart, kept, Cursor.ext_rest (.start (ch :: others)) d rest.symm]
  | @escape _ ch escaped here =>
      rw [Cursor.eq_start here]
      have special : ch = backtick ∨ ch = '$' ∨ ch = '\\' ∨ inDoubleQuote ∧ ch = '"' := by
        simpa [isBackquotedEscape] using escaped
      simp [backquotedPart, special, Cursor.ext_rest (.start d.rest) d rfl]

theorem tick_turn_remains (form : TickTurn inDoubleQuote c turn d) : c.rest ≠ [] := by
  cases form with
  | run nonempty _ _ here => simp [here, nonempty]
  | close here | kept here | escape _ here => simp [here]

theorem tick_turn_moves {child : Child} (form : TickTurn inDoubleQuote c (.more child) d) :
    d.left < c.left := by
  cases form with
  | run nonempty _ _ here => exact c.left_lt_of_passed d _ nonempty here
  | kept here _ => exact c.left_lt_of_passed d ['\\'] (List.cons_ne_nil _ _) here
  | @escape _ ch _ here => exact c.left_lt_of_passed d ['\\', ch] (List.cons_ne_nil _ _) here

theorem tick_turn_closed (form : TickTurn inDoubleQuote c turn d) (inside : d.rest ≠ [] ∨ turn = .stop) :
    TickTurn inDoubleQuote (closed c) (mapTurn Child.shifted turn) (closed d) := by
  have sameHead : d.rest ≠ [] → (closed d).rest.head? = d.rest.head? := head_of_nonempty
  cases form with
  | close here => exact .close (by rw [closed_rest, here]; rfl)
  | run nonempty plain ends here =>
      refine .run nonempty plain ?_ (by rw [closed_rest, here, closed_rest, List.append_assoc])
      rwa [sameHead (inside.resolve_right nofun)]
  | kept here other =>
      refine .kept (by rw [closed_rest, here]; rfl) ?_
      rwa [sameHead (inside.resolve_right nofun)]
  | escape escaped here =>
      rw [mapTurn, Child.shifted, shifted_leaf]
      exact .escape escaped (by rw [closed_rest, here]; rfl)

theorem reads_backquote_closed {node : Node} (remains : c.rest ≠ [])
    (read : (backquote inDoubleQuote).Reads c node d) :
    (backquote inDoubleQuote).Reads (closed c) node.shifted (closed d) := by
  obtain ⟨parts, turns, rfl⟩ := backquote_form read
  have same : (closed c).advance 1 = closed (c.advance 1) :=
    closed_advance (List.length_pos_iff.mpr remains)
  rw [shifted_quoted]
  simp only [backquote, Reads, gives_atomic, gives_bind, gives_skip, gives_rounds, gives_pure]
  refine ⟨(), _, same, _, _, ?_, rfl, rfl⟩
  refine (turns_closed (P := fun e => e.rest ≠ [])
    (fun _ _ _ read => tick_turn_moves (tick_turn_of_reads read)) ?_ ?_ turns).1
  · intro e child f _ read inside
    have form := tick_turn_of_reads read
    exact ⟨reads_of_tick_turn (tick_turn_closed form (Or.inl inside)), tick_turn_remains form⟩
  · intro e next _ read last
    have form := tick_turn_of_reads read
    have stop : next = .stop := by
      cases form with
      | close => rfl
      | run | kept | escape => exact absurd rfl (last _)
    exact ⟨reads_of_tick_turn (tick_turn_closed form (Or.inr stop)), tick_turn_remains form⟩

end Backquotes

section DoubleQuotes

variable {turn : Turn Child}

theorem reads_of_quoted_form (form : QuotedForm (reading grammar) c turn d) :
    doubleQuotedPart.Reads c turn d := by
  cases form with
  | close here =>
      rw [Cursor.eq_start here]
      simp [doubleQuotedPart, Cursor.ext_rest (.start d.rest) d rfl]
  | run nonempty plain ends here =>
      rw [Cursor.eq_start here, Cursor.ext_rest d (.start d.rest) rfl]
      exact reads_double_run nonempty plain ends
  | kept here other =>
      rw [Cursor.eq_start here]
      cases rest : d.rest with
      | nil => simp [doubleQuotedPart, Cursor.ext_rest (.start []) d rest.symm]
      | cons ch others =>
          obtain ⟨plain, sameLine⟩ := other ch (by rw [rest]; rfl)
          have kept : ¬ (ch = '$' ∨ ch = backtick ∨ ch = '"' ∨ ch = '\\') := by
            simpa [isDoubleQuotedEscape] using plain
          simp [doubleQuotedPart, kept, sameLine, Cursor.ext_rest (.start (ch :: others)) d rest.symm]
  | @escape _ ch escaped here =>
      rw [Cursor.eq_start here]
      have special : ch = '$' ∨ ch = backtick ∨ ch = '"' ∨ ch = '\\' := by
        simpa [isDoubleQuotedEscape] using escaped
      simp [doubleQuotedPart, special, Cursor.ext_rest (.start d.rest) d rfl]
  | joined here =>
      rw [Cursor.eq_start here]
      simp [doubleQuotedPart, backtick, Cursor.ext_rest (.start d.rest) d rfl]
  | dollar head given =>
      obtain ⟨rest, here⟩ := List.head?_eq_some_iff.mp head
      rw [doubleQuotedPart, Reads, gives_look_bind, here]
      exact reads_bind given (reads_pure _ _)
  | tick head given =>
      obtain ⟨rest, here⟩ := List.head?_eq_some_iff.mp head
      rw [doubleQuotedPart, Reads, gives_look_bind, here]
      exact reads_bind given (reads_pure _ _)

theorem quoted_form_remains (form : QuotedForm (reading grammar) c turn d) : c.rest ≠ [] := by
  cases form with
  | run nonempty _ _ here => simp [here, nonempty]
  | close here | kept here | escape _ here | joined here => simp [here]
  | dollar head | tick head => exact ne_nil_of_head head

theorem quoted_form_closed
    (dollar : ∀ node, c.rest.head? = some '$' → dollarExpansion.Reads c node d →
      dollarExpansion.Reads (closed c) node.shifted (closed d))
    (form : QuotedForm (reading grammar) c turn d) (inside : d.rest ≠ [] ∨ turn = .stop) :
    QuotedForm (reading grammar) (closed c) (mapTurn Child.shifted turn) (closed d) := by
  have sameHead : d.rest ≠ [] → (closed d).rest.head? = d.rest.head? := head_of_nonempty
  cases form with
  | close here => exact .close (by rw [closed_rest, here]; rfl)
  | run nonempty plain ends here =>
      refine .run nonempty plain ?_ (by rw [closed_rest, here, closed_rest, List.append_assoc])
      rwa [sameHead (inside.resolve_right nofun)]
  | kept here other =>
      refine .kept (by rw [closed_rest, here]; rfl) ?_
      rwa [sameHead (inside.resolve_right nofun)]
  | escape escaped here =>
      rw [mapTurn, Child.shifted, shifted_leaf]
      exact .escape escaped (by rw [closed_rest, here]; rfl)
  | joined here =>
      rw [mapTurn, Child.shifted, shifted_leaf]
      exact .joined (by rw [closed_rest, here]; rfl)
  | dollar head given => exact .dollar ((head_closed (by decide)).mpr head) (dollar _ head given)
  | tick head given =>
      exact .tick ((head_closed (by decide)).mpr head) (reads_backquote_closed (ne_nil_of_head head) given)

theorem reads_double_quote_closed {node : Node} (remains : c.rest ≠ [])
    (dollar : ∀ e f node, e.rest <:+ (c.advance 1).rest → e.rest.head? = some '$' →
      dollarExpansion.Reads e node f → dollarExpansion.Reads (closed e) node.shifted (closed f))
    (read : doubleQuote.Reads c node d) : doubleQuote.Reads (closed c) node.shifted (closed d) := by
  simp only [doubleQuote, Reads, gives_atomic, gives_bind, gives_skip, gives_rounds, gives_pure] at read ⊢
  obtain ⟨_, _, rfl, parts, last, turns, rfl, rfl⟩ := read
  rw [shifted_quoted]
  refine ⟨(), _, closed_advance (List.length_pos_iff.mpr remains), _, _, ?_, rfl, rfl⟩
  have moves : ∀ e child f, doubleQuotedPart.Reads e (.more child) f → f.left < e.left :=
    fun _ _ _ read => quoted_turn_moves (reads_double_quoted_part read)
  refine (turns_closed (P := fun e => e.rest ≠ []) moves ?_ ?_ turns).1
  · intro e child f suffix read inside
    have form := double_quoted_part_form read
    have same := quoted_form_closed (fun node => dollar e f node suffix) form (Or.inl inside)
    exact ⟨reads_of_quoted_form same, quoted_form_remains form⟩
  · intro e next suffix read noMore
    have form := double_quoted_part_form read
    have stop : next = .stop := by
      cases form with
      | close => rfl
      | run | kept | escape | joined | dollar | tick => exact absurd rfl (noMore _)
    have same := quoted_form_closed (fun node => dollar e last node suffix) form (Or.inr stop)
    exact ⟨reads_of_quoted_form same, quoted_form_remains form⟩

theorem reads_double_quote {parts : List Child}
    (turns : Turns (reading grammar) doubleQuotedPart (c.advance 1) parts d) :
    doubleQuote.Reads c (quotedNode .doubleQuote parts) d := by
  simp only [doubleQuote, Reads, gives_atomic, gives_bind, gives_skip, gives_rounds, gives_pure]
  exact ⟨(), _, rfl, parts, d, turns, rfl, rfl⟩

end DoubleQuotes

end ShellLine.Closure
