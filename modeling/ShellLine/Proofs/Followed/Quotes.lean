import ShellLine.Proofs.Closure.Words
import ShellLine.Proofs.Followed.Lists

set_option autoImplicit false

namespace ShellLine.Followed

open ShellLine.Parser Grammar Closure

variable {T : Tails} {c d : Cursor} {node : Node}

section Quotes

variable {inDoubleQuote : Bool} {turn : Turn Child}

theorem tick_turn_there (form : TickTurn inDoubleQuote c turn d) (inside : T.Inside d)
    (remains : d.rest ≠ T.old ∨ turn = .stop) :
    TickTurn inDoubleQuote (T.there c) (mapTurn T.child turn) (T.there d) := by
  cases form with
  | close here => exact .close (passed_there [backtick] inside here)
  | @run _ chars nonempty plain ends here =>
      refine .run nonempty plain ?_ (passed_there chars inside here)
      rwa [head_there inside (remains.resolve_right nofun)]
  | kept here other =>
      refine .kept (passed_there ['\\'] inside here) ?_
      rwa [head_there inside (remains.resolve_right nofun)]
  | @escape _ ch escaped here =>
      have same : T.child (.node (.leaf .backquotedEscape [ch])) = .node (.leaf .backquotedEscape [ch]) :=
        congrArg Child.node (node_leaf _ _)
      rw [mapTurn, same]
      exact .escape escaped (passed_there ['\\', ch] inside here)

theorem carry_backquote (remains : c.rest ≠ []) :
    T.Carry (fun _ => True) (fun _ => True) (backquote inDoubleQuote) (backquote inDoubleQuote) T.node c := by
  have turns : ∀ e, T.Carry (fun e => e.rest ≠ T.old) (fun _ => True)
      (rounds (backquotedPart inDoubleQuote)) (rounds (backquotedPart inDoubleQuote)) (List.map T.child) e := by
    intro e
    refine carry_rounds (fun _ _ _ read => tick_turn_moves (tick_turn_of_reads read)) ?_ ?_
    · intro e child f _ read inside more
      have form := tick_turn_of_reads read
      exact ⟨reads_of_tick_turn (tick_turn_there form inside (Or.inl more)),
        remains_of_moved (tick_turn_moves form) inside⟩
    · intro e next f _ read last inside _
      have form := tick_turn_of_reads read
      cases form with
      | close here =>
          have moved := e.left_lt_of_passed f [backtick] (List.cons_ne_nil _ _) here
          exact ⟨reads_of_tick_turn (tick_turn_there (.close here) inside (Or.inr rfl)), remains_of_moved moved inside⟩
      | run | kept | escape => exact absurd rfl (last _)
  refine carry_atomic (carry_bind (S := fun e => e.rest ≠ T.old) (carry_skip (List.length_pos_iff.mpr remains))
    (fun _ _ => trivial) fun _ d _ => ?_)
  exact carry_then (turns d) fun parts _ _ => carry_pure (moved_quoted _ _ parts)

theorem quoted_form_there
    (dollar : c.rest.head? = some '$' →
      T.Carry (fun _ => True) (fun _ => True) dollarExpansion dollarExpansion T.node c)
    (form : QuotedForm (reading grammar) c turn d) (inside : T.Inside d) (remains : d.rest ≠ T.old ∨ turn = .stop) :
    QuotedForm (reading grammar) (T.there c) (mapTurn T.child turn) (T.there d) := by
  have kept : ∀ {kind : Kind} {chars : List Char},
      T.child (.node (.leaf kind chars)) = .node (.leaf kind chars) :=
    fun {_ _} => congrArg Child.node (node_leaf _ _)
  have before : ∀ {ch : Char}, ch ≠ '\n' → T.Inside c → c.rest.head? = some ch →
      (T.there c).rest.head? = some ch := fun other here => ((head_is_local other).there here).mpr
  cases form with
  | close here => exact .close (passed_there ['"'] inside here)
  | @run _ chars nonempty plain ends here =>
      refine .run nonempty plain ?_ (passed_there chars inside here)
      rwa [head_there inside (remains.resolve_right nofun)]
  | kept here other =>
      refine .kept (passed_there ['\\'] inside here) ?_
      rwa [head_there inside (remains.resolve_right nofun)]
  | @escape _ ch escaped here =>
      rw [mapTurn, kept]
      exact .escape escaped (passed_there ['\\', ch] inside here)
  | joined here =>
      rw [mapTurn, kept]
      exact .joined (passed_there ['\\', '\n'] inside here)
  | dollar head given =>
      have start := before (by decide) (inside_before inside (reads_forward given)) head
      exact .dollar start (dollar head _ _ given inside trivial).1
  | tick head given =>
      have start := before (by decide) (inside_before inside (reads_forward given)) head
      exact .tick start (carry_backquote (ne_nil_of_head head) _ _ given inside trivial).1

theorem carry_double_quote (remains : c.rest ≠ [])
    (dollar : ∀ e, e.rest <:+ (c.advance 1).rest → e.rest.head? = some '$' →
      T.Carry (fun _ => True) (fun _ => True) dollarExpansion dollarExpansion T.node e) :
    T.Carry (fun _ => True) (fun _ => True) doubleQuote doubleQuote T.node c := by
  refine carry_atomic (carry_bind (S := fun e => e.rest ≠ T.old) (carry_skip (List.length_pos_iff.mpr remains))
    (fun _ _ => trivial) fun _ d skipped => ?_)
  obtain rfl := (gives_skip _ _ _ _).mp skipped
  refine carry_bind (f := List.map T.child) (R := fun _ => True) ?_ (fun _ here => here)
    fun parts _ _ => carry_pure (moved_quoted _ _ parts)
  have moves : ∀ e child f, doubleQuotedPart.Reads e (.more child) f → f.left < e.left :=
    fun _ _ _ read => quoted_turn_moves (reads_double_quoted_part read)
  refine carry_rounds moves ?_ ?_
  · intro e child f suffix read inside more
    have same := quoted_form_there (dollar e suffix) (double_quoted_part_form read) inside (Or.inl more)
    exact ⟨reads_of_quoted_form same, remains_of_moved (moves e child f read) inside⟩
  · intro e next f suffix read last inside _
    have form := double_quoted_part_form read
    cases form with
    | close here =>
        have same := quoted_form_there (T := T) (dollar e suffix) (.close here) inside (Or.inr rfl)
        have moved := e.left_lt_of_passed f ['"'] (List.cons_ne_nil _ _) here
        exact ⟨reads_of_quoted_form same, remains_of_moved moved inside⟩
    | run | kept | escape | joined | dollar | tick => exact absurd rfl (last _)

end Quotes

section Parameters

theorem carry_refuse {α β : Type} {P Q : Cursor → Prop} {f : α → β} (e e' : Expected) :
    T.Carry P Q (refuse e : Parser α) (refuse e' : Parser β) f c :=
  fun _ _ read _ _ => absurd read (gives_refuse _ _ _ _)

theorem carry_name_or (e : Expected) :
    T.Carry (fun _ => True) (fun _ => True) (name <|> refuse e) (name <|> refuse e) id c :=
  carry_or_else (carry_name.start fun _ _ _ _ _ _ => trivial) miss_name (carry_refuse e e) (fun here => here)

theorem rejects_name_at_tail (here : c.rest = T.old) : name.Rejects c := by
  rw [Rejects, fails_name, here]
  rcases apart_cases T.oldApart with empty | ⟨others, newline⟩
  · rw [empty]
    rfl
  · rw [newline]
    exact (by decide : startsName '\n' = false)

theorem carry_braced_parameter :
    T.Carry (fun _ => True) (fun _ => True) bracedParameter bracedParameter id c := by
  intro chars d read inside _
  refine ⟨?_, trivial⟩
  have named : (name <|> refuse (.token .parameter)).Reads c chars d →
      (name <|> refuse (.token .parameter)).Reads (T.there c) chars (T.there d) :=
    fun read => (carry_name_or _ chars d read inside trivial).1
  rw [bracedParameter, Reads, gives_look_bind] at read ⊢
  rcases place_cases (inside_before inside (reads_forward read)) with here | ⟨ch, text, here, there⟩
  · have noName := rejects_name_at_tail here
    have refused : ¬ (name <|> refuse (.token .parameter)).Reads c chars d := by
      intro read
      rcases (gives_or_else _ _ _ _ _).mp read with given | ⟨-, refused⟩
      · exact not_fails_of_gives given noName
      · exact absurd refused (gives_refuse _ _ _ _)
    rcases apart_cases T.oldApart with empty | ⟨others, newline⟩
    · rw [here, empty] at read
      exact absurd read refused
    · rw [here, newline] at read
      exact absurd read refused
  · rw [here] at read
    rw [there]
    dsimp only at read ⊢
    split
    · rename_i digit
      rw [if_pos digit] at read
      exact (carry_take_while (by decide) chars d read inside trivial).1
    · rename_i digit
      rw [if_neg digit] at read
      split
      · rename_i special
        rw [if_pos special, gives_take] at read
        obtain ⟨rfl, rfl⟩ := read
        refine (gives_take _ _ _ _).mpr ⟨by rw [here, there]; rfl, ?_⟩
        exact (there_advance (by simp [here]) inside).symm
      · rename_i special
        rw [if_neg special] at read
        exact named read

theorem carry_named_parameter :
    T.Carry (fun _ => True) (fun _ => True) namedParameter namedParameter T.node c := by
  intro node d read inside _
  rcases (gives_attempt_bind _ _ _ _ _).mp read with ⟨chars, e, named, made⟩ | ⟨-, missing⟩
  · obtain ⟨rfl, rfl⟩ := (gives_pure _ _ _ _).mp made
    rw [node_leaf]
    exact ⟨reads_bind (reads_tried (carry_name chars e named inside trivial).1) (reads_pure _ _), trivial⟩
  · simp at missing

theorem carry_plain_parameter (remains : c.rest ≠ []) :
    T.Carry (fun _ => True) (fun _ => True) plainParameter plainParameter T.node c := by
  refine carry_atomic (carry_bind (S := fun _ => True) (carry_skip (List.length_pos_iff.mpr remains))
    (fun _ _ => trivial) fun _ e _ => ?_)
  intro node d read inside _
  refine ⟨?_, trivial⟩
  have named : namedParameter.Reads e node d → namedParameter.Reads (T.there e) (T.node node) (T.there d) :=
    fun read => (carry_named_parameter node d read inside trivial).1
  rw [Reads, gives_look_bind] at read ⊢
  rcases place_cases (inside_before inside (reads_forward read)) with here | ⟨ch, text, here, there⟩
  · have refused : ¬ namedParameter.Reads e node d := by
      intro read
      rcases (gives_attempt_bind _ _ _ _ _).mp read with ⟨chars, _, given, -⟩ | ⟨-, missing⟩
      · exact not_fails_of_gives given (rejects_name_at_tail here)
      · simp at missing
    rcases apart_cases T.oldApart with empty | ⟨others, newline⟩
    · rw [here, empty] at read
      exact absurd read refused
    · rw [here, newline] at read
      exact absurd read refused
  · have passed : ∀ {kind : Kind}, (do skip 1; return Node.leaf kind [ch]).Reads e node d →
        (do skip 1; return Node.leaf kind [ch]).Reads (T.there e) (T.node node) (T.there d) := by
      intro kind read
      have step : T.Carry (fun _ => True) (fun _ => True) (do skip 1; return Node.leaf kind [ch])
          (do skip 1; return Node.leaf kind [ch]) T.node e :=
        carry_then (carry_skip (by simp [here])) fun _ _ _ => carry_pure (node_leaf kind [ch])
      exact (step node d read inside trivial).1
    rw [here] at read
    rw [there]
    dsimp only at read ⊢
    split
    · rename_i special
      rw [if_pos special] at read
      exact passed read
    · rename_i special
      rw [if_neg special] at read
      split
      · rename_i digit
        rw [if_pos digit] at read
        exact passed read
      · rename_i digit
        rw [if_neg digit] at read
        exact named read

theorem braced_parameter_passed {chars : List Char} (read : bracedParameter.Reads c chars d) :
    c.rest = chars ++ d.rest ∧ '\n' ∉ chars := by
  have run : ∀ {accepts : Char → Bool}, accepts '\n' = false → (takeWhile accepts).Reads c chars d →
      c.rest = chars ++ d.rest ∧ '\n' ∉ chars := by
    intro accepts stops read
    obtain ⟨whole, accepted, -⟩ := take_while_form read
    refine ⟨whole, fun member => ?_⟩
    cases stops.symm.trans (accepted _ member)
  have named : (name <|> refuse (.token .parameter)).Reads c chars d → c.rest = chars ++ d.rest ∧ '\n' ∉ chars := by
    intro read
    rcases (gives_or_else _ _ _ _ _).mp read with given | ⟨-, refused⟩
    · exact run (by decide) ((gives_take_while _ _ _ _).mpr ((gives_name _ _ _).mp given).2)
    · exact absurd refused (gives_refuse _ _ _ _)
  rw [bracedParameter, Reads, gives_look_bind] at read
  split at read
  · rename_i ch others here
    split at read
    · exact run (by decide) read
    · split at read
      · rename_i special
        obtain ⟨rfl, rfl⟩ := (gives_take _ _ _ _).mp read
        refine ⟨(List.take_append_drop 1 c.rest).symm.trans (by rw [Cursor.rest_advance]), ?_⟩
        rw [here, List.take_succ_cons, List.take_zero, List.mem_singleton]
        rintro rfl
        exact absurd special (by decide)
      · exact named read
  · exact named read

end Parameters

section Braces

theorem carry_string_length (long : 2 ≤ c.rest.length) :
    T.Carry (fun _ => True) (fun _ => True) stringLength stringLength T.node c := by
  refine carry_atomic (carry_then (carry_skip long) fun _ _ _ => ?_)
  refine carry_then (carry_literal (by decide)) fun _ _ _ => ?_
  refine carry_then carry_braced_parameter fun chars _ _ => ?_
  exact carry_then (carry_literal (by decide)) fun _ _ _ => carry_pure (node_leaf _ chars)

theorem inside_of_string_length (inside : T.Inside (c.advance 3)) (read : stringLength.Reads c node d) :
    T.Inside d := by
  simp only [stringLength, gives_atomic, gives_bind, gives_skip, gives_literal, gives_pure] at read
  obtain ⟨_, _, rfl, _, e, ⟨-, rfl⟩, chars, f, parameter, _, g, ⟨⟨others, brace⟩, rfl⟩, -, rfl⟩ := read
  obtain ⟨here, noNewline⟩ := braced_parameter_passed parameter
  have sameStart : (c.advance 2).advance "#".length = c.advance 3 := by
    apply Cursor.ext_rest
    rw [Cursor.rest_advance, Cursor.rest_advance, Cursor.rest_advance, List.drop_drop]
    rfl
  rw [sameStart] at here
  have behind : f.rest = ['\x7d'] ++ (f.advance "\x7d".length).rest := by
    rw [← brace, Cursor.rest_advance, ← brace]
    rfl
  exact inside_of_passed (inside_of_passed inside noNewline here) (by decide) behind

theorem miss_string_length (long : 2 ≤ c.rest.length) :
    T.Miss (fun c => T.Inside (c.advance 2) ∧ ("#".toList <+: (c.advance 2).rest → T.Inside (c.advance 3)))
      stringLength stringLength c := by
  rintro rejected inside ⟨opened, signed⟩
  rcases gives_or_fails (reading grammar) stringLength (T.there c) with ⟨node, d, read⟩ | failed
  · have sign : "#".toList <+: (c.advance 2).rest := by
      simp only [stringLength, gives_atomic, gives_bind, gives_skip, gives_literal] at read
      obtain ⟨_, _, rfl, _, _, ⟨sign, -⟩, -⟩ := read
      rw [← there_advance long opened] at sign
      exact ((prefix_is_local (by decide)).there opened).mp sign
    have longer : 3 ≤ c.rest.length := by
      have bound := sign.length_le
      rw [Cursor.rest_advance, List.length_drop] at bound
      have one : "#".toList.length = 1 := rfl
      omega
    have atSign : T.swap.Inside ((T.there c).advance 3) := by
      rw [← there_advance longer (signed sign)]
      exact inside_there (signed sign)
    have back := (carry_string_length (T := T.swap) (long_there long opened) node d read
      (inside_of_string_length atSign read) trivial).1
    rw [there_and_back inside] at back
    exact absurd rejected (not_fails_of_gives back)
  · exact failed

theorem carry_parameter_operation (ahead : Ahead T c) (long : 2 ≤ c.rest.length) :
    T.Carry (fun _ => True) (fun _ => True) parameterOperation parameterOperation T.node c := by
  refine carry_atomic (carry_then (S := fun _ => True) (carry_skip long) fun _ d skipped => ?_)
  obtain rfl := (gives_skip _ _ _ _).mp skipped
  refine carry_then (S := fun _ => True) carry_braced_parameter fun parameter e named => ?_
  refine carry_then (S := fun _ => True) (carry_literal_among (by decide)) fun kind f found => ?_
  obtain ⟨behind, moved⟩ := expansion_ahead long ((reads_forward found).trans (reads_forward named))
  refine carry_then (carry_nested (ahead.forth .operand f behind moved)) fun operand g _ => ?_
  have same : T.node ⟨kind, .ofList [.text parameter, .node operand], none⟩ =
      ⟨kind, .ofList [.text parameter, .node (T.node operand)], none⟩ := by
    simp [Tails.node, Node.moved, Child.moved]
  have closing : T.Carry (fun _ => True) (fun _ => True)
      (do literal "\x7d"; return (⟨kind, .ofList [.text parameter, .node operand], none⟩ : Node))
      (do literal "\x7d"; return ⟨kind, .ofList [.text parameter, .node (T.node operand)], none⟩) T.node g :=
    carry_then (carry_literal (by decide)) fun _ _ _ => carry_pure same
  refine closing.start fun _ _ read _ _ _ => ?_
  obtain ⟨_, _, brace, -⟩ := (gives_bind _ _ _ _ _).mp read
  exact head_of_start ((gives_literal _ _ _ _).mp brace).1 (by decide)

theorem carry_bare_parameter (long : 2 ≤ c.rest.length) :
    T.Carry (fun c => parameterOperation.Rejects (T.there c)) (fun _ => True) bareBracedParameter
      bareBracedParameter T.node c := by
  have carry : T.Carry (fun _ => True) (fun _ => True) bareBracedParameter bareBracedParameter T.node c := by
    refine carry_atomic (carry_then (carry_skip long) fun _ _ _ => ?_)
    refine carry_then carry_braced_parameter fun chars _ _ => ?_
    exact carry_then (carry_literal (by decide)) fun _ _ _ => carry_pure (node_leaf _ chars)
  refine carry.start fun node d read inside _ _ => ?_
  simp only [bareBracedParameter, gives_atomic, gives_bind, gives_skip] at read
  obtain ⟨_, _, rfl, chars, e, named, _, f, closing, made⟩ := read
  have atEnd := inside_before inside ((reads_forward made).trans (reads_forward closing))
  have opened := inside_before atEnd (reads_forward named)
  have namedThere := (carry_braced_parameter chars e named atEnd trivial).1
  rw [there_advance long opened] at namedThere
  refine rejects_operation_at_brace namedThere ((head_is_local (by decide)).there atEnd |>.mpr ?_)
  exact head_of_start ((gives_literal _ _ _ _).mp closing).1 (by decide)

theorem sign_inside {e : Cursor} {chars : List Char} (named : bracedParameter.Reads (c.advance 2) chars e)
    (inside : T.Inside e) (sign : "#".toList <+: (c.advance 2).rest) : T.Inside (c.advance 3) := by
  obtain ⟨rest, here⟩ := sign
  have same : (c.advance 2).advance 1 = c.advance 3 := by
    apply Cursor.ext_rest
    rw [Cursor.rest_advance, Cursor.rest_advance, Cursor.rest_advance, List.drop_drop]
  rw [bracedParameter, Reads, gives_look_bind, ← here] at named
  have passed := ((gives_take _ _ _ _).mp named).2
  rwa [← passed, same] at inside

theorem carry_braced_expansion (ahead : Ahead T c) (long : 2 ≤ c.rest.length) :
    T.Carry (fun _ => True) (fun _ => True) bracedExpansion bracedExpansion T.node c := by
  have others : T.Carry (fun _ => True) (fun _ => True) (parameterOperation <|> bareBracedParameter)
      (parameterOperation <|> bareBracedParameter) T.node c :=
    carry_or_else (carry_parameter_operation ahead long) (fun _ _ rejected => rejected) (carry_bare_parameter long)
      (fun _ => trivial)
  refine carry_or_else (carry_string_length long) (miss_string_length long) (others.start ?_) (fun _ => trivial)
  intro node d read inside _ _
  obtain ⟨chars, e, named, behind⟩ : ∃ chars e, bracedParameter.Reads (c.advance 2) chars e ∧ d.rest <:+ e.rest := by
    rcases (gives_or_else _ _ _ _ _).mp read with operation | ⟨-, bare⟩
    · obtain ⟨_, _, skipped, later⟩ := (gives_bind _ _ _ _ _).mp ((gives_atomic _ _ _ _).mp operation)
      obtain rfl := (gives_skip _ _ _ _).mp skipped
      obtain ⟨chars, e, named, later⟩ := (gives_bind _ _ _ _ _).mp later
      exact ⟨chars, e, named, reads_forward later⟩
    · obtain ⟨_, _, skipped, later⟩ := (gives_bind _ _ _ _ _).mp ((gives_atomic _ _ _ _).mp bare)
      obtain rfl := (gives_skip _ _ _ _).mp skipped
      obtain ⟨chars, e, named, later⟩ := (gives_bind _ _ _ _ _).mp later
      exact ⟨chars, e, named, reads_forward later⟩
  have atEnd := inside_before inside behind
  exact ⟨inside_before atEnd (reads_forward named), sign_inside named atEnd⟩

end Braces

end ShellLine.Followed
