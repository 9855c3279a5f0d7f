import ShellLine.Proofs.Lines.CommandList

set_option autoImplicit false

namespace ShellLine.Lines

open ShellLine.Parser Grammar

variable {bound : Nat} {c d : Cursor}

theorem agrees_enclosed {opened closed : Parser Unit} {inner : Parser Node} {kind : Kind}
    (count : kind ∉ [.word, .simpleCommand])
    (opens : ∀ e f, Twin e f → Agrees bound Twin Eq opened opened e f)
    (holds : ∀ e f, Twin e f → Agrees bound Twin Alike inner inner e f)
    (closes : ∀ e f, Twin e f → Agrees bound Twin Eq closed closed e f) (twin : Twin c d) :
    Agrees bound Twin Alike (atomic do opened; let body ← inner; closed; return .wrap kind body)
      (atomic do opened; let body ← inner; closed; return .wrap kind body) c d := by
  refine agrees_atomic (agrees_bind (opens c d twin) fun _ _ e f _ both => ?_)
  refine agrees_bind (holds e f both) fun body body' g h same behind => ?_
  exact agrees_bind (closes g h behind) fun _ _ _ _ _ last => agrees_pure (alike_wrap count same) last

theorem agrees_brace_group (rules : RulesAgree bound) (twin : Twin c d) :
    Agrees bound Twin Alike braceGroup braceGroup c d :=
  agrees_enclosed (by decide) (fun _ _ => agrees_keyword (by decide))
    (fun _ _ => agrees_compound_list rules) (fun _ _ => agrees_keyword (by decide)) twin

theorem agrees_subshell (rules : RulesAgree bound) (twin : Twin c d) :
    Agrees bound Twin Alike subshell subshell c d :=
  agrees_enclosed (by decide) (fun _ _ both => agrees_operator (by decide) both.argument)
    (fun _ _ => agrees_compound_list rules) (fun _ _ both => agrees_operator (by decide) both.argument) twin

theorem agrees_do_group (rules : RulesAgree bound) (twin : Twin c d) :
    Agrees bound Twin Alike doGroup doGroup c d :=
  agrees_enclosed (by decide) (fun _ _ => agrees_keyword (by decide))
    (fun _ _ => agrees_compound_list rules) (fun _ _ => agrees_keyword (by decide)) twin

theorem agrees_sequential_separator {role : Role} (here : Abreast role c d) :
    Agrees bound Twin Eq sequentialSeparator sequentialSeparator c d :=
  agrees_or_else (agrees_bind (agrees_lone_operator (by decide) here) fun _ _ _ _ _ both => agrees_line_break both)
    (agrees_newlines here)

theorem agrees_in_clause (twin : Twin c d) : Agrees bound Twin Alike inClause inClause c d := by
  refine agrees_bind (agrees_line_break twin) fun _ _ e f _ both => ?_
  refine agrees_bind (agrees_keyword (by decide) both) fun _ _ g h _ inside => ?_
  refine agrees_bind (agrees_many call_word_moves call_word_moves inside.argument
    fun _ _ => agrees_call_word) fun words words' i j each behind => ?_
  exact agrees_bind (agrees_sequential_separator behind) fun _ _ _ _ _ last =>
    agrees_pure (alike_of_nodes (by decide) each) last

section ForClause

def loopRest (parameter : List Char) : Parser Node := do
  let words ← attempt inClause
  if words.isNone then optional sequentialSeparator
  let body ← doGroup
  return ⟨.forLoop, .text parameter (.ofNodes (words.toList ++ [body])), none⟩

theorem agrees_loop_rest (rules : RulesAgree bound) (parameter : List Char) (twin : Twin c d) :
    Agrees bound Twin Alike (loopRest parameter) (loopRest parameter) c d := by
  have loop : ∀ words words' e f, Option.Rel Alike words words' → Twin e f → Agrees bound Twin Alike
      (do
        let body ← doGroup
        return ⟨.forLoop, .text parameter (.ofNodes (words.toList ++ [body])), none⟩)
      (do
        let body ← doGroup
        return ⟨.forLoop, .text parameter (.ofNodes (words'.toList ++ [body])), none⟩) e f := by
    intro words words' e f same both
    refine agrees_bind (agrees_do_group rules both) fun body body' g h inner last => ?_
    refine agrees_pure (alike_of_contents (by decide) ?_) last
    cases same with
    | none => simp [inner.outline]
    | some listed => simp [inner.outline, listed.outline]
  refine agrees_attempt_bind (agrees_in_clause twin) ?_ fun words words' e f listed both =>
    loop _ _ e f (.some listed) both
  exact agrees_bind (agrees_optional twin (agrees_sequential_separator twin.argument))
    fun _ _ g h _ behind => loop none none g h .none behind

theorem rejects_loop_rest {ch : Char} (head : c.rest.head? = some ch)
    (continues : continuesName ch = false) (inside : isDelimiter ch = false) :
    (inClause.Rejects c ∧ inClause.StaysLevel (reading grammar) c) ∧ sequentialSeparator.Rejects c ∧
      doGroup.Rejects c ∧ doGroup.StaysLevel (reading grammar) c := by
  have noStart : ∀ other, isDelimiter other = true → c.rest.head? ≠ some other := by
    intro other delimiter same
    cases head.symm.trans same
    cases delimiter.symm.trans inside
  have stay : c.pastBreak = c := if_neg (noStart '\n' rfl)
  have noWord : ∀ {word : String}, word.toList.head?.any continuesName = true →
      startsReserved word.toList c.rest = false := by
    intro word starts
    obtain ⟨rest, here⟩ := List.head?_eq_some_iff.mp head
    cases letters : word.toList with
    | nil => simp [letters] at starts
    | cons first others =>
        have other : first ≠ ch := by
          rintro rfl
          simp [letters, continues] at starts
        simp [startsReserved, here, List.isPrefixOf, other]
  have noIn : (keyword "in").Rejects c := (fails_keyword "in" c).mpr (noWord (by decide))
  have noDo : (keyword "do").Rejects c := (fails_keyword "do" c).mpr (noWord (by decide))
  refine ⟨⟨?_, level_line_break c, fun _ e broken => ⟨level_keyword e "in", fun _ f given => ?_⟩⟩,
    ?_, ?_, ?_⟩
  · simp only [inClause, Rejects, fails_bind, gives_line_break, stay]
    exact Or.inr ⟨(), c, rfl, Or.inl noIn⟩
  · obtain rfl := stay.symm.trans ((gives_line_break c e ()).mp broken)
    exact absurd noIn (not_fails_of_gives given)
  · simp only [sequentialSeparator, Rejects, fails_or_else, fails_bind, fails_lone_operator,
      fails_newlines]
    exact ⟨Or.inl fun alone => noStart ';' rfl alone.1, noStart '\n' rfl⟩
  · simp only [doGroup, Rejects, fails_atomic, fails_bind]
    exact Or.inl noDo
  · simp only [doGroup, level_atomic, level_bind]
    exact ⟨level_keyword c "do", fun _ _ given => absurd noDo (not_fails_of_gives given)⟩

-- Where lines are joined right behind the name, a token may start or no loop goes on.
theorem agrees_behind_parameter (rules : RulesAgree bound) (parameter : List Char) {role : Role}
    (asked : role ≠ .argument) (along : Along ⟨role, false⟩ false c d)
    (ends : ∀ ch, d.rest.head? = some ch → continuesName ch = false) :
    Agrees bound Twin Alike (blanks >>= fun _ => loopRest parameter)
      (blanks >>= fun _ => loopRest parameter) c d := by
  refine agrees_blanks ?_
  obtain ⟨idle, fresh | ⟨behind, same⟩⟩ := along_behind_blanks along
  · exact agrees_loop_rest rules parameter (.free asked ⟨fresh, idle⟩)
  · have noPair := ((idle_iff behind.uncommented).mp idle).1
    by_cases stops : ∀ ch, c.pastBlanks.rest.head? = some ch → isDelimiter ch = true
    · refine agrees_loop_rest rules parameter (.free asked ⟨along_again behind ?_, idle⟩)
      cases whole : c.pastBlanks.rest with
      | nil => exact fun _ member => absurd member List.not_mem_nil
      | cons ch rest => exact uncut_at_delimiter (stops ch (by rw [whole]; rfl)) (whole ▸ behind.uncut)
    · simp only [not_forall, Bool.not_eq_true] at stops
      obtain ⟨ch, head, inside⟩ := stops
      have other : d.pastBlanks.rest.head? = some ch := by
        have joined := congrArg List.head? behind.rest
        rw [head_join noPair] at joined
        exact joined.trans head
      have continues : continuesName ch = false := by
        refine ends ch ?_
        rw [along.rest, ← same, head_join noPair]
        exact head
      obtain ⟨⟨noIn, -⟩, noSeparator, noBody, -⟩ := rejects_loop_rest head continues inside
      obtain ⟨⟨noIn', level⟩, noSeparator', noBody', level'⟩ := rejects_loop_rest other continues inside
      refine agrees_after (a := none) (b := none) (e := c.pastBlanks) (f := d.pastBlanks)
        ((gives_attempt _ _ _ _).mpr (Or.inr ⟨rfl, noIn, rfl⟩))
        ((gives_attempt _ _ _ _).mpr (Or.inr ⟨rfl, noIn', rfl⟩)) level ?_
      refine agrees_after (e := c.pastBlanks) (f := d.pastBlanks) (a := ()) (b := ())
        ((gives_optional _ _ _ _).mpr (Or.inr ⟨noSeparator, rfl⟩))
        ((gives_optional _ _ _ _).mpr (Or.inr ⟨noSeparator', rfl⟩)) ?_ ?_
      · simp [sequentialSeparator]
      · exact agrees_stop noBody noBody' level'

theorem agrees_for_clause (rules : RulesAgree bound) (twin : Twin c d) :
    Agrees bound Twin Alike forClause forClause c d := by
  refine agrees_atomic ?_
  have same := starts_reserved_twin (show "for" ∈ reservedWords by decide) twin
  have opened : Agrees bound
      (fun e f => Abreast .head e f ∧ f.rest.takeWhile continuesName = e.rest.takeWhile continuesName)
      Eq (keyword "for") (keyword "for") c d := by
    refine agrees_told (agrees_head_keyword (Or.inl rfl) twin) fun _ _ e f read read' equal head =>
      ⟨equal, head, ?_⟩
    obtain ⟨here, rfl⟩ := (gives_keyword "for" c e _).mp read
    obtain ⟨-, rfl⟩ := (gives_keyword "for" d f _).mp read'
    have parameter := congrArg Opening.parameter (twin_opening twin)
    simp only [opening, here, same, if_true, behindLayout] at parameter
    rw [Cursor.pastBlanks, Cursor.pastBlanks, Cursor.rest_advance, Cursor.rest_advance,
      Cursor.rest_advance, Cursor.rest_advance]
    exact parameter
  refine agrees_bind opened fun _ _ e f _ behind => ?_
  obtain ⟨head, chars⟩ := behind
  refine agrees_name (abreast_head head) fun starts => ?_
  obtain ⟨next, asked, past⟩ := behind_head_word e.rest
  have behind := along_past_run head.toAlong plain_of_name (name_ne_nil starts)
  rw [past] at behind
  rw [chars]
  refine agrees_behind_parameter rules _ asked behind ?_
  intro ch joined
  rw [← chars, rest_advance_take_while] at joined
  exact head_drop_while joined

end ForClause

theorem agrees_patterns (here : Abreast .argument c d) :
    Agrees bound (Abreast .argument) (List.Forall₂ Alike) (many nextPattern) (many nextPattern) c d :=
  agrees_many next_pattern_moves next_pattern_moves here fun e f both =>
    agrees_bind (agrees_lone_operator (by decide) both) fun _ _ _ _ _ next => agrees_call_word next.argument

def itemEnd (item : Node) : Parser (Turn Node) := do
  match ← attempt (operator ";;") with
  | some () =>
      lineBreak
      return .more item
  | none => return .last item

theorem agrees_item_end {item item' : Node} (same : Alike item item') (twin : Twin c d) :
    Agrees bound Twin (SameTurn Alike) (itemEnd item) (itemEnd item') c d :=
  agrees_attempt_bind (agrees_operator (by decide) twin.argument) (agrees_pure (.last same) twin)
    fun _ _ _ _ _ behind => agrees_bind (agrees_line_break behind) fun _ _ _ _ _ last =>
      agrees_pure (.more same) last

theorem agrees_case_item (rules : RulesAgree bound) (twin : Twin c d) :
    Agrees bound Twin (SameTurn Alike) caseItem caseItem c d := by
  refine agrees_atomic ?_
  refine agrees_bind (agrees_optional twin (agrees_operator (by decide) twin.argument)) fun _ _ e f _ opened => ?_
  refine agrees_bind (agrees_call_word opened.argument) fun first first' g h same patterns => ?_
  refine agrees_bind (agrees_patterns patterns) fun others others' i j each closing => ?_
  refine agrees_bind (agrees_operator (by decide) closing) fun _ _ k l _ closed => ?_
  have items : ∀ body body', Option.Rel Alike body body' →
      Alike ⟨.caseItem, .list (.ofNodes (first :: others)) (.ofNodes body.toList), none⟩
        ⟨.caseItem, .list (.ofNodes (first' :: others')) (.ofNodes body'.toList), none⟩ := by
    intro body body' held
    refine alike_of_contents (by decide) ?_
    have bodies : body.toList.flatMap Node.outline = body'.toList.flatMap Node.outline := by
      cases held with
      | none => rfl
      | some inner => simp [inner.outline]
    simp [same.outline, outline_of_alike each, bodies]
  refine agrees_attempt_bind (agrees_compound_list rules closed) ?_ fun _ _ m n inner behind =>
    agrees_item_end (items _ _ (.some inner)) behind
  exact agrees_bind (agrees_line_break closed) fun _ _ _ _ _ ended => agrees_item_end (items none none .none) ended

theorem case_turn_moves (c : Cursor) (item : Node) (d : Cursor) (read : (do
    match ← attempt caseItem with
    | some item => return item
    | none => return .stop : Parser (Turn Node)).Reads c (.more item) d) : d.left < c.left := by
  rcases (gives_attempt_bind _ _ _ _ _).mp read with ⟨turn, e, given, made⟩ | ⟨-, made⟩
  · obtain ⟨rfl, rfl⟩ := (gives_pure _ _ _ _).mp made
    exact case_item_moves c _ e given
  · cases ((gives_pure _ _ _ _).mp made).1

theorem agrees_case_items (rules : RulesAgree bound) (twin : Twin c d) :
    Agrees bound Twin (List.Forall₂ Alike) caseItems caseItems c d :=
  agrees_rounds case_turn_moves case_turn_moves twin fun _ _ both =>
    agrees_attempt_bind (agrees_case_item rules both) (agrees_pure .stop both) fun _ _ _ _ => agrees_pure

theorem agrees_case_clause (rules : RulesAgree bound) (twin : Twin c d) :
    Agrees bound Twin Alike caseClause caseClause c d := by
  refine agrees_atomic ?_
  refine agrees_bind (agrees_head_keyword (Or.inr rfl) twin) fun _ _ e f _ opened => ?_
  refine agrees_bind (agrees_call_head_word opened) fun subject subject' g h chosen behind => ?_
  refine agrees_bind (agrees_line_break behind) fun _ _ i j _ inner => ?_
  refine agrees_bind (agrees_keyword (by decide) inner) fun _ _ k l _ inside => ?_
  refine agrees_bind (agrees_line_break inside) fun _ _ m n _ listed => ?_
  refine agrees_bind (agrees_case_items rules listed) fun items items' o p each closing => ?_
  exact agrees_bind (agrees_keyword (by decide) closing) fun _ _ _ _ _ last =>
    agrees_pure (alike_of_nodes (by decide) (.cons chosen each)) last

theorem agrees_else_part (rules : RulesAgree bound) (twin : Twin c d) :
    Agrees bound Twin Alike elsePart elsePart c d := by
  refine agrees_atomic ?_
  refine agrees_attempt_bind (agrees_keyword (by decide) twin) ?_ fun _ _ e f _ behind => ?_
  · refine agrees_bind (agrees_keyword (by decide) twin) fun _ _ g h _ opened => ?_
    exact agrees_bind (agrees_compound_list rules opened) fun _ _ _ _ inner last =>
      agrees_pure (alike_wrap (by decide) inner) last
  · exact agrees_bind (agrees_call rules (by decide) behind) fun _ _ _ _ inner last =>
      agrees_pure (alike_wrap (by decide) inner) last

theorem agrees_conditional (rules : RulesAgree bound) (twin : Twin c d) :
    Agrees bound Twin Alike conditional conditional c d := by
  refine agrees_bind (agrees_compound_list rules twin) fun _ _ e f tested chosen => ?_
  refine agrees_bind (agrees_keyword (by decide) chosen) fun _ _ g h _ opened => ?_
  refine agrees_bind (agrees_compound_list rules opened) fun _ _ i j done behind => ?_
  refine agrees_bind (agrees_attempt behind (agrees_else_part rules behind)) ?_
  intro alternative alternative' k l other last
  have branches : Alike (.wrap .consequent _) (.wrap .consequent _) := alike_wrap (by decide) done
  refine agrees_pure (alike_of_nodes (by decide) (.cons (alike_wrap (by decide) tested) ?_)) last
  cases other with
  | none => exact .cons branches .nil
  | some inner => exact .cons branches (.cons inner .nil)

theorem agrees_if_clause (rules : RulesAgree bound) (twin : Twin c d) :
    Agrees bound Twin Alike ifClause ifClause c d := by
  refine agrees_atomic (agrees_bind (agrees_keyword (by decide) twin) fun _ _ e f _ opened => ?_)
  refine agrees_bind (agrees_call rules (by decide) opened) fun _ _ g h chosen closing => ?_
  exact agrees_bind (agrees_keyword (by decide) closing) fun _ _ _ _ _ last => agrees_pure chosen last

theorem agrees_loop_clause (rules : RulesAgree bound) {word : String} {kind : Kind}
    (reserved : word ∈ reservedWords) (count : kind ∉ [.word, .simpleCommand]) (twin : Twin c d) :
    Agrees bound Twin Alike (loopClause word kind) (loopClause word kind) c d := by
  refine agrees_atomic (agrees_bind (agrees_keyword reserved twin) fun _ _ e f _ opened => ?_)
  refine agrees_bind (agrees_compound_list rules opened) fun _ _ g h tested behind => ?_
  exact agrees_bind (agrees_do_group rules behind) fun _ _ _ _ done last =>
    agrees_pure (alike_of_nodes count (.cons (alike_wrap (by decide) tested) (.cons done .nil))) last

theorem agrees_compound_command (rules : RulesAgree bound) (twin : Twin c d) :
    Agrees bound Twin Alike compoundCommand compoundCommand c d := by
  refine agrees_look ?_
  simp only [twin_head twin]
  split
  · exact agrees_brace_group rules twin
  · exact agrees_subshell rules twin
  · exact agrees_for_clause rules twin
  · exact agrees_case_clause rules twin
  · exact agrees_if_clause rules twin
  · exact agrees_loop_clause rules (by decide) (by decide) twin
  · exact agrees_loop_clause rules (by decide) (by decide) twin
  · exact agrees_fail

end ShellLine.Lines
