import ShellLine.Proofs.Closure.Compound
import ShellLine.Proofs.Followed.Words

set_option autoImplicit false

namespace ShellLine.Followed

open ShellLine.Parser Grammar Closure

variable {T : Tails} {c d : Cursor} {node : Node}

section Lists

theorem Ahead.chains {α : Type} {p : Parser α} {value : α} (ahead : Ahead T c) (moves : p.Moves)
    (read : p.Reads c value d) : ChainsCarryOver T d :=
  ahead.rule (moves c value d read) (reads_forward read) .andOr

theorem remains_of_other {ch : Char} (head : c.rest.head? = some ch) (other : ch ≠ '\n') : c.rest ≠ T.old := by
  intro same
  rcases apart_cases T.oldApart with empty | ⟨others, newline⟩
  · rw [same, empty] at head
    cases head
  · rw [same, newline] at head
    exact other (Option.some.inj head).symm

theorem ends_of_closing (closing : String.ofList (solidStart c.rest) ∈ closingWords) : T.Ends true c := by
  obtain ⟨ch, head, other⟩ := head_of_solid_word (· ∉ ['&', '|', ';', '\n']) (by decide +kernel) closing
  have different : ch ∉ ['&', '|', ';', '\n'] := by simpa using other
  refine ⟨(ends_list_of_head head (Or.inr closing) different : EndsList true _).chain, fun _ => ?_⟩
  exact remains_of_other head fun newline => different (by simp [newline])

theorem ends_of_keyword {word : String} (closing : word ∈ closingWords) (read : (keyword word).Reads c () d) :
    T.Ends true c := ends_of_closing (solid_start_of_closing closing read)

theorem carry_closing_word {Q : Cursor → Prop} {word : String} {kind : Kind} {body : Node}
    (closing : word ∈ closingWords) (ends : ∀ d, Q d → ¬ Stuck d) :
    T.Carry (T.Ends true) Q (do keyword word; return Node.wrap kind body)
      (do keyword word; return Node.wrap kind (T.node body)) T.node c := by
  have reserved := (by decide : ∀ word ∈ closingWords, word ∈ reservedWords) word closing
  have carry : T.Carry (T.Open true) Q (do keyword word; return Node.wrap kind body)
      (do keyword word; return Node.wrap kind (T.node body)) T.node c :=
    carry_bind (carry_keyword reserved) ends fun _ _ _ => carry_pure (node_wrap _ _)
  refine carry.start fun _ _ read _ _ _ => ?_
  obtain ⟨_, _, closed, -⟩ := (gives_bind _ _ _ _ _).mp read
  exact ends_of_keyword closing closed

theorem carry_enclosed {first last : String} {kind : Kind} (ahead : Ahead T c)
    (opening : first ∈ reservedWords) (closing : last ∈ closingWords) :
    T.Carry (T.Open true) (fun d => ¬ Stuck d) (enclosed first last kind) (enclosed first last kind) T.node c := by
  obtain ⟨nonempty, -⟩ := reserved_words_start_plain first opening
  refine carry_atomic (carry_bind (S := T.Open true) (carry_keyword opening) (fun _ here => here.1)
    fun _ d opened => ?_)
  refine carry_then (S := T.Ends true) (carry_compound_list (ahead.chains (keyword_text_moves nonempty) opened))
    fun body e _ => ?_
  exact carry_closing_word closing fun _ free => free

theorem carry_do_group (ahead : Ahead T c) :
    T.Carry (T.Ends true) (fun d => ¬ Stuck d) doGroup doGroup T.node c := by
  have carry : T.Carry (T.Open true) (fun d => ¬ Stuck d) doGroup doGroup T.node c :=
    carry_enclosed ahead (by decide) (by decide)
  refine carry.start fun _ _ read _ _ _ => ?_
  cases do_group_form read with
  | body opened => exact ends_of_keyword (by decide) opened

theorem carry_subshell (ahead : Ahead T c) :
    T.Carry (T.Open true) (fun d => ¬ Stuck d) subshell subshell T.node c := by
  refine carry_atomic (carry_bind (S := T.Open true) (carry_operator (by decide) (by decide))
    (fun _ here => here.1) fun _ d opened => ?_)
  refine carry_then (S := T.Ends true)
    (carry_compound_list (ahead.chains (operator_text_moves (by decide)) opened)) fun body e _ => ?_
  have closing : T.Carry (T.Open true) (fun d => ¬ Stuck d) (do operator ")"; return Node.wrap .subshell body)
      (do operator ")"; return Node.wrap .subshell (T.node body)) T.node e :=
    carry_then (carry_operator (by decide) (by decide)) fun _ _ _ => carry_pure (node_wrap _ _)
  refine closing.start fun _ _ read _ _ here => ⟨?_, here.2⟩
  obtain ⟨_, _, closed, -⟩ := (gives_bind _ _ _ _ _).mp read
  exact (ends_list_of_paren ((gives_operator _ _ _ _).mp closed).1 : EndsList true _).chain

end Lists

section Loops

theorem carry_sequential :
    T.Carry (T.Open true) (T.Open true) sequentialSeparator sequentialSeparator id c := by
  refine carry_or_else (carry_bind (S := T.Open true) (carry_lone (by decide) (by decide)) (fun _ here => here.1)
    fun _ _ _ => carry_line_break) ?_ carry_newlines fun here => here
  exact miss_bind (fun missing inside _ => miss_lone (by decide) missing inside trivial)
    fun _ d _ broken => absurd broken (fails_line_break d)

theorem miss_sequential : T.Miss (T.Open true) sequentialSeparator sequentialSeparator c := by
  refine miss_or_else ?_ fun missing inside here => miss_newlines missing inside (here.2 rfl)
  exact miss_bind (fun missing inside _ => miss_lone (by decide) missing inside trivial)
    fun _ d _ broken => absurd broken (fails_line_break d)

theorem carry_in_clause (ahead : Ahead T c) :
    T.Carry (T.Open true) (T.Open true) inClause inClause T.node c := by
  refine carry_then (S := T.Open true) carry_line_break fun _ d broken => ?_
  refine carry_then (S := fun d => ¬ Stuck d) (carry_keyword (by decide)) fun _ e inside => ?_
  have words := (ahead.past broken).rule (keyword_text_moves (by decide) d () e inside) (reads_forward inside) .word
  refine carry_bind (S := T.Open true) (carry_words words) (fun _ here => here.1) fun words f _ => ?_
  exact carry_then carry_sequential fun _ _ _ => carry_pure (node_of_nodes _ _)

theorem rejects_in_clause (missing : (keyword "in").Rejects c.pastBreak) : inClause.Rejects c := by
  refine (fails_bind _ _ _).mpr (Or.inr ⟨(), c.pastBreak, (gives_line_break _ _ _).mpr rfl, ?_⟩)
  exact (fails_bind _ _ _).mpr (Or.inl missing)

abbrev loopRest (parameter : List Char) (words : Option Node) : Parser Node := do
  if words.isNone then optional sequentialSeparator
  let body ← doGroup
  return ⟨.forLoop, .text parameter (.ofNodes (words.toList ++ [body])), none⟩

theorem carry_loop_rest {parameter : List Char} {words : Option Node} (ahead : Ahead T c) :
    T.Carry (T.Open true) (fun d => ¬ Stuck d) (loopRest parameter words) (loopRest parameter (words.map T.node))
      T.node c := by
  have body : ∀ d, Ahead T d → T.Carry (T.Open true) (fun d => ¬ Stuck d)
      (do let body ← doGroup
          return (⟨.forLoop, .text parameter (.ofNodes (words.toList ++ [body])), none⟩ : Node))
      (do let body ← doGroup
          return (⟨.forLoop, .text parameter (.ofNodes ((words.map T.node).toList ++ [body])), none⟩ : Node))
      T.node d := by
    intro d here
    have carry : T.Carry (T.Ends true) (fun d => ¬ Stuck d)
        (do let body ← doGroup
            return (⟨.forLoop, .text parameter (.ofNodes (words.toList ++ [body])), none⟩ : Node))
        (do let body ← doGroup
            return (⟨.forLoop, .text parameter (.ofNodes ((words.map T.node).toList ++ [body])), none⟩ : Node))
        T.node d := by
      refine carry_then (carry_do_group here) fun body e _ => carry_pure ?_
      cases words <;> simp [Tails.node, Node.moved, Forest.moved]
    exact carry.start fun _ _ _ _ _ ends => open_of_ends ends
  cases words with
  | none =>
      refine carry_then (S := T.Open true) (carry_optional carry_sequential miss_sequential fun here => here)
        fun _ d separated => ?_
      exact body d (ahead.past separated)
  | some inside => exact body c ahead

theorem rejects_in_clause_at_rest {parameter : List Char} (read : (loopRest parameter none).Reads c node d) :
    inClause.Rejects c := by
  obtain ⟨_, e, separated, later⟩ := (gives_bind _ _ _ _ _).mp read
  obtain ⟨body, f, done, -⟩ := (gives_bind _ _ _ _ _).mp later
  exact rejects_in_clause (rejects_in_at_body separated done)

theorem carry_for_clause (ahead : Ahead T c) :
    T.Carry (T.Open true) (fun d => ¬ Stuck d) forClause forClause T.node c := by
  refine carry_atomic (carry_bind (S := T.Open true) (carry_keyword (by decide)) (fun _ here => here.1)
    fun _ d opened => ?_)
  refine carry_bind (S := fun d => ¬ Stuck d) carry_name (fun _ _ => trivial) fun parameter e named => ?_
  refine carry_bind (S := T.Open true) carry_blanks (fun _ here => here.1) fun _ f blank => ?_
  have atClause := ((ahead.past opened).past named).past blank
  refine carry_attempt_bind (S := T.Open true) (carry_in_clause atClause) (fun _ here => here)
    (fun words g clause => carry_loop_rest (atClause.past clause))
    (U := fun c => T.Open true c ∧ inClause.Rejects (T.there c)) (fun _ _ here => here.2) (fun here => here.1)
    fun _ node g read inside free => ?_
  have bare : T.Carry (T.Open true) (fun d => ¬ Stuck d) (loopRest parameter none) (loopRest parameter none)
      T.node f := carry_loop_rest atClause
  obtain ⟨readThere, here⟩ := bare node g read inside free
  exact ⟨readThere, here, rejects_in_clause_at_rest readThere⟩

theorem carry_loop_clause {word : String} {kind : Kind} (ahead : Ahead T c) (opening : word ∈ reservedWords) :
    T.Carry (T.Open true) (fun d => ¬ Stuck d) (loopClause word kind) (loopClause word kind) T.node c := by
  obtain ⟨nonempty, -⟩ := reserved_words_start_plain word opening
  refine carry_atomic (carry_bind (S := T.Open true) (carry_keyword opening) (fun _ here => here.1)
    fun _ d opened => ?_)
  refine carry_then (S := T.Ends true) (carry_compound_list (ahead.chains (keyword_text_moves nonempty) opened))
    fun condition e list => ?_
  refine carry_then (carry_do_group ((ahead.past opened).past list)) fun body f _ => ?_
  exact carry_pure (by rw [node_of_nodes, List.map_cons, List.map_cons, List.map_nil, node_wrap])

end Loops

section Choices

theorem PatternsWithin.free (within : PatternsWithin T c) : ¬ Stuck c := by
  obtain ⟨values, d, items⟩ := items_exist (reading grammar) nextPattern c
  have ends := (within values d items).2.1
  cases items with
  | stop _ => exact ends
  | halt given _ | more given _ _ =>
      obtain ⟨_, _, bar, -⟩ := (gives_bind _ _ _ _ _).mp given
      exact not_stuck_of_head ((gives_lone_operator _ _ _ _).mp bar).1.1 (by decide)

-- What may stand behind an item of a choice: more of the text, and behind the last one the end of a list.
def AfterItem (T : Tails) : Turn Node → Cursor → Prop
  | .more _, d => T.Open true d
  | .last _, d | .stop, d => T.Ends true d

theorem item_end_there {item : Node} {turn : Turn Node} (read : (itemEnd item).Reads c turn d)
    (inside : T.Inside d) (ends : AfterItem T turn d) :
    (itemEnd (T.node item)).Reads (T.there c) (mapTurn T.node turn) (T.there d) ∧ T.Ends true c := by
  rcases (gives_attempt_bind _ _ _ _ _).mp read with ⟨_, e, ended, later⟩ | ⟨missing, made⟩
  · obtain ⟨_, f, broken, made⟩ := (gives_bind _ _ _ _ _).mp later
    obtain ⟨rfl, rfl⟩ := (gives_pure _ _ _ _).mp made
    obtain ⟨brokenThere, open'⟩ := carry_line_break () _ broken inside ends
    obtain ⟨endedThere, solid⟩ := carry_operator (by decide) (by decide) () e ended
      (inside_before inside (reads_forward broken)) open'.1
    refine ⟨reads_bind (reads_tried endedThere) (reads_bind brokenThere (reads_pure _ _)), ?_, solid.2⟩
    exact (ends_list_of_item_end ((gives_operator _ _ _ _).mp ended).1 : EndsList true _).chain
  · obtain ⟨rfl, rfl⟩ := (gives_pure _ _ _ _).mp made
    exact ⟨reads_bind (reads_missed (miss_operator (by decide) missing inside trivial)) (reads_pure _ _), ends⟩

theorem item_body_there {patterns : List Node} {turn : Turn Node} (chains : ChainsCarryOver T c)
    (read : (itemBody (.ofNodes patterns)).Reads c turn d) (inside : T.Inside d) (ends : AfterItem T turn d) :
    (itemBody (.ofNodes (patterns.map T.node))).Reads (T.there c) (mapTurn T.node turn) (T.there d) ∧
      T.Open true c := by
  have wrapped : ∀ bodies : List Node,
      T.node ⟨.caseItem, .list (.ofNodes patterns) (.ofNodes bodies), none⟩ =
        ⟨.caseItem, .list (.ofNodes (patterns.map T.node)) (.ofNodes (bodies.map T.node)), none⟩ := by
    simp [Tails.node, Node.moved, Forest.moved]
  rcases (gives_attempt_bind _ _ _ _ _).mp read with ⟨inner, e, list, later⟩ | ⟨noList, later⟩
  · simp only [Option.isNone_some, Bool.false_eq_true, if_false] at later
    obtain ⟨endThere, behind⟩ := item_end_there later inside ends
    rw [wrapped] at endThere
    obtain ⟨listThere, here⟩ := carry_compound_list chains inner e list
      (inside_before inside (reads_forward later)) behind
    exact ⟨reads_bind (reads_tried listThere) endThere, here⟩
  · simp only [Option.isNone_none, if_true] at later
    obtain ⟨_, e, broken, later⟩ := (gives_bind _ _ _ _ _).mp later
    obtain ⟨endThere, behind⟩ := item_end_there later inside ends
    rw [wrapped] at endThere
    have atEnd := inside_before inside (reads_forward later)
    obtain ⟨brokenThere, here⟩ := carry_line_break () e broken atEnd (open_of_ends behind)
    obtain rfl := (gives_line_break _ _ _).mp broken
    have missed := rejects_compound_list_there behind.1.halts atEnd (open_of_ends behind)
    exact ⟨reads_bind (reads_missed missed) (reads_bind brokenThere endThere), here⟩

theorem carry_next_pattern (ahead : Ahead T c) :
    T.Carry (fun c => ¬ Stuck c) (fun d => ¬ Stuck d) nextPattern nextPattern T.node c := by
  have carry : T.Carry (T.Open true) (fun d => ¬ Stuck d) nextPattern nextPattern T.node c :=
    carry_then (carry_lone (by decide) (by decide)) fun _ _ bar =>
      carry_free_word (word_carries_over (ahead.past bar))
  exact carry.start fun _ _ _ _ _ here => here.1

theorem patterns_there {others : List Node} (ahead : Ahead T c) (stops : nextPattern.Rejects (T.there d))
    (items : Items (reading grammar) nextPattern c others d) (inside : T.Inside d) (free : ¬ Stuck d) :
    Items (reading grammar) nextPattern (T.there c) (others.map T.node) (T.there d) ∧ ¬ Stuck c := by
  have both := items_there next_pattern_moves
    (fun e suffix => carry_next_pattern (ahead.behind suffix)) items inside free (.stop stops)
  rwa [List.append_nil] at both

theorem case_item_there {turn : Turn Node} (ahead : Ahead T c) (read : caseItem.Reads c turn d)
    (inside : T.Inside d) (ends : AfterItem T turn d) :
    caseItem.Reads (T.there c) (mapTurn T.node turn) (T.there d) ∧ T.Open true c := by
  have moved := case_item_moves c turn d read
  rw [caseItem, Reads, gives_atomic] at read ⊢
  obtain ⟨_, e, opened, read⟩ := (gives_bind _ _ _ _ _).mp read
  obtain ⟨first, f, word, read⟩ := (gives_bind _ _ _ _ _).mp read
  obtain ⟨others, g, patterns, read⟩ := (gives_bind _ _ _ _ _).mp read
  obtain ⟨_, h, ended, body⟩ := (gives_bind _ _ _ _ _).mp read
  have atWord := ahead.past opened
  have atPatterns := atWord.past word
  have insideBody : T.Inside h := inside_before inside (reads_forward body)
  have insideEnd : T.Inside g := inside_before insideBody (reads_forward ended)
  have insidePatterns : T.Inside f := inside_before insideEnd (reads_forward patterns)
  have insideWord : T.Inside e := inside_before insidePatterns (reads_forward word)
  have chains := (atPatterns.past patterns).chains (operator_text_moves (by decide)) ended
  obtain ⟨bodyThere, behind⟩ := item_body_there chains body inside ends
  obtain ⟨endedThere, atEnd⟩ := carry_operator (by decide) (by decide) () h ended insideBody behind.1
  have paren : (T.there g).rest.head? = some ')' :=
    head_of_start ((gives_operator _ _ _ _).mp endedThere).1 (by decide)
  have stops : nextPattern.Rejects (T.there g) := by
    refine (fails_bind _ _ _).mpr (Or.inl ((fails_lone_operator _ _).mpr fun bar => ?_))
    cases bar.1.symm.trans paren
  obtain ⟨patternsThere, free⟩ :=
    patterns_there atPatterns stops ((gives_many _ _ _ _).mp patterns) insideEnd atEnd.1
  obtain ⟨wordThere, solid⟩ := carry_free_word (word_carries_over atWord) first f word insidePatterns free
  have opening : T.Carry (fun c => ¬ Stuck c) (fun d => ¬ Stuck d) (optional (operator "(")) (optional (operator "("))
      id c := by
    refine carry_optional ((carry_operator (by decide) (by decide)).start fun _ _ _ _ _ here => here.1) ?_
      fun free => free
    exact fun missing inside _ => miss_operator (by decide) missing inside trivial
  obtain ⟨openedThere, start⟩ := opening () e opened insideWord solid
  refine ⟨?_, start, fun _ => remains_of_moved moved inside⟩
  exact reads_bind openedThere (reads_bind wordThere (reads_bind (reads_many patternsThere)
    (reads_bind endedThere bodyThere)))

theorem rejects_case_item_there (ahead : Ahead T c) (rejected : caseItem.Rejects c)
    (closing : (keyword "esac").Reads c () d) (inside : T.Inside d) (within : PatternsWithin T d) :
    caseItem.Rejects (T.there c) := by
  obtain ⟨word, others, e, wordRead, patterns, noOpening, noEnd⟩ := patterns_at_closing rejected closing
  obtain ⟨atEnd, free, noBar⟩ := within others e patterns
  have stops : nextPattern.Rejects (T.there e) := by
    rcases (fails_bind _ _ _).mp (items_stop next_pattern_moves patterns) with
      missing | ⟨_, f, bar, noWord⟩
    · exact (fails_bind _ _ _).mpr (Or.inl (miss_lone (by decide) missing atEnd trivial))
    · obtain ⟨atWord, uncut⟩ := noBar f bar
      refine (fails_bind _ _ _).mpr (Or.inr ⟨(), _, (carry_lone (by decide) (by decide) () f bar atWord uncut).1, ?_⟩)
      exact miss_word noWord atWord uncut
  have start := inside_before inside (reads_forward closing)
  obtain ⟨patternsThere, -⟩ := patterns_there (ahead.past wordRead) stops patterns atEnd free
  exact rejects_case_item (miss_operator (by decide) noOpening start trivial)
    (word_carries_over ahead word d wordRead inside within.free).1 patternsThere
    (miss_operator (by decide) noEnd atEnd trivial)

def EndsChoice (T : Tails) (c : Cursor) : Prop :=
  ∃ d, (keyword "esac").Reads c () d ∧ T.Inside d ∧ PatternsWithin T d

theorem EndsChoice.ends (ends : EndsChoice T c) : T.Ends true c :=
  have ⟨_, closing, _⟩ := ends
  ends_of_keyword (by decide) closing

theorem case_turn_there {turn : Turn Node} (ahead : Ahead T c) (read : caseTurn.Reads c turn d)
    (last : ∀ value, turn ≠ .more value) (inside : T.Inside d) (ends : EndsChoice T d) :
    caseTurn.Reads (T.there c) (mapTurn T.node turn) (T.there d) ∧ T.Open true c := by
  rcases case_turn_form read with item | ⟨rfl, rejected, rfl⟩
  · have behind : AfterItem T turn d := by
      cases turn with
      | more value => exact absurd rfl (last value)
      | last value => exact ends.ends
      | stop => exact ends.ends
    obtain ⟨itemThere, here⟩ := case_item_there ahead item inside behind
    exact ⟨reads_case_turn itemThere, here⟩
  · obtain ⟨e, closing, atEnd, within⟩ := ends
    have missed := rejects_case_item_there ahead rejected closing atEnd within
    exact ⟨reads_case_stop missed, open_of_ends (ends_of_keyword (by decide) closing)⟩

theorem carry_case_items (ahead : Ahead T c) :
    T.Carry (T.Open true) (EndsChoice T) caseItems caseItems (List.map T.node) c := by
  refine carry_rounds (fun e value d read => case_item_moves e _ d (reads_more_item read)) ?_ ?_
  · intro e value d suffix read inside here
    obtain ⟨itemThere, start⟩ := case_item_there (ahead.behind suffix) (reads_more_item read) inside here
    exact ⟨reads_case_turn itemThere, start⟩
  · exact fun e turn d suffix read last => case_turn_there (ahead.behind suffix) read last

theorem carry_case_clause (ahead : Ahead T c) :
    T.Carry (T.Open true) (PatternsWithin T) caseClause caseClause T.node c := by
  refine carry_atomic (carry_then (S := fun d => ¬ Stuck d) (carry_keyword (by decide))
    fun _ d opened => ?_)
  have atWord := ahead.past opened
  refine carry_bind (S := T.Open true) (carry_free_word (word_carries_over atWord)) (fun _ here => here.1)
    fun subject e word => ?_
  refine carry_then (S := T.Open true) carry_line_break fun _ f broken => ?_
  refine carry_bind (S := T.Open true) (carry_keyword (by decide)) (fun _ here => here.1) fun _ g inside => ?_
  refine carry_then (S := T.Open true) carry_line_break fun _ h brokenBehind => ?_
  have atItems := (((atWord.past word).past broken).past inside).past brokenBehind
  refine carry_then (S := EndsChoice T) (carry_case_items atItems) fun items i _ => ?_
  have closing : T.Carry (T.Open true) (PatternsWithin T)
      (do keyword "esac"; return Node.ofNodes .caseChoice (subject :: items))
      (do keyword "esac"; return Node.ofNodes .caseChoice (T.node subject :: items.map T.node)) T.node i :=
    carry_bind (carry_keyword (by decide)) (fun _ within => within.free) fun _ _ _ =>
      carry_pure (by rw [node_of_nodes, List.map_cons])
  refine closing.start fun _ j read inside within _ => ?_
  obtain ⟨_, k, closed, made⟩ := (gives_bind _ _ _ _ _).mp read
  obtain ⟨-, rfl⟩ := (gives_pure _ _ _ _).mp made
  exact ⟨_, closed, inside, within⟩

end Choices

section Conditionals

theorem ends_at_fi (closing : String.ofList (solidStart c.rest) = "fi") : T.Ends true c :=
  ends_of_closing (by rw [closing]; decide)

theorem carry_conditional (choice : CarriesOver T .conditional c) :
    T.Carry (fun c => ¬ Stuck c) (AfterRule T .conditional) (call .conditional) (call .conditional) T.node c := by
  refine choice.start fun _ _ read _ _ _ stuck => ?_
  obtain ⟨condition, _, tested, -⟩ := (gives_bind _ _ _ _ _).mp ((reads_call _ _ _ _).mp read)
  exact not_fails_of_gives tested (Barred.rejects_list (Or.inr (Or.inr stuck)))

theorem carry_else_part (ahead : Ahead T c) :
    T.Carry (T.Ends true) (AfterRule T .conditional) elsePart elsePart T.node c := by
  have carry : T.Carry (T.Open true) (AfterRule T .conditional) elsePart elsePart T.node c := by
    refine carry_atomic (carry_attempt_bind (S := fun d => ¬ Stuck d) (U := T.Open true)
      (carry_keyword (by decide)) (fun _ free => free) (fun _ d opened => ?_)
      (fun missing inside _ => miss_keyword (by decide) missing inside trivial) (fun here => here) fun _ => ?_)
    · have moved := keyword_text_moves (by decide) _ _ _ opened
      have choice : T.Carry (fun c => ¬ Stuck c) (AfterRule T .conditional)
          (do return Node.wrap .otherwise (← call .conditional))
          (do return Node.wrap .otherwise (← call .conditional)) T.node d := by
        refine carry_then (carry_conditional ?_) fun _ _ _ => carry_pure (node_wrap _ _)
        exact ahead.forth .conditional d (reads_forward opened) moved
      exact choice
    · refine carry_bind (S := T.Open true) (carry_keyword (by decide)) (fun _ here => here.1) fun _ d opened => ?_
      exact carry_bind (carry_compound_list (ahead.chains (keyword_text_moves (by decide)) opened))
        (fun _ closing => ends_at_fi closing) fun _ _ _ => carry_pure (node_wrap _ _)
  refine carry.start fun _ _ read _ _ _ => ?_
  cases else_part_form read with
  | choice opened | list opened => exact ends_of_keyword (by decide) opened

theorem conditional_carries_over (ahead : Ahead T c) (chains : ChainsCarryOver T c) :
    CarriesOver T .conditional c := by
  have carry : T.Carry (T.Open true) (AfterRule T .conditional) conditional conditional T.node c := by
    refine carry_then (S := T.Ends true) (carry_compound_list chains) fun condition d tested => ?_
    have atThen := ahead.past tested
    have list : T.Carry (T.Open true) (AfterRule T .conditional)
        (do keyword "then"
            let consequent ← compoundList
            let alternative ← attempt elsePart
            return Node.ofNodes .ifChoice
              ([.wrap .condition condition, .wrap .consequent consequent] ++ alternative.toList))
        (do keyword "then"
            let consequent ← compoundList
            let alternative ← attempt elsePart
            return Node.ofNodes .ifChoice
              ([.wrap .condition (T.node condition), .wrap .consequent consequent] ++ alternative.toList))
        T.node d := by
      refine carry_bind (S := T.Open true) (carry_keyword (by decide)) (fun _ here => here.1) fun _ e chosen => ?_
      refine carry_then (S := T.Ends true)
        (carry_compound_list (atThen.chains (keyword_text_moves (by decide)) chosen))
        fun consequent f listed => ?_
      refine carry_then (carry_attempt (carry_else_part ((atThen.past chosen).past listed)) ?_ fun closing =>
        ends_at_fi closing) fun alternative g _ => carry_pure ?_
      · exact fun _ inside closing => rejects_else_part (((solid_start_is_local "fi").there inside).mpr closing)
      · cases alternative <;> simp
    refine list.start fun _ _ read _ _ _ => ?_
    obtain ⟨_, _, chosen, -⟩ := (gives_bind _ _ _ _ _).mp read
    exact ends_of_keyword (by decide) chosen
  exact carry_call (carry.start fun _ _ _ _ _ _ => trivial)

theorem carry_if_clause (ahead : Ahead T c) :
    T.Carry (T.Open true) (fun d => ¬ Stuck d) ifClause ifClause T.node c := by
  refine carry_atomic (carry_then (S := fun d => ¬ Stuck d) (carry_keyword (by decide))
    fun _ d opened => ?_)
  have choice := ahead.forth .conditional d (reads_forward opened) (keyword_text_moves (by decide) _ _ _ opened)
  refine carry_then (S := AfterRule T .conditional) (carry_conditional choice)
    fun inner e _ => ?_
  have closing : T.Carry (T.Open true) (fun d => ¬ Stuck d) (do keyword "fi"; return inner)
      (do keyword "fi"; return T.node inner) T.node e :=
    carry_then (carry_keyword (by decide)) fun _ _ _ => carry_pure rfl
  refine closing.start fun _ _ read _ _ _ => ?_
  obtain ⟨_, _, closed, -⟩ := (gives_bind _ _ _ _ _).mp read
  exact start_of_keyword (by decide) closed

end Conditionals

theorem carry_compound_command (ahead : Ahead T c) :
    T.Carry (T.Open true) (PatternsWithin T) compoundCommand compoundCommand T.node c := by
  have free : ∀ d, PatternsWithin T d → ¬ Stuck d := fun _ within => within.free
  refine carry_look fun inside => ?_
  by_cases same : c.rest = T.old
  · -- No command starts with what stands behind the text.
    rcases apart_cases T.oldApart with empty | ⟨others, newline⟩
    · rw [same, empty]
      exact fun node d read _ _ => absurd read (gives_fail _ _ _)
    · rw [same, newline]
      exact fun node d read _ _ => absurd read (gives_fail _ _ _)
  · rw [head_there inside same]
    split
    · exact (carry_enclosed ahead (by decide : "\x7b" ∈ reservedWords)
        (by decide : "\x7d" ∈ closingWords)).finish free
    · exact (carry_subshell ahead).finish free
    · exact (carry_for_clause ahead).finish free
    · exact carry_case_clause ahead
    · exact (carry_if_clause ahead).finish free
    · exact (carry_loop_clause ahead (by decide)).finish free
    · exact (carry_loop_clause ahead (by decide)).finish free
    · exact carry_fail

end ShellLine.Followed
