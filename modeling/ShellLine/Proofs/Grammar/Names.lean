import Mathlib.Data.List.TakeWhile
import ShellLine.Parse
import ShellLine.Proofs.Forms.Word
import ShellLine.Proofs.Grammar.Advance

set_option autoImplicit false

namespace ShellLine

open ShellLine.Parser Grammar

-- A name at a place, as long as it can be, and the text behind it.
structure NameAt (c : Cursor) (chars after : List Char) : Prop where
  here : c.rest = chars ++ after
  starts : chars.head?.any startsName = true
  continues : ∀ ch ∈ chars, continuesName ch = true
  whole : ∀ ch, after.head? = some ch → continuesName ch = false

-- Whether an unquoted run of text would end in front of a text.
def BreakAhead (after : List Char) : Prop := after.head?.all (isWordBreak false) = true

def CommentAhead (after : List Char) : Prop :=
  ∃ comment others, after = '#' :: (comment ++ '\n' :: others) ∧ '\n' ∉ comment

-- The name that a loop takes at a place, and what holds of the text behind it.
def LoopName (behind : List Char → Prop) (c : Cursor) (node : Node) : Prop :=
  ∃ chars contents after, NameAt (c.advance 3).pastBlanks chars after ∧
    node = ⟨.forLoop, .text chars contents, none⟩ ∧ behind after

def FunctionName (behind : List Char → Prop) (c : Cursor) (node : Node) : Prop :=
  ∃ chars body after, NameAt c chars after ∧
    node = .ofNodes .functionDefinition [.leaf .functionName chars, body] ∧ behind after

section

variable {answers : Answers} {room : Room} {c d : Cursor}

theorem name_at {chars : List Char} (given : name.MayGive answers room c chars d) :
    NameAt c chars d.rest := by
  obtain ⟨starts, rfl, rfl⟩ := (may_give_name _ _ _).mp given
  refine ⟨rest_take_while c continuesName, ?_, fun ch => List.mem_takeWhile_imp, fun ch head => ?_⟩
  · cases rest : c.rest with
    | nil => simp [rest] at starts
    | cons ch others =>
        have first : startsName ch = true := by simpa [rest] using starts
        rw [List.takeWhile_cons_of_pos (continues_of_starts ch first)]
        exact first
  · rw [rest_advance_take_while] at head
    exact head_drop_while head

-- Blanks end a word where they start, but for those that start with a comment.
theorem word_end_or_comment (moved : c.pastBlanks ≠ c) :
    BreakAhead c.rest ∨ ∃ rest, c.rest = '#' :: rest := by
  have blanks : layoutLength false false c.rest ≠ 0 := by
    intro idle
    exact moved (Cursor.ext_rest _ _ (by rw [Cursor.pastBlanks, idle, Cursor.rest_advance, List.drop_zero]))
  obtain ⟨rest, here | here | here | here⟩ := blanks_start blanks
  · exact Or.inl (by rw [BreakAhead, here]; rfl)
  · exact Or.inl (by rw [BreakAhead, here]; rfl)
  · exact Or.inr ⟨rest, here⟩
  · exact Or.inl (by rw [BreakAhead, here]; rfl)

theorem comment_ahead {rest : List Char} {ch : Char} (here : c.rest = '#' :: rest)
    (next : c.pastBlanks.rest.head? = some ch) : ch = '\n' ∧ CommentAhead c.rest := by
  have behind := rest_past_comment here
  have stops := comment_stops rest
  rw [← behind, next] at stops
  obtain rfl : ch = '\n' := by simpa using stops
  obtain ⟨others, line⟩ := List.head?_eq_some_iff.mp next
  refine ⟨rfl, rest.take (layoutLength false true rest), others, ?_, comment_on_one_line rest⟩
  rw [← line, behind, List.take_append_drop]
  exact here

theorem name_ends {ch : Char} (whole : ∀ other, c.rest.head? = some other → continuesName other = false)
    (next : c.pastBlanks.rest.head? = some ch) (known : isWordBreak false ch = true ∨ continuesName ch = true) :
    BreakAhead c.rest ∨ ch = '\n' ∧ CommentAhead c.rest := by
  by_cases same : c.pastBlanks = c
  · rw [same] at next
    refine Or.inl ?_
    rw [BreakAhead, next]
    rcases known with breaks | continues
    · exact breaks
    · exact absurd continues (by simp [whole ch next])
  · rcases word_end_or_comment same with ends | ⟨rest, here⟩
    · exact Or.inl ends
    · exact Or.inr (comment_ahead here next)

-- A line, a sign or a letter with which the rest of a loop goes on behind the blanks after its name.
def GoesOn (text : List Char) : Prop :=
  ∃ ch, text.head? = some ch ∧ (isWordBreak false ch = true ∨ continuesName ch = true)

theorem goes_on_at_keyword {word : String} {u : Unit} {first : Char} {others : List Char}
    (given : (keyword word).MayGive answers room c u d) (spelled : word.toList = first :: others)
    (letter : continuesName first = true) : GoesOn c.rest := by
  have reserved := ((may_give_keyword _ _ _ _).mp given).1
  rw [spelled] at reserved
  obtain ⟨behind, here⟩ := starts_of_starts_reserved _ _ reserved
  exact ⟨first, by rw [← here]; rfl, Or.inr letter⟩

theorem goes_on_at_line (newline : c.rest.head? = some '\n') : GoesOn c.rest :=
  ⟨'\n', newline, Or.inl (by decide)⟩

theorem in_clause_goes_on {node : Node} (given : inClause.MayGive answers room c node d) :
    GoesOn c.rest := by
  obtain ⟨_, e, broken, _, f, opened, -⟩ := given
  rcases (may_give_line_break _ _ _).mp broken with ⟨newline, -⟩ | rfl
  · exact goes_on_at_line newline
  · exact goes_on_at_keyword opened (by decide : "in".toList = ['i', 'n']) (by decide)

theorem separator_goes_on {u : Unit} (given : sequentialSeparator.MayGive answers room c u d) :
    GoesOn c.rest := by
  rcases (may_give_or_else _ _ _ _ _).mp given with ⟨_, e, alone, -⟩ | newline
  · exact ⟨';', ((may_give_lone_operator _ _ _ _).mp alone).1.1, Or.inl (by decide)⟩
  · exact goes_on_at_line ((may_give_newlines _ _ _).mp newline).1

theorem do_group_goes_on {node : Node} (given : doGroup.MayGive answers room c node d) :
    GoesOn c.rest := by
  obtain ⟨_, e, opened, -⟩ := (may_give_atomic _ _ _ _).mp given
  exact goes_on_at_keyword opened (by decide : "do".toList = ['d', 'o']) (by decide)

theorem for_clause_name {node : Node} (given : forClause.MayGive answers room c node d) :
    startsReserved "for".toList c.rest = true ∧
      LoopName (fun after => BreakAhead after ∨ CommentAhead after) c node := by
  simp only [forClause, may_give_atomic, may_give_bind, may_give_blanks] at given
  obtain ⟨_, e, opened, chars, f, named, _, _, rfl, words, g, tried, given⟩ := given
  obtain ⟨reserved, rfl⟩ := (may_give_keyword _ _ _ _).mp opened
  have taken := name_at named
  have behind : GoesOn f.pastBlanks.rest ∧ ∃ contents, node = ⟨.forLoop, .text chars contents, none⟩ := by
    rcases (may_give_attempt _ _ _ _).mp tried with ⟨inside, rfl, clause⟩ | ⟨rfl, same⟩
    · simp only [Option.isNone_some, Bool.false_eq_true, if_false, may_give_bind, may_give_pure] at given
      obtain ⟨body, _, -, rfl, -⟩ := given
      exact ⟨in_clause_goes_on clause, _, rfl⟩
    · simp only [Option.isNone_none, if_true, may_give_bind, may_give_optional, may_give_pure] at given
      obtain ⟨_, h, ended, body, _, done, rfl, -⟩ := given
      subst same
      rcases ended with ⟨_, separated⟩ | same
      · exact ⟨separator_goes_on separated, _, rfl⟩
      · subst same
        exact ⟨do_group_goes_on done, _, rfl⟩
  obtain ⟨⟨ch, next, known⟩, contents, shape⟩ := behind
  refine ⟨reserved, chars, contents, f.rest, taken, shape, ?_⟩
  exact (name_ends taken.whole next known).imp_right And.right

theorem function_definition_name {node : Node} (given : functionDefinition.MayGive answers room c node d) :
    FunctionName BreakAhead c node := by
  rw [functionDefinition, may_give_look_bind] at given
  by_cases reserved : reservedAhead c.rest = true
  · rw [if_pos reserved] at given
    exact given.elim
  · rw [if_neg reserved] at given
    simp only [may_give_atomic, may_give_bind, may_give_blanks, may_give_pure] at given
    obtain ⟨chars, e, named, _, _, rfl, _, f, opened, _, g, -, _, h, -, compound, i, -, body, _, -, rfl, -⟩ := given
    have taken := name_at named
    have paren : e.pastBlanks.rest.head? = some '(' := by
      obtain ⟨behind, here⟩ := ((may_give_operator _ _ _ _).mp opened).1
      rw [← here]
      rfl
    refine ⟨chars, body, e.rest, taken, rfl, ?_⟩
    rcases name_ends taken.whole paren (Or.inl (by decide)) with ends | ⟨impossible, -⟩
    · exact ends
    · cases impossible

end

-- What the rules answer does not matter, as none is called before a name has ended.
def anyAnswers : Answers := fun _ _ _ _ _ => True

/-- The name of a loop or a function is a whole token, in any state of a run: what stands right behind it
ends an unquoted run of text. Only a comment may stand there too, right behind the name of a loop. -/
theorem names_end_as_words (mode : Mode) (level : Nat) (s : State) (node : Node) :
    ((forClause.run (evaluate grammar mode) mode.limit level s).1 = some node →
      startsReserved "for".toList s.cursor.rest = true ∧
        LoopName (fun after => BreakAhead after ∨ CommentAhead after) s.cursor node) ∧
    ((functionDefinition.run (evaluate grammar mode) mode.limit level s).1 = some node →
      FunctionName BreakAhead s.cursor node) := by
  have answered : ∀ rule level s node, (evaluate grammar mode rule level s).1 = some node →
      anyAnswers none rule s.cursor node (evaluate grammar mode rule level s).2.cursor :=
    fun _ _ _ _ _ => trivial
  exact ⟨fun given => for_clause_name (run_may_give answered forClause level s node given),
    fun given => function_definition_name (run_may_give answered functionDefinition level s node given)⟩

theorem names_of_loop_and_function :
    (∃ node, (forClause.run (evaluate grammar ⟨true, 0⟩) 0 0 (.start "for x in a; do b; done".toList)).1 = some node ∧
      LoopName (fun after => BreakAhead after ∨ CommentAhead after) (.start "for x in a; do b; done".toList) node) ∧
    (∃ node, (functionDefinition.run (evaluate grammar ⟨true, 0⟩) 0 0 (.start "f () (a)".toList)).1 = some node ∧
      FunctionName BreakAhead (.start "f () (a)".toList) node) := by
  obtain ⟨loop, looped⟩ := Option.isSome_iff_exists.mp (by decide +kernel :
    (forClause.run (evaluate grammar ⟨true, 0⟩) 0 0 (.start "for x in a; do b; done".toList)).1.isSome = true)
  obtain ⟨function, defined⟩ := Option.isSome_iff_exists.mp (by decide +kernel :
    (functionDefinition.run (evaluate grammar ⟨true, 0⟩) 0 0 (.start "f () (a)".toList)).1.isSome = true)
  exact ⟨⟨loop, looped, ((names_end_as_words ⟨true, 0⟩ 0 _ loop).1 looped).2⟩,
    ⟨function, defined, (names_end_as_words ⟨true, 0⟩ 0 _ function).2 defined⟩⟩

-- What runs on behind the name in the same word is dropped as a comment.
theorem comment_in_word_of_name :
    (parse Config.unlimited "for x#c\ndo a; done").toOption.isSome = true ∧
    ∃ node, (forClause.run (evaluate grammar ⟨true, 0⟩) 0 0 (.start "for x#c\ndo a; done".toList)).1 = some node ∧
      ¬ LoopName BreakAhead (.start "for x#c\ndo a; done".toList) node := by
  obtain ⟨node, given, named⟩ := Option.map_eq_some_iff.mp (by decide +kernel :
    (forClause.run (evaluate grammar ⟨true, 0⟩) 0 0 (.start "for x#c\ndo a; done".toList)).1.map
      (fun node => node.contents.toList.head?) = some (some (.text ['x'])))
  refine ⟨by decide +kernel, node, given, ?_⟩
  rintro ⟨chars, contents, after, taken, rfl, breaks⟩
  obtain rfl : chars = ['x'] := by cases named; rfl
  have here : ['x'] ++ "#c\ndo a; done".toList = ['x'] ++ after := taken.here
  rw [← List.append_cancel_left here] at breaks
  exact absurd breaks (by rw [BreakAhead]; decide)

end ShellLine
