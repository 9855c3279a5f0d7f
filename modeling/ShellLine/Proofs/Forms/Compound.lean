import ShellLine.Proofs.Forms.Word

set_option autoImplicit false

namespace ShellLine.Grammar

open ShellLine.Parser

abbrev nextCommand : Parser Node := do newlines; completeCommand

abbrev nextPattern : Parser Node := do loneOperator '|'; call .word

-- Where the term behind a separator starts: behind its newlines, where these separate too.
def pastSeparator (lines : Bool) (c : Cursor) : Cursor := if lines then c.pastBreak else c

section Forms

variable (calls : Rule → Cursor → Reading Node)

inductive SeparatorForm (lines : Bool) (c : Cursor) : Separator → Cursor → Prop
  | background (here : standsAlone '&' c.rest) :
      SeparatorForm lines c .background (pastSeparator lines (c.advance 1).pastBlanks)
  | semicolon (here : standsAlone ';' c.rest) :
      SeparatorForm lines c .sequential (pastSeparator lines (c.advance 1).pastBlanks)
  | newline (between : lines = true) (here : c.rest.head? = some '\n') :
      SeparatorForm lines c .sequential c.pastLines

-- A term of a list and the separator behind it.
inductive TermForm (lines : Bool) (c : Cursor) : Turn Node → Cursor → Prop
  | stop : TermForm lines c .stop c
  | last {d : Cursor} {node : Node} (given : (call .andOr).Gives calls c node d)
      (ended : (separator lines).Fails calls d) : TermForm lines c (.last node) d
  | background {d e : Cursor} {node : Node} (given : (call .andOr).Gives calls c node d)
      (ended : SeparatorForm lines d .background e) :
      TermForm lines c (.more (.wrap .background node)) e
  | sequential {d e : Cursor} {node : Node} (given : (call .andOr).Gives calls c node d)
      (ended : SeparatorForm lines d .sequential e) : TermForm lines c (.more node) e

-- The terms of a list; one that stands alone makes no list.
inductive ListForm (lines : Bool) (c : Cursor) : Node → Cursor → Prop
  | only {d : Cursor} {node : Node} (turns : Turns calls (term lines) c [node] d) :
      ListForm lines c node d
  | several {d : Cursor} {terms : List Node} (turns : Turns calls (term lines) c terms d)
      (two : 2 ≤ terms.length) : ListForm lines c (.ofNodes .list terms) d

inductive CommandsForm (c : Cursor) : List Node → Cursor → Prop
  | none : CommandsForm c [] c
  | some {d e : Cursor} {first : Node} {others : List Node}
      (given : completeCommand.Gives calls c first d) (items : Items calls nextCommand d others e) :
      CommandsForm c (first :: others) e

inductive SequentialForm (c : Cursor) : Cursor → Prop
  | semicolon (here : standsAlone ';' c.rest) :
      SequentialForm c (c.advance 1).pastBlanks.pastBreak
  | newline (here : c.rest.head? = some '\n') : SequentialForm c c.pastLines

inductive InForm (c : Cursor) : Node → Cursor → Prop
  | words {d e f : Cursor} {words : List Node} (inside : (keyword "in").Gives calls c.pastBreak () d)
      (items : Items calls (call .word) d words e) (ended : SequentialForm e f) :
      InForm c (.ofNodes .inWords words) f

inductive CaseForm (c : Cursor) : Node → Cursor → Prop
  | item {d e f g h : Cursor} {first : Node} {others bodies : List Node}
      (opened : (operator "(").Gives calls c () d ∨ c = d)
      (firstGiven : (call .word).Gives calls d first e) (patterns : Items calls nextPattern e others f)
      (closed : (operator ")").Gives calls f () g)
      (body : bodies = [] ∧ g.pastBreak = h ∨
        ∃ inner, bodies = [inner] ∧ compoundList.Gives calls g inner h) :
      CaseForm c ⟨.caseItem, .list (.ofNodes (first :: others)) (.ofNodes bodies), none⟩ h

inductive ElseForm (c : Cursor) : Node → Cursor → Prop
  | choice {d e : Cursor} {inner : Node} (opened : (keyword "elif").Gives calls c () d)
      (given : (call .conditional).Gives calls d inner e) : ElseForm c (.wrap .otherwise inner) e
  | list {d e : Cursor} {inner : Node} (opened : (keyword "else").Gives calls c () d)
      (given : compoundList.Gives calls d inner e) : ElseForm c (.wrap .otherwise inner) e

inductive ConditionalForm (c : Cursor) : Node → Cursor → Prop
  | choice {d e f g : Cursor} {condition consequent : Node} {alternatives : List Node}
      (tested : compoundList.Gives calls c condition d) (chosen : (keyword "then").Gives calls d () e)
      (list : compoundList.Gives calls e consequent f)
      (alternative : alternatives = [] ∧ f = g ∨
        ∃ inner, alternatives = [inner] ∧ ElseForm calls f inner g) :
      ConditionalForm c (.ofNodes .ifChoice
        ([.wrap .condition condition, .wrap .consequent consequent] ++ alternatives)) g

inductive DoForm (c : Cursor) : Node → Cursor → Prop
  | body {d e f : Cursor} {inner : Node} (opened : (keyword "do").Gives calls c () d)
      (list : compoundList.Gives calls d inner e) (closed : (keyword "done").Gives calls e () f) :
      DoForm c (.wrap .loopBody inner) f

inductive CompoundForm (c : Cursor) : Node → Cursor → Prop
  | braceGroup {d e f : Cursor} {inner : Node} (opened : (keyword "\x7b").Gives calls c () d)
      (list : compoundList.Gives calls d inner e) (closed : (keyword "\x7d").Gives calls e () f) :
      CompoundForm c (.wrap .braceGroup inner) f
  | subshell {d e f : Cursor} {inner : Node} (opened : (operator "(").Gives calls c () d)
      (list : compoundList.Gives calls d inner e) (closed : (operator ")").Gives calls e () f) :
      CompoundForm c (.wrap .subshell inner) f
  | forLoop {d e f g : Cursor} {parameter : List Char} {words : List Node} {body : Node}
      (opened : (keyword "for").Gives calls c () d) (named : name.Gives calls d parameter e)
      (clause : words = [] ∧ (e.pastBlanks = f ∨ SequentialForm e.pastBlanks f) ∨
        ∃ inside, words = [inside] ∧ InForm calls e.pastBlanks inside f)
      (done : DoForm calls f body g) :
      CompoundForm c ⟨.forLoop, .text parameter (.ofNodes (words ++ [body])), none⟩ g
  | caseChoice {d e f g h : Cursor} {subject : Node} {items : List Node}
      (opened : (keyword "case").Gives calls c () d) (chosen : (call .word).Gives calls d subject e)
      (inside : (keyword "in").Gives calls e.pastBreak () f)
      (listed : caseItems.Gives calls f.pastBreak items g)
      (closed : (keyword "esac").Gives calls g () h) :
      CompoundForm c (.ofNodes .caseChoice (subject :: items)) h
  | ifChoice {d e f : Cursor} {choice : Node} (opened : (keyword "if").Gives calls c () d)
      (chosen : (call .conditional).Gives calls d choice e)
      (closed : (keyword "fi").Gives calls e () f) : CompoundForm c choice f
  | loop {d e f : Cursor} {word : String} {kind : Kind} {condition body : Node}
      (repeated : (word, kind) ∈ [("while", .whileLoop), ("until", .untilLoop)])
      (opened : (keyword word).Gives calls c () d) (list : compoundList.Gives calls d condition e)
      (done : DoForm calls e body f) :
      CompoundForm c (.ofNodes kind [.wrap .condition condition, body]) f

end Forms

variable {calls : Rule → Cursor → Reading Node} {c d : Cursor}

theorem separator_form {lines : Bool} {kind : Separator}
    (given : (separator lines).Gives calls c kind d) : SeparatorForm lines c kind d := by
  have passed : ∀ {e : Cursor},
      (if lines = true then lineBreak else pure ()).Gives calls e () d → pastSeparator lines e = d := by
    intro e broken
    cases lines <;> simpa [pastSeparator] using broken
  simp only [separator, gives_or_else, gives_bind, gives_lone_operator, gives_pure] at given
  rcases given with ⟨_, _, ⟨here, rfl⟩, _, _, broken, rfl, rfl⟩ | ⟨-, given⟩
  · rw [← passed broken]
    exact .background here
  · rcases given with ⟨_, _, ⟨here, rfl⟩, _, _, broken, rfl, rfl⟩ | ⟨-, given⟩
    · rw [← passed broken]
      exact .semicolon here
    · cases lines with
      | false => simp at given
      | true =>
          simp only [if_true, gives_bind, gives_newlines, gives_pure] at given
          obtain ⟨_, _, ⟨here, rfl⟩, rfl, rfl⟩ := given
          exact .newline rfl here

theorem term_form {lines : Bool} {turn : Turn Node} (given : (term lines).Gives calls c turn d) :
    TermForm calls lines c turn d := by
  rcases (gives_attempt_bind _ _ _ _ _).mp given with ⟨node, e, chain, given⟩ | ⟨-, given⟩
  · rcases (gives_attempt_bind _ _ _ _ _).mp given with ⟨kind, f, separated, given⟩ | ⟨failed, given⟩
    · cases kind with
      | background =>
          obtain ⟨rfl, rfl⟩ := (gives_pure _ _ _ _).mp given
          exact .background chain (separator_form separated)
      | sequential =>
          obtain ⟨rfl, rfl⟩ := (gives_pure _ _ _ _).mp given
          exact .sequential chain (separator_form separated)
    · obtain ⟨rfl, rfl⟩ := (gives_pure _ _ _ _).mp given
      exact .last chain failed
  · obtain ⟨rfl, rfl⟩ := (gives_pure _ _ _ _).mp given
    exact .stop

theorem term_node_form {lines : Bool} {turn : Turn Node} {node : Node}
    (form : TermForm calls lines c turn d) (turned : turn = .more node ∨ turn = .last node) :
    (call .andOr).Gives calls c node d ∧ turn = .last node ∨
      (∃ inner e, node = .wrap .background inner ∧ (call .andOr).Gives calls c inner e ∧
        SeparatorForm lines e .background d) ∨
      ∃ e, (call .andOr).Gives calls c node e ∧ SeparatorForm lines e .sequential d := by
  cases form with
  | stop => rcases turned with impossible | impossible <;> cases impossible
  | last given _ =>
      obtain ⟨rfl⟩ : _ = node := by simpa using turned
      exact Or.inl ⟨given, rfl⟩
  | background given ended =>
      obtain ⟨rfl⟩ : _ = node := by simpa using turned
      exact Or.inr (Or.inl ⟨_, _, rfl, given, ended⟩)
  | sequential given ended =>
      obtain ⟨rfl⟩ : _ = node := by simpa using turned
      exact Or.inr (Or.inr ⟨_, given, ended⟩)

theorem term_list_form {lines : Bool} {node : Node} (given : (termList lines).Gives calls c node d) :
    ListForm calls lines c node d := by
  simp only [termList, gives_bind, gives_rounds] at given
  obtain ⟨terms, e, turns, given⟩ := given
  cases terms with
  | nil => simp at given
  | cons first others =>
      cases others with
      | nil =>
          obtain ⟨rfl, rfl⟩ := (gives_pure _ _ _ _).mp given
          exact .only turns
      | cons second more =>
          obtain ⟨rfl, rfl⟩ := (gives_pure _ _ _ _).mp given
          exact .several turns (by simp)

theorem complete_command_form {node : Node} (given : completeCommand.Gives calls c node d) :
    ∃ inner, (termList false).Gives calls c inner d ∧ node = .wrap .completeCommand inner := by
  simp only [completeCommand, gives_bind, gives_pure] at given
  obtain ⟨inner, _, given, rfl, rfl⟩ := given
  exact ⟨inner, given, rfl⟩

theorem complete_commands_form {commands : List Node}
    (given : completeCommands.Gives calls c commands d) : CommandsForm calls c commands d := by
  rcases (gives_attempt_bind _ _ _ _ _).mp given with ⟨first, e, command, later⟩ | ⟨-, none⟩
  · simp only [gives_bind, gives_many, gives_pure] at later
    obtain ⟨others, _, items, rfl, rfl⟩ := later
    exact .some command items
  · obtain ⟨rfl, rfl⟩ := (gives_pure _ _ _ _).mp none
    exact .none

theorem next_command_form {node : Node} (given : nextCommand.Gives calls c node d) :
    c.rest.head? = some '\n' ∧ completeCommand.Gives calls c.pastLines node d := by
  simp only [nextCommand, gives_bind, gives_newlines] at given
  obtain ⟨_, _, ⟨newline, rfl⟩, given⟩ := given
  exact ⟨newline, given⟩

theorem program_form {tree : Node} (given : program.Gives calls c tree d) :
    ∃ commands e, CommandsForm calls c.pastBlanks.pastBreak commands e ∧ e.pastBreak = d ∧
      tree = .ofNodes .program commands := by
  simp only [program, gives_bind, gives_blanks, gives_line_break, gives_pure] at given
  obtain ⟨_, _, rfl, _, _, rfl, commands, e, given, _, _, rfl, rfl, rfl⟩ := given
  exact ⟨commands, e, complete_commands_form given, rfl, rfl⟩

theorem compound_list_form {node : Node} (given : compoundList.Gives calls c node d) :
    (termList true).Gives calls c.pastBreak node d := by
  simp only [compoundList, gives_nested, gives_atomic, gives_bind, gives_line_break] at given
  obtain ⟨_, _, rfl, given⟩ := given
  exact given

theorem sequential_form (given : sequentialSeparator.Gives calls c () d) : SequentialForm c d := by
  simp only [sequentialSeparator, gives_or_else, gives_bind, gives_lone_operator, gives_line_break,
    gives_newlines] at given
  rcases given with ⟨_, _, ⟨here, rfl⟩, rfl⟩ | ⟨-, here, rfl⟩
  · exact .semicolon here
  · exact .newline here

theorem in_clause_form {node : Node} (given : inClause.Gives calls c node d) :
    InForm calls c node d := by
  simp only [inClause, gives_bind, gives_line_break, gives_many, gives_pure] at given
  obtain ⟨_, _, rfl, _, _, inside, words, _, items, _, _, ended, rfl, rfl⟩ := given
  exact .words inside items (sequential_form ended)

theorem next_pattern_form {node : Node} (given : nextPattern.Gives calls c node d) :
    standsAlone '|' c.rest ∧ (call .word).Gives calls (c.advance 1).pastBlanks node d := by
  simp only [nextPattern, gives_bind, gives_lone_operator] at given
  obtain ⟨_, _, ⟨bar, rfl⟩, given⟩ := given
  exact ⟨bar, given⟩

def CaseEnd (calls : Rule → Cursor → Reading Node) (item : Node) (c : Cursor) (turn : Turn Node)
    (d : Cursor) : Prop :=
  turn = .last item ∧ c = d ∨
    turn = .more item ∧ ∃ e, (operator ";;").Gives calls c () e ∧ e.pastBreak = d

theorem case_end_form {item : Node} {turn : Turn Node} (given : (do
    match ← attempt (operator ";;") with
    | some () =>
        lineBreak
        return .more item
    | none => return .last item : Parser (Turn Node)).Gives calls c turn d) :
    CaseEnd calls item c turn d := by
  rcases (gives_attempt_bind _ _ _ _ _).mp given with ⟨_, e, ended, given⟩ | ⟨-, given⟩
  · simp only [gives_bind, gives_line_break, gives_pure] at given
    obtain ⟨_, _, rfl, rfl, rfl⟩ := given
    exact Or.inr ⟨rfl, e, ended, rfl⟩
  · obtain ⟨rfl, rfl⟩ := (gives_pure _ _ _ _).mp given
    exact Or.inl ⟨rfl, rfl⟩

theorem case_item_form {turn : Turn Node} (given : caseItem.Gives calls c turn d) :
    ∃ item e, CaseForm calls c item e ∧ CaseEnd calls item e turn d := by
  simp only [caseItem, gives_atomic, gives_bind, gives_optional, gives_many] at given
  obtain ⟨_, e, opened, first, f, firstGiven, others, g, patterns, _, h, closed, body, i, tried,
    given⟩ := given
  have opening : (operator "(").Gives calls c () e ∨ c = e :=
    opened.imp (fun given => given.choose_spec) And.right
  cases body with
  | some inner =>
      obtain ⟨_, ⟨rfl⟩, list⟩ | ⟨impossible, -⟩ := (gives_attempt _ _ _ _).mp tried
      · exact ⟨_, i, .item opening firstGiven patterns closed (Or.inr ⟨inner, rfl, list⟩),
          case_end_form given⟩
      · cases impossible
  | none =>
      obtain ⟨_, impossible, -⟩ | ⟨-, -, rfl⟩ := (gives_attempt _ _ _ _).mp tried
      · cases impossible
      · simp only [Option.isNone_none, if_true, gives_bind, gives_line_break] at given
        obtain ⟨_, _, rfl, given⟩ := given
        exact ⟨_, _, .item opening firstGiven patterns closed (Or.inl ⟨rfl, rfl⟩),
          case_end_form ((gives_bind _ _ _ _ _).mpr given)⟩

theorem case_items_form {items : List Node} (given : caseItems.Gives calls c items d) :
    ∃ turn, Turns calls turn c items d ∧ ∀ e next f, turn.Gives calls e next f →
      (∃ item g, CaseForm calls e item g ∧ CaseEnd calls item g next f) ∨ next = .stop ∧ e = f := by
  refine ⟨_, (gives_rounds _ _ _ _).mp given, fun e next f turn => ?_⟩
  rcases (gives_attempt_bind _ _ _ _ _).mp turn with ⟨inner, g, read, made⟩ | ⟨-, made⟩
  · obtain ⟨rfl, rfl⟩ := (gives_pure _ _ _ _).mp made
    exact Or.inl (case_item_form read)
  · obtain ⟨rfl, rfl⟩ := (gives_pure _ _ _ _).mp made
    exact Or.inr ⟨rfl, rfl⟩

theorem else_part_form {node : Node} (given : elsePart.Gives calls c node d) :
    ElseForm calls c node d := by
  rw [elsePart, gives_atomic] at given
  rcases (gives_attempt_bind _ _ _ _ _).mp given with ⟨_, e, opened, given⟩ | ⟨-, given⟩
  · simp only [gives_bind, gives_pure] at given
    obtain ⟨inner, _, chosen, rfl, rfl⟩ := given
    exact .choice opened chosen
  · simp only [gives_bind, gives_pure] at given
    obtain ⟨_, e, opened, inner, _, list, rfl, rfl⟩ := given
    exact .list opened list

theorem conditional_form {node : Node} (given : conditional.Gives calls c node d) :
    ConditionalForm calls c node d := by
  simp only [conditional, gives_bind, gives_pure] at given
  obtain ⟨condition, e, tested, _, f, chosen, consequent, g, list, alternative, _, tried, rfl, rfl⟩ :=
    given
  rcases (gives_attempt _ _ _ _).mp tried with ⟨inner, rfl, given⟩ | ⟨rfl, -, same⟩
  · exact .choice tested chosen list (Or.inr ⟨inner, rfl, else_part_form given⟩)
  · exact .choice tested chosen list (Or.inl ⟨rfl, same⟩)

theorem do_group_form {node : Node} (given : doGroup.Gives calls c node d) :
    DoForm calls c node d := by
  simp only [doGroup, gives_atomic, gives_bind, gives_pure] at given
  obtain ⟨_, e, opened, inner, f, list, _, _, closed, rfl, rfl⟩ := given
  exact .body opened list closed

theorem for_clause_form {node : Node} (given : forClause.Gives calls c node d) :
    CompoundForm calls c node d := by
  simp only [forClause, gives_atomic, gives_bind, gives_blanks] at given
  obtain ⟨_, e, opened, parameter, f, named, _, _, rfl, words, g, tried, given⟩ := given
  rcases (gives_attempt _ _ _ _).mp tried with ⟨inside, rfl, clause⟩ | ⟨rfl, -, same⟩
  · simp only [Option.isNone_some, Bool.false_eq_true, if_false, gives_bind, gives_pure] at given
    obtain ⟨body, _, done, rfl, rfl⟩ := given
    exact .forLoop opened named (Or.inr ⟨inside, rfl, in_clause_form clause⟩) (do_group_form done)
  · simp only [Option.isNone_none, if_true, gives_bind, gives_optional, gives_pure] at given
    obtain ⟨_, h, ended, body, _, done, rfl, rfl⟩ := given
    refine .forLoop opened named (Or.inl ⟨rfl, ?_⟩) (do_group_form done)
    subst same
    rcases ended with ⟨_, separated⟩ | ⟨-, same⟩
    · exact Or.inr (sequential_form separated)
    · exact Or.inl same

theorem loop_clause_form {word : String} {kind : Kind} {node : Node}
    (repeated : (word, kind) ∈ [("while", Kind.whileLoop), ("until", .untilLoop)])
    (given : (loopClause word kind).Gives calls c node d) : CompoundForm calls c node d := by
  simp only [loopClause, gives_atomic, gives_bind, gives_pure] at given
  obtain ⟨_, e, opened, condition, f, list, body, _, done, rfl, rfl⟩ := given
  exact .loop repeated opened list (do_group_form done)

theorem compound_command_form {node : Node} (given : compoundCommand.Gives calls c node d) :
    CompoundForm calls c node d := by
  rw [compoundCommand, gives_look_bind] at given
  split at given
  · simp only [braceGroup, gives_atomic, gives_bind, gives_pure] at given
    obtain ⟨_, e, opened, inner, f, list, _, _, closed, rfl, rfl⟩ := given
    exact .braceGroup opened list closed
  · simp only [subshell, gives_atomic, gives_bind, gives_pure] at given
    obtain ⟨_, e, opened, inner, f, list, _, _, closed, rfl, rfl⟩ := given
    exact .subshell opened list closed
  · exact for_clause_form given
  · simp only [caseClause, gives_atomic, gives_bind, gives_line_break, gives_pure] at given
    obtain ⟨_, e, opened, subject, f, chosen, _, _, rfl, _, h, inside, _, _, rfl, items, i, listed,
      _, _, closed, rfl, rfl⟩ := given
    exact .caseChoice opened chosen inside listed closed
  · simp only [ifClause, gives_atomic, gives_bind, gives_pure] at given
    obtain ⟨_, e, opened, choice, f, chosen, _, _, closed, rfl, rfl⟩ := given
    exact .ifChoice opened chosen closed
  · exact loop_clause_form (by simp) given
  · exact loop_clause_form (by simp) given
  · simp at given

end ShellLine.Grammar
