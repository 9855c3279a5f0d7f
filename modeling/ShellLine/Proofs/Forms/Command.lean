import ShellLine.Grammar.Rules
import ShellLine.Proofs.Forms.Compound

set_option autoImplicit false

namespace ShellLine.Grammar

open ShellLine.Parser

abbrev leadItem : Parser Node := call .redirection <|> assignment

abbrev argumentItem : Parser Node := call .redirection <|> call .word

abbrev nextStage : Parser Node := do loneOperator '|'; lineBreak; call .command

def leadNodes (items : List Node) : List Node :=
  if items = [] then [] else [.ofNodes .commandLead items]

def stagesNode (first : Node) (others : List Node) : Node :=
  if others = [] then first else .ofNodes .pipeline (first :: others)

-- The node of a chain, which groups to the left.
def chainNode (first : Node) (links : List (Kind × Node)) : Node :=
  links.foldl (fun left link => .ofNodes link.1 [left, link.2]) first

def chainOperators : List (String × Kind) := [("&&", .andIf), ("||", .orIf)]

section Forms

variable (calls : Rule → Cursor → Reading Node)

-- A redirection. Its operator is the longest that stands there.
inductive RedirectionForm (c : Cursor) : Node → Cursor → Prop
  | operation {d e : Cursor} {descriptor : List Node} {text : String} {kind : Kind}
      {mark : Option Nat} {target : Node}
      (described : descriptor = [] ∧ c = d ∨ ∃ digits,
        descriptor = [.leaf .redirectedDescriptor digits] ∧ (∀ ch ∈ digits, ch.isDigit = true) ∧
          c.rest = digits ++ d.rest)
      (operator : (text, kind) ∈ redirectionOperators) (here : text.toList <+: d.rest)
      (longest : ∀ pair ∈ redirectionOperators, pair.1.toList <+: d.rest →
        pair.1.length ≤ text.length)
      (targetGiven : (call .word).Gives calls (d.advance text.length).pastBlanks target e) :
      RedirectionForm c (.ofNodes .redirection (descriptor ++ [⟨kind, .ofNodes [target], mark⟩])) e

inductive AssignmentForm (c : Cursor) : Node → Cursor → Prop
  | value {d e : Cursor} {parameter : List Char} {parts : List Node}
      (named : name.Gives calls c parameter d) (equals : "=".toList <+: d.rest)
      (items : Items calls (wordPart false) (d.advance 1) parts e) :
      AssignmentForm c ⟨.assignment, .text parameter (.ofNodes [.ofNodes .word parts]), none⟩
        e.pastBlanks

inductive SimpleForm (c : Cursor) : Node → Cursor → Prop
  | named {d e f : Cursor} {items others : List Node} {first : Node}
      (leads : Items calls leadItem c items d) (unreserved : reservedAhead d.rest = false)
      (nameGiven : (call .word).Gives calls d first e) (arguments : Items calls argumentItem e others f) :
      SimpleForm c (.ofNodes .simpleCommand (leadNodes items ++ first :: others)) f
  | bare {d : Cursor} {items : List Node} (leads : Items calls leadItem c items d)
      (nonempty : items ≠ []) : SimpleForm c (.ofNodes .simpleCommand (leadNodes items)) d

inductive RedirectedForm (compound : Node) (c : Cursor) : Node → Cursor → Prop
  | items {d : Cursor} {redirections : List Node}
      (items : Items calls (call .redirection) c redirections d) :
      RedirectedForm compound c
        { compound with contents := compound.contents.append (.ofNodes redirections) } d

inductive CommandForm (c : Cursor) : Node → Cursor → Prop
  | function {d e f g : Cursor} {chars : List Char} {compound body : Node}
      (named : name.Gives calls c chars d) (opened : (operator "(").Gives calls d.pastBlanks () e)
      (closed : (operator ")").Gives calls e () f)
      (given : CompoundForm calls f.pastBreak compound g) {h : Cursor}
      (redirected : RedirectedForm calls compound g body h) :
      CommandForm c (.ofNodes .functionDefinition [.leaf .functionName chars, body]) h
  | compound {d e : Cursor} {compound node : Node} (given : CompoundForm calls c compound d)
      (redirected : RedirectedForm calls compound d node e) : CommandForm c node e
  | simple {d : Cursor} {node : Node} (given : SimpleForm calls c node d) : CommandForm c node d

inductive PipelineForm (c : Cursor) : Node → Cursor → Prop
  | plain {d e : Cursor} {first : Node} {others : List Node}
      (given : (call .command).Gives calls c first d) (stages : Items calls nextStage d others e) :
      PipelineForm c (stagesNode first others) e
  | bang {d e f : Cursor} {first : Node} {others : List Node}
      (opened : (keyword "!").Gives calls c () d) (given : (call .command).Gives calls d first e)
      (stages : Items calls nextStage e others f) :
      PipelineForm c (.wrap .bang (stagesNode first others)) f

inductive LinkForm (c : Cursor) : Kind × Node → Cursor → Prop
  | link {d e : Cursor} {text : String} {kind : Kind} {right : Node}
      (operators : (text, kind) ∈ chainOperators) (joined : (operator text).Gives calls c () d)
      (given : PipelineForm calls d.pastBreak right e) : LinkForm c (kind, right) e

inductive ChainForm (c : Cursor) : Node → Cursor → Prop
  | chain {d e : Cursor} {first : Node} {links : List (Kind × Node)}
      (given : PipelineForm calls c first d) (items : Items calls andOrLink d links e) :
      ChainForm c (chainNode first links) e

end Forms

variable {calls : Rule → Cursor → Reading Node} {c d : Cursor}

theorem redirected_descriptor_form {node : Node}
    (given : redirectedDescriptor.Gives calls c node d) :
    ∃ digits, node = .leaf .redirectedDescriptor digits ∧ (∀ ch ∈ digits, ch.isDigit = true) ∧
      c.rest = digits ++ d.rest := by
  simp only [redirectedDescriptor, gives_atomic, gives_bind] at given
  obtain ⟨digits, e, taken, given⟩ := given
  obtain ⟨whole, isDigit, -⟩ := take_while_form taken
  split at given
  · simp at given
  · rw [gives_look_bind] at given
    have made : node = .leaf .redirectedDescriptor digits ∧ e = d := by
      split at given <;> simp_all
    obtain ⟨rfl, rfl⟩ := made
    exact ⟨digits, rfl, isDigit, whole⟩

theorem head_of_start {text rest : List Char} (here : text <+: rest) (nonempty : text ≠ []) :
    rest.head? = text.head? := by
  obtain ⟨behind, rfl⟩ := here
  cases text with
  | nil => exact absurd rfl nonempty
  | cons ch others => rfl

-- Of the operators that stand somewhere the first in the list is the longest.
theorem first_redirection_operator_longest {before after : List (String × Kind)} {text : String}
    {kind : Kind} {rest : List Char} (operators : redirectionOperators = before ++ (text, kind) :: after)
    (first : ∀ pair ∈ before, ¬ pair.1.toList <+: rest) (here : text.toList <+: rest) :
    ∀ pair ∈ redirectionOperators, pair.1.toList <+: rest → pair.1.length ≤ text.length := by
  have nonempty : ∀ pair ∈ redirectionOperators, pair.1.toList ≠ [] := by decide
  have ordered : redirectionOperators.Pairwise fun earlier later =>
      earlier.1.toList.head? = later.1.toList.head? → later.1.length ≤ earlier.1.length := by decide
  rw [operators] at nonempty ordered ⊢
  intro pair member found
  have sameHead : text.toList.head? = pair.1.toList.head? := by
    rw [← head_of_start found (nonempty pair member)]
    exact (head_of_start here (nonempty (text, kind) (by simp))).symm
  rcases List.mem_append.mp member with inFront | behind
  · exact absurd found (first pair inFront)
  · rcases List.mem_cons.mp behind with rfl | later
    · exact Nat.le_refl _
    · have orderedBehind := (List.pairwise_append.mp ordered).2.1
      exact (List.pairwise_cons.mp orderedBehind).1 pair later sameHead

theorem redirection_form {node : Node} (given : redirection.Gives calls c node d) :
    RedirectionForm calls c node d := by
  simp only [redirection, gives_bind, gives_place, gives_blanks, gives_pure] at given
  obtain ⟨descriptor, e, tried, mark, _, ⟨rfl, rfl⟩, kind, f, found, _, _, rfl, target, _, targetGiven,
    rfl, rfl⟩ := given
  obtain ⟨before, text, after, operators, longest, here, rfl⟩ := gives_literal_among found
  refine .operation ?_ (by simp [operators]) here
    (first_redirection_operator_longest operators longest here) targetGiven
  rcases (gives_attempt _ _ _ _).mp tried with ⟨inner, rfl, described⟩ | ⟨rfl, -, same⟩
  · obtain ⟨digits, rfl, isDigit, whole⟩ := redirected_descriptor_form described
    exact Or.inr ⟨digits, rfl, isDigit, whole⟩
  · exact Or.inl ⟨rfl, same⟩

theorem assignment_form {node : Node} (given : assignment.Gives calls c node d) :
    AssignmentForm calls c node d := by
  simp only [assignment, wordParts, gives_atomic, gives_bind, gives_literal, gives_many,
    gives_blanks, gives_pure] at given
  obtain ⟨parameter, e, named, _, _, ⟨equals, rfl⟩, parts, _, items, _, _, rfl, rfl, rfl⟩ := given
  exact .value named equals items

theorem command_word_form {node : Node} (given : commandWord.Gives calls c node d) :
    reservedAhead c.rest = false ∧ (call .word).Gives calls c node d := by
  rw [commandWord, gives_look_bind] at given
  split at given
  · simp at given
  · rename_i unreserved
    exact ⟨Bool.eq_false_iff.mpr unreserved, given⟩

theorem simple_command_form {node : Node} (given : simpleCommand.Gives calls c node d) :
    SimpleForm calls c node d := by
  obtain ⟨items, e, leads, given⟩ := (gives_bind _ _ _ _ _).mp given
  rw [gives_many] at leads
  rcases (gives_attempt_bind _ _ _ _ _).mp given with ⟨first, f, nameGiven, given⟩ | ⟨-, given⟩
  · simp only [gives_bind, gives_many, gives_pure] at given
    obtain ⟨others, _, arguments, rfl, rfl⟩ := given
    obtain ⟨unreserved, word⟩ := command_word_form nameGiven
    exact .named leads unreserved word arguments
  · by_cases empty : items = []
    · simp [empty] at given
    · simp only [if_neg empty, gives_pure] at given
      obtain ⟨rfl, rfl⟩ := given
      have bare := SimpleForm.bare leads empty
      rwa [leadNodes, if_neg empty] at bare

theorem with_redirections_form {compound node : Node}
    (given : (withRedirections compound).Gives calls c node d) :
    RedirectedForm calls compound c node d := by
  simp only [withRedirections, gives_bind, gives_many, gives_pure] at given
  obtain ⟨redirections, _, items, rfl, rfl⟩ := given
  exact .items items

theorem command_form {node : Node} (given : command.Gives calls c node d) :
    CommandForm calls c node d := by
  simp only [command, gives_or_else, gives_bind] at given
  rcases given with defined | ⟨-, ⟨compound, e, given, after⟩ | ⟨-, simple⟩⟩
  · rw [functionDefinition, gives_look_bind] at defined
    split at defined
    · simp at defined
    · simp only [gives_atomic, gives_bind, gives_blanks, gives_line_break, gives_pure] at defined
      obtain ⟨chars, _, named, _, _, rfl, _, f, opened, _, g, closed, _, _, rfl, compound, h, given,
        body, _, redirected, rfl, rfl⟩ := defined
      exact .function named opened closed (compound_command_form given)
        (with_redirections_form redirected)
  · exact .compound (compound_command_form given) (with_redirections_form after)
  · exact .simple (simple_command_form simple)

theorem next_stage_form {node : Node} (given : nextStage.Gives calls c node d) :
    standsAlone '|' c.rest ∧ (call .command).Gives calls (c.advance 1).pastBlanks.pastBreak node d := by
  simp only [nextStage, gives_bind, gives_lone_operator, gives_line_break] at given
  obtain ⟨_, _, ⟨bar, rfl⟩, _, _, rfl, given⟩ := given
  exact ⟨bar, given⟩

theorem pipe_sequence_form {node : Node} (given : pipeSequence.Gives calls c node d) :
    ∃ first e others, (call .command).Gives calls c first e ∧ Items calls nextStage e others d ∧
      node = stagesNode first others := by
  simp only [pipeSequence, gives_bind, gives_many] at given
  obtain ⟨first, e, given, others, f, stages, made⟩ := given
  refine ⟨first, e, others, given, ?_⟩
  cases others with
  | nil =>
      obtain ⟨rfl, rfl⟩ := (gives_pure _ _ _ _).mp made
      exact ⟨stages, rfl⟩
  | cons second more =>
      obtain ⟨rfl, rfl⟩ := (gives_pure _ _ _ _).mp made
      exact ⟨stages, rfl⟩

theorem pipeline_form {node : Node} (given : pipeline.Gives calls c node d) :
    PipelineForm calls c node d := by
  simp only [pipeline, gives_atomic, gives_bind, gives_attempt, gives_pure] at given
  obtain ⟨_, e, tried, stages, _, piped, rfl, rfl⟩ := given
  obtain ⟨first, f, others, given, stages, rfl⟩ := pipe_sequence_form piped
  rcases tried with ⟨_, rfl, opened⟩ | ⟨rfl, -, rfl⟩
  · exact .bang opened given stages
  · exact .plain given stages

theorem and_or_link_form {link : Kind × Node} (given : andOrLink.Gives calls c link d) :
    LinkForm calls c link d := by
  simp only [andOrLink, gives_bind, gives_or_else, gives_line_break, gives_pure] at given
  obtain ⟨kind, e, chosen, _, _, rfl, right, _, piped, rfl, rfl⟩ := given
  rcases chosen with ⟨_, _, joined, rfl, rfl⟩ | ⟨-, _, _, joined, rfl, rfl⟩
  · exact .link (by simp [chainOperators]) joined (pipeline_form piped)
  · exact .link (by simp [chainOperators]) joined (pipeline_form piped)

theorem and_or_form {node : Node} (given : andOr.Gives calls c node d) : ChainForm calls c node d := by
  simp only [andOr, gives_bind, gives_many, gives_pure] at given
  obtain ⟨first, e, given, links, _, items, rfl, rfl⟩ := given
  exact .chain (pipeline_form given) items

end ShellLine.Grammar
