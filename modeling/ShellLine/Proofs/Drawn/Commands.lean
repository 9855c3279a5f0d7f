import ShellLine.Proofs.Drawn.Words
import ShellLine.Proofs.Running.Upheld

set_option autoImplicit false

namespace ShellLine.Grammar

open ShellLine.Parser

variable {c : Cursor}

section Simple

theorem takes_redirected_descriptor : redirectedDescriptor.Takes drawnReplies false c Node.Drawn := by
  refine takes_atomic (takes_bind (takes_take_while _) fun taken digits d known _ => ?_)
  split
  · exact takes_refuse _
  · rename_i nonempty
    have drawn : (Node.leaf .redirectedDescriptor digits).Drawn taken := by
      rw [known.1]
      exact drawn_leaf rfl fun empty => absurd empty nonempty
    refine takes_look_bind ?_
    split
    · exact takes_return drawn
    · exact takes_return drawn
    · exact takes_fail

theorem takes_redirection : redirection.Takes drawnReplies false c Node.Drawn := by
  have listed : ∀ d, (literalAmong redirectionOperators).Takes drawnReplies false d
      fun taken kind => taken = [] ∧ kind.isRow = true := by
    refine fun d => takes_loosely (takes_literal_among redirectionOperators) fun passed kind operator =>
      ⟨[], List.nil_sublist passed, rfl, ?_⟩
    obtain ⟨text, -, found⟩ := operator
    have rows : ∀ pair ∈ redirectionOperators, pair.2.isRow = true := by decide
    exact rows _ (List.mem_of_find?_eq_some found)
  refine takes_bind (takes_attempt takes_redirected_descriptor) fun front descriptor d known _ => ?_
  refine takes_after drawn_forward fun mark _ => ?_
  refine takes_bind (listed _) fun sign kind _ operator _ => ?_
  obtain ⟨rfl, row⟩ := operator
  refine takes_after drawn_forward fun _ _ => ?_
  refine takes_bind (takes_call .word) fun taken target _ word _ => ?_
  have operation : Node.Drawn taken
      ⟨kind, .ofNodes [target], if kind.isHereDocument then some mark else none⟩ :=
    drawn_node (drawn_strung (strung_single word)) (tidy_of_row row (apart_of_nodes [target]))
  have whole : Node.Drawn (front ++ taken) (.ofNodes .redirection (descriptor.toList ++ [_])) :=
    drawn_of_nodes rfl (strung_append (strung_of_tried known) (strung_single operation))
  exact takes_pure (by simpa using whole)

theorem takes_assignment : assignment.Takes drawnReplies false c Node.Drawn := by
  refine takes_atomic (takes_bind takes_name fun front parameter _ known _ => ?_)
  refine takes_after drawn_forward fun _ _ => ?_
  refine takes_bind (takes_written_word false) fun taken value _ word _ => ?_
  obtain ⟨rfl, nonempty⟩ := known
  have whole : Node.Drawn (front ++ taken) ⟨.assignment, .text front (.ofNodes [.ofNodes .word value]), none⟩ :=
    drawn_node (drawn_text (drawn_strung (strung_single word))) (tidy_of_row rfl ⟨nonempty, rfl, trivial⟩)
  exact takes_after drawn_forward fun _ _ => takes_pure (by simpa using whole)

theorem takes_command_word : commandWord.Takes drawnReplies false c Node.Drawn := by
  refine takes_look_bind ?_
  split
  · exact takes_refuse _
  · exact takes_call .word

theorem takes_simple_command : simpleCommand.Takes drawnReplies false c Node.Drawn := by
  have lead : ∀ {taken : List Char} {items : List Node}, Strung Node.Drawn taken items →
      Strung Node.Drawn taken (if items = [] then [] else [Node.ofNodes .commandLead items]) := by
    intro taken items strung
    split
    · rename_i empty
      exact empty ▸ strung
    · exact strung_single (drawn_of_nodes rfl strung)
  refine takes_bind (takes_many fun _ => takes_or_else (takes_call .redirection) takes_assignment)
    fun front items _ strung _ => ?_
  refine takes_bind (takes_attempt takes_command_word) fun middle tried _ known _ => ?_
  cases tried with
  | none =>
      obtain rfl : middle = [] := known
      have whole : Node.Drawn front (.ofNodes .simpleCommand _) := drawn_of_nodes rfl (lead strung)
      dsimp only
      split
      · exact takes_fail
      · rename_i nonempty
        rw [if_neg nonempty] at whole
        exact takes_pure (by simpa using whole)
  | some first =>
      refine takes_bind (takes_many fun _ => takes_or_else (takes_call .redirection) (takes_call .word))
        fun rear others _ strungBehind _ => ?_
      have whole : Node.Drawn (front ++ (middle ++ rear)) (.ofNodes .simpleCommand (_ ++ first :: others)) :=
        drawn_of_nodes rfl (strung_append (lead strung) (.cons known strungBehind))
      exact takes_pure (by simpa using whole)

end Simple

section Compound

def DrawnRow (taken : List Char) (node : Node) : Prop := node.Drawn taken ∧ node.kind.isRow = true

theorem drawn_row {kind : Kind} {taken : List Char} {nodes : List Node} (row : kind.isRow = true)
    (strung : Strung Node.Drawn taken nodes) : DrawnRow taken (.ofNodes kind nodes) :=
  ⟨drawn_of_nodes row strung, row⟩

theorem takes_compound_list : compoundList.Takes drawnReplies false c Node.Drawn :=
  takes_nested (takes_atomic (takes_after drawn_forward fun _ _ => takes_term_list true))

theorem takes_enclosed {α β : Type} {opening : Parser α} {closing : Parser β} {kind : Kind}
    (row : kind.isRow = true) : (atomic do
      let _ ← opening
      let body ← compoundList
      let _ ← closing
      return Node.wrap kind body).Takes drawnReplies false c DrawnRow := by
  refine takes_atomic (takes_after drawn_forward fun _ _ => ?_)
  refine takes_bind takes_compound_list fun taken body _ drawn _ => takes_after drawn_forward fun _ _ => ?_
  exact takes_pure ((List.append_nil taken).symm ▸ drawn_row row (strung_single drawn))

theorem takes_do_group : doGroup.Takes drawnReplies false c Node.Drawn :=
  takes_mono (takes_enclosed rfl) fun _ _ => And.left

theorem takes_in_clause : inClause.Takes drawnReplies false c Node.Drawn := by
  refine takes_after drawn_forward fun _ _ => takes_after drawn_forward fun _ _ => ?_
  refine takes_bind (takes_many fun _ => takes_call .word) fun taken words _ strung _ => ?_
  exact takes_after drawn_forward fun _ _ => takes_return (drawn_of_nodes rfl strung)

theorem takes_for_clause : forClause.Takes drawnReplies false c DrawnRow := by
  refine takes_atomic (takes_after drawn_forward fun _ _ => ?_)
  refine takes_bind takes_name fun front parameter _ known _ => takes_after drawn_forward fun _ _ => ?_
  refine takes_bind (takes_attempt takes_in_clause) fun middle words d tried _ => ?_
  obtain ⟨rfl, nonempty⟩ := known
  have loop : ∀ d, (do
      let body ← doGroup
      return (⟨.forLoop, .text front (.ofNodes (words.toList ++ [body])), none⟩ : Node) :
        Parser Node).Takes drawnReplies false d fun rear node => DrawnRow (front ++ (middle ++ rear)) node := by
    refine fun d => takes_bind takes_do_group fun rear body _ drawn _ => ?_
    have whole : Node.Drawn (front ++ (middle ++ rear))
        ⟨.forLoop, .text front (.ofNodes (words.toList ++ [body])), none⟩ :=
      drawn_node (drawn_text (drawn_strung (strung_append (strung_of_tried tried) (strung_single drawn))))
        (tidy_of_row rfl ⟨nonempty, starts_text_of_nodes _, apart_of_nodes _⟩)
    exact takes_pure ⟨by simpa using whole, rfl⟩
  cases words with
  | none => exact takes_after drawn_forward fun _ _ => loop _
  | some words => exact loop _

theorem takes_item_end {item : Node} {taken : List Char} (drawn : item.Drawn taken) : (do
    match ← attempt (operator ";;") with
    | some () =>
        lineBreak
        return .more item
    | none => return .last item : Parser (Turn Node)).Takes drawnReplies false c
      fun rear turn => ItemTurn Node.Drawn (taken ++ rear) turn := by
  refine takes_after drawn_forward fun ended _ => ?_
  cases ended with
  | some _ => exact takes_after drawn_forward fun _ _ => takes_return drawn
  | none => exact takes_return drawn

theorem takes_case_item : caseItem.Takes drawnReplies false c (ItemTurn Node.Drawn) := by
  refine takes_atomic (takes_after drawn_forward fun _ _ => ?_)
  refine takes_bind (takes_call .word) fun front first _ word _ => ?_
  refine takes_bind (takes_many fun _ => takes_after drawn_forward fun _ _ => takes_call .word)
    fun middle others _ strung _ => takes_after drawn_forward fun _ _ => ?_
  refine takes_bind (takes_attempt takes_compound_list) fun rear body _ inside _ => ?_
  have item : Node.Drawn ((front ++ middle) ++ rear)
      ⟨.caseItem, .list (.ofNodes (first :: others)) (.ofNodes body.toList), none⟩ :=
    drawn_node (drawn_list (drawn_strung (.cons word strung)) (drawn_strung (strung_of_tried inside)))
      (tidy_of_row rfl ⟨apart_of_nodes _, apart_of_nodes _⟩)
  simp only [← List.append_assoc]
  cases body with
  | none => exact takes_after drawn_forward fun _ _ => takes_item_end item
  | some inner => exact takes_item_end item

theorem takes_case_items : caseItems.Takes drawnReplies false c (Strung Node.Drawn) := by
  refine takes_mono (takes_rounds fun _ => ?_) fun _ _ turns => strung_of_gathered turns
  refine takes_bind (takes_attempt takes_case_item) fun taken tried _ known _ => ?_
  cases tried with
  | none => exact takes_return known
  | some item => exact takes_return known

theorem takes_case_clause : caseClause.Takes drawnReplies false c DrawnRow := by
  refine takes_atomic (takes_after drawn_forward fun _ _ => ?_)
  refine takes_bind (takes_call .word) fun front subject _ word _ => ?_
  refine takes_after drawn_forward fun _ _ => takes_after drawn_forward fun _ _ =>
    takes_after drawn_forward fun _ _ => ?_
  refine takes_bind takes_case_items fun rear items _ strung _ => takes_after drawn_forward fun _ _ => ?_
  have whole : DrawnRow (front ++ rear) (.ofNodes .caseChoice (subject :: items)) :=
    drawn_row rfl (.cons word strung)
  exact takes_pure (by simpa using whole)

theorem takes_else_part : elsePart.Takes drawnReplies false c Node.Drawn := by
  refine takes_atomic (takes_after drawn_forward fun choice _ => ?_)
  cases choice with
  | some _ => exact takes_bind (takes_call .conditional) fun _ _ _ known _ => takes_return (drawn_wrap rfl known.1)
  | none =>
      exact takes_after drawn_forward fun _ _ =>
        takes_bind takes_compound_list fun _ _ _ drawn _ => takes_return (drawn_wrap rfl drawn)

theorem takes_conditional : conditional.Takes drawnReplies false c DrawnRow := by
  refine takes_bind takes_compound_list fun front condition _ tested _ => takes_after drawn_forward fun _ _ => ?_
  refine takes_bind takes_compound_list fun middle consequent _ listed _ => ?_
  refine takes_bind (takes_attempt takes_else_part) fun rear alternative _ known _ => ?_
  have whole : DrawnRow (front ++ (middle ++ rear)) (.ofNodes .ifChoice
      (.wrap .condition condition :: .wrap .consequent consequent :: alternative.toList)) :=
    drawn_row rfl (.cons (drawn_wrap rfl tested) (.cons (drawn_wrap rfl listed) (strung_of_tried known)))
  exact takes_pure (by simpa using whole)

theorem takes_if_clause : ifClause.Takes drawnReplies false c DrawnRow := by
  refine takes_atomic (takes_after drawn_forward fun _ _ => ?_)
  refine takes_bind (takes_call .conditional) fun taken choice _ known _ => takes_after drawn_forward fun _ _ => ?_
  exact takes_pure ((List.append_nil taken).symm ▸ known)

theorem takes_loop_clause (word : String) {kind : Kind} (row : kind.isRow = true) :
    (loopClause word kind).Takes drawnReplies false c DrawnRow := by
  refine takes_atomic (takes_after drawn_forward fun _ _ => ?_)
  refine takes_bind takes_compound_list fun front condition _ tested _ => ?_
  refine takes_bind takes_do_group fun rear body _ drawn _ => ?_
  have whole : DrawnRow (front ++ rear) (.ofNodes kind [.wrap .condition condition, body]) :=
    drawn_row row (.cons (drawn_wrap rfl tested) (strung_single drawn))
  exact takes_pure (by simpa using whole)

theorem takes_compound_command : compoundCommand.Takes drawnReplies false c DrawnRow := by
  refine takes_look_bind ?_
  split
  · exact takes_enclosed rfl
  · exact takes_enclosed rfl
  · exact takes_for_clause
  · exact takes_case_clause
  · exact takes_if_clause
  · exact takes_loop_clause "while" rfl
  · exact takes_loop_clause "until" rfl
  · exact takes_fail

theorem takes_with_redirections {compound : Node} {front : List Char} (drawn : DrawnRow front compound) :
    (withRedirections compound).Takes drawnReplies false c fun rear node => node.Drawn (front ++ rear) := by
  obtain ⟨drawn, row⟩ := drawn
  refine takes_bind (takes_many fun _ => takes_call .redirection) fun rear redirections _ strung _ => ?_
  have apart : compound.contents.IsApart :=
    apart_of_row row (drawn.tidy compound (self_mem_descendants compound)).1
  have whole : Node.Drawn (front ++ rear)
      { compound with contents := compound.contents.append (.ofNodes redirections) } :=
    drawn_node (drawn_append (contents_drawn drawn) (drawn_strung strung))
      (tidy_of_row row (apart_append apart redirections))
  exact takes_pure (by simpa using whole)

theorem takes_redirected : (do withRedirections (← compoundCommand)).Takes drawnReplies false c Node.Drawn :=
  takes_bind takes_compound_command fun _ _ _ drawn _ => takes_with_redirections drawn

theorem takes_function_definition : functionDefinition.Takes drawnReplies false c Node.Drawn := by
  refine takes_look_bind ?_
  split
  · exact takes_fail
  · refine takes_atomic (takes_bind takes_name fun front chars _ known _ => ?_)
    refine takes_after drawn_forward fun _ _ => takes_after drawn_forward fun _ _ =>
      takes_after drawn_forward fun _ _ => takes_after drawn_forward fun _ _ => ?_
    obtain ⟨rfl, nonempty⟩ := known
    refine takes_bind takes_compound_command fun middle compound _ drawn _ => ?_
    refine takes_bind (takes_with_redirections drawn) fun rear body _ drawn _ => ?_
    have named : (Node.leaf .functionName front).Drawn front :=
      drawn_leaf rfl fun empty => absurd empty nonempty
    have whole : Node.Drawn (front ++ (middle ++ rear))
        (.ofNodes .functionDefinition [.leaf .functionName front, body]) :=
      drawn_of_nodes rfl (.cons named (strung_single drawn))
    exact takes_pure (by simpa using whole)

theorem takes_command : command.Takes drawnReplies false c Node.Drawn :=
  takes_or_else takes_function_definition (takes_or_else takes_redirected takes_simple_command)

end Compound

section Chains

theorem takes_pipe_sequence : pipeSequence.Takes drawnReplies false c Node.Drawn := by
  refine takes_bind (takes_call .command) fun front first _ known _ => ?_
  refine takes_bind (takes_many fun _ => takes_after drawn_forward fun _ _ =>
    takes_after drawn_forward fun _ _ => takes_call .command) fun rear others _ strung _ => ?_
  have stages : Strung Node.Drawn (front ++ rear) (first :: others) := .cons known strung
  cases others with
  | nil => exact takes_pure (by simpa using drawn_sole stages)
  | cons second later =>
      have whole : Node.Drawn (front ++ rear) (.ofNodes .pipeline (first :: second :: later)) :=
        drawn_of_nodes rfl stages
      exact takes_pure (by simpa using whole)

theorem takes_pipeline : pipeline.Takes drawnReplies false c Node.Drawn := by
  refine takes_atomic (takes_after drawn_forward fun bang _ => ?_)
  refine takes_bind takes_pipe_sequence fun taken stages _ drawn _ => ?_
  cases bang with
  | none => exact takes_return drawn
  | some _ => exact takes_return (drawn_wrap rfl drawn)

def DrawnLink (taken : List Char) (link : Kind × Node) : Prop := link.1.isRow = true ∧ link.2.Drawn taken

theorem takes_and_or_link : andOrLink.Takes drawnReplies false c DrawnLink := by
  have sign : ∀ d, (((do operator "&&"; return .andIf) <|> (do operator "||"; return .orIf)) :
      Parser Kind).Takes drawnReplies false d fun taken kind => taken = [] ∧ kind.isRow = true :=
    fun d => takes_or_else (takes_after drawn_forward fun _ _ => takes_pure ⟨rfl, rfl⟩)
      (takes_after drawn_forward fun _ _ => takes_pure ⟨rfl, rfl⟩)
  refine takes_bind (sign _) fun front kind _ known _ => takes_after drawn_forward fun _ _ => ?_
  obtain ⟨rfl, row⟩ := known
  exact takes_bind takes_pipeline fun taken stages _ drawn _ => takes_pure ⟨row, by simpa using drawn⟩

theorem drawn_chain {taken front : List Char} {links : List (Kind × Node)} {first : Node}
    (drawn : first.Drawn front) (strung : Strung DrawnLink taken links) :
    (links.foldl (fun left link => Node.ofNodes link.1 [left, link.2]) first).Drawn (front ++ taken) := by
  induction strung generalizing first front with
  | nil => exact (List.append_nil front).symm ▸ drawn
  | @cons here behind link links known _ ih =>
      rw [List.foldl_cons, ← List.append_assoc]
      exact ih (drawn_of_nodes known.1 (.cons drawn (strung_single known.2)))

theorem takes_and_or : andOr.Takes drawnReplies false c Node.Drawn := by
  refine takes_bind takes_pipeline fun front first _ drawn _ => ?_
  refine takes_bind (takes_many fun _ => takes_and_or_link) fun rear links _ strung _ => ?_
  exact takes_pure (by simpa using drawn_chain drawn strung)

theorem takes_program : program.Takes drawnReplies false c Node.Drawn := by
  refine takes_after drawn_forward fun _ _ => takes_after drawn_forward fun _ _ => ?_
  refine takes_bind takes_complete_commands fun taken commands _ strung _ => ?_
  exact takes_after drawn_forward fun _ _ => takes_return (drawn_of_nodes rfl strung)

end Chains

end ShellLine.Grammar

namespace ShellLine

open ShellLine.Parser

theorem rule_takes (rule : Rule) (c : Cursor) : (grammar rule).Takes drawnReplies rule.isExact c rule.Draws := by
  cases rule with
  | word => exact Grammar.takes_word
  | redirection => exact Grammar.takes_redirection
  | operand => exact Grammar.takes_operand
  | command => exact Grammar.takes_command
  | andOr => exact Grammar.takes_and_or
  | conditional => exact Grammar.takes_conditional

theorem drawn_closed : drawnReplies.Closed := fun rule c node d ends =>
  ⟨may_end_forward Grammar.drawn_forward (grammar rule) ends, rule_takes rule c node d ends⟩

end ShellLine
