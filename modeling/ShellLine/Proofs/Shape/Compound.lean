import ShellLine.Proofs.Shape.Words

set_option autoImplicit false

namespace ShellLine.Grammar

open ShellLine.Parser

variable {calls : Rule → Cursor → Reading Node} (knows : Knows Good calls) {c d : Cursor}

include knows

theorem good_do_group {node : Node} (form : DoForm calls c node d) :
    node.kind = .loopBody ∧ node.IsWhole := by
  cases form with
  | body opened list closed =>
      obtain ⟨term, whole⟩ := good_compound_list knows list
      have ended := not_stuck_of_keyword (by decide) closed
      exact ⟨rfl, whole_of_wrap rfl term (whole.resolve_right ended)⟩

theorem good_in_clause {node : Node} (form : InForm calls c node d) :
    node.kind = .inWords ∧ node.IsWhole := by
  cases form with
  | words _ items _ => exact ⟨rfl, whole_words knows (by simp) items⟩

theorem good_case_item {node : Node} (form : CaseForm calls c node d) :
    node.kind = .caseItem ∧ (node.IsWhole ∨ Stuck d) := by
  cases form with
  | @item e f g h _ first others bodies _ firstGiven patterns _ body =>
      refine ⟨rfl, ?_⟩
      have each : ∀ word ∈ first :: others, word.isFullWord = true ∧ word.IsWhole := by
        refine List.forall_mem_cons.mpr ⟨knows.holds firstGiven, fun word member => ?_⟩
        obtain ⟨i, j, given⟩ := items_given patterns word member
        exact knows.holds (next_pattern_form given).2
      have children : (⟨.caseItem, .list (.ofNodes (first :: others)) (.ofNodes bodies), none⟩ :
          Node).children = first :: others ++ bodies := by
        simp [Node.children, Forest.nodes]
      have patternsFull : (first :: others).all Node.isFullWord = true :=
        List.all_eq_true.mpr fun word member => (each word member).1
      have shape : (∀ body ∈ bodies, body.kind.isTerm = true) → bodies.length ≤ 1 →
          (⟨.caseItem, .list (.ofNodes (first :: others)) (.ofNodes bodies), none⟩ :
            Node).isFormed = true := by
        intro terms few
        change Node.isCaseItem (.list (.ofNodes (first :: others)) (.ofNodes bodies)) = true
        rw [Node.isCaseItem, Forest.nodes_of_nodes, Forest.nodes_of_nodes, patternsFull]
        rcases bodies with - | ⟨body, - | ⟨second, more⟩⟩
        · simp
        · simpa using terms
        · simp at few
      rcases body with ⟨rfl, -⟩ | ⟨inner, rfl, list⟩
      · refine Or.inl (whole_of_children (shape (by simp) (by simp)) ?_)
        rw [children, List.append_nil]
        exact fun word member => (each word member).2
      · obtain ⟨term, whole⟩ := good_compound_list knows list
        refine whole.imp_left fun whole => whole_of_children (shape (by simpa using term) (by simp)) ?_
        rw [children]
        exact List.forall_mem_append.mpr
          ⟨fun word member => (each word member).2, List.forall_mem_singleton.mpr whole⟩

theorem good_case_items {items : List Node} (given : caseItems.Gives calls c items d) :
    (∀ item ∈ items, item.kind = .caseItem) ∧ ((∀ item ∈ items, item.IsWhole) ∨ Stuck d) := by
  obtain ⟨turn, turns, forms⟩ := case_items_form given
  have last : ∀ {e f : Cursor} {item : Node}, turn.Gives calls e (.last item) f →
      item.kind = .caseItem ∧ (item.IsWhole ∨ Stuck f) := by
    intro e f item given
    rcases forms e _ f given with ⟨found, g, form, ⟨same, rfl⟩ | ⟨impossible, -⟩⟩ | ⟨impossible, -⟩
    · cases same
      exact good_case_item knows form
    · cases impossible
    · cases impossible
  have more : ∀ {e f : Cursor} {item : Node}, turn.Gives calls e (.more item) f →
      item.kind = .caseItem ∧ item.IsWhole := by
    intro e f item given
    rcases forms e _ f given with ⟨found, g, form, ⟨impossible, -⟩ | ⟨same, h, closed, -⟩⟩ |
      ⟨impossible, -⟩
    · cases impossible
    · cases same
      obtain ⟨kind, whole⟩ := good_case_item knows form
      exact ⟨kind, whole.resolve_right (not_stuck_of_operator (by decide) closed)⟩
    · cases impossible
  clear given
  induction turns with
  | stop _ => exact ⟨by simp, Or.inl (by simp)⟩
  | last given =>
      obtain ⟨kind, whole⟩ := last given
      exact ⟨List.forall_mem_singleton.mpr kind, whole.imp_left List.forall_mem_singleton.mpr⟩
  | halt given _ =>
      obtain ⟨kind, whole⟩ := more given
      exact ⟨List.forall_mem_singleton.mpr kind, Or.inl (List.forall_mem_singleton.mpr whole)⟩
  | more given _ _ ih =>
      obtain ⟨kind, whole⟩ := more given
      exact ⟨List.forall_mem_cons.mpr ⟨kind, ih.1⟩,
        ih.2.imp_left fun later => List.forall_mem_cons.mpr ⟨whole, later⟩⟩

theorem good_else_part {node : Node} (form : ElseForm calls c node d) :
    node.kind = .otherwise ∧ (node.IsWhole ∨ Stuck d) := by
  cases form with
  | @choice e _ inner _ given =>
      obtain ⟨kind, grows⟩ := knows.holds given
      refine ⟨rfl, grows.imp_left fun grows => whole_of_wrap rfl ?_ ?_⟩
      · change inner.kind.isTerm = true
        rw [kind]
        rfl
      · have whole : (inner.redirected []).IsWhole := whole_of_grows grows (by simp) (by simp)
        rwa [redirected_nil] at whole
  | list _ given =>
      obtain ⟨term, whole⟩ := good_compound_list knows given
      exact ⟨rfl, whole.imp_left (whole_of_wrap rfl term)⟩

theorem good_conditional {node : Node} (given : conditional.Gives calls c node d) :
    node.kind = .ifChoice ∧ (node.Grows ∨ Stuck d) := by
  cases conditional_form given with
  | @choice e f g _ condition consequent alternatives tested chosen list alternative =>
      refine ⟨rfl, ?_⟩
      obtain ⟨conditionTerm, conditionWhole⟩ := good_compound_list knows tested
      obtain ⟨consequentTerm, consequentWhole⟩ := good_compound_list knows list
      have wrappedCondition : (Node.wrap .condition condition).IsWhole :=
        whole_of_wrap rfl conditionTerm
          (conditionWhole.resolve_right (not_stuck_of_keyword (by decide) chosen))
      rcases alternative with ⟨rfl, rfl⟩ | ⟨inner, rfl, other⟩
      · refine consequentWhole.imp_left fun whole => grows_of_nodes rfl (fun count more kinds => ?_) ?_
        · change Kind.isIf (List.map Node.kind (_ ++ more)) = true
          rw [List.map_append, kinds]
          cases count with
          | zero => rfl
          | succ count => exact are_redirections_replicate (count + 1)
        · exact List.forall_mem_cons.mpr ⟨wrappedCondition,
            List.forall_mem_singleton.mpr (whole_of_wrap rfl consequentTerm whole)⟩
      · obtain ⟨kind, otherWhole⟩ := good_else_part knows other
        have opened : ¬ Stuck g := by
          cases other with
          | choice opened _ => exact not_stuck_of_keyword (by decide) opened
          | list opened _ => exact not_stuck_of_keyword (by decide) opened
        refine otherWhole.imp_left fun whole => grows_of_nodes rfl (fun count more kinds => ?_) ?_
        · change Kind.isIf (List.map Node.kind (_ ++ more)) = true
          rw [List.map_append, kinds]
          change Kind.isIf (.condition :: .consequent :: inner.kind :: _) = true
          rw [kind]
          exact are_redirections_replicate count
        · simp only [List.cons_append, List.nil_append, List.forall_mem_cons]
          exact ⟨wrappedCondition, whole_of_wrap rfl consequentTerm (consequentWhole.resolve_right opened),
            whole, by simp⟩

theorem grows_of_group {kind : Kind} {inner : Node} {e : Cursor}
    (group : kind = .braceGroup ∨ kind = .subshell) (list : compoundList.Gives calls c inner e)
    (closed : ¬ Stuck e) : (Node.wrap kind inner).Grows := by
  obtain ⟨term, whole⟩ := good_compound_list knows list
  have row : kind.layout = .row := by
    rcases group with rfl | rfl <;> rfl
  refine grows_of_nodes row (fun count more kinds => ?_)
    (List.forall_mem_singleton.mpr (whole.resolve_right closed))
  have shape : Node.isRow kind ([inner] ++ more) =
      (inner.kind.isTerm && Kind.areRedirections (more.map Node.kind)) := by
    rcases group with rfl | rfl <;> rfl
  rw [shape, term, kinds, are_redirections_replicate]
  rfl

theorem grows_of_loop {kind : Kind} {condition body : Node} {e f : Cursor}
    (loop : kind = .whileLoop ∨ kind = .untilLoop) (list : compoundList.Gives calls c condition e)
    (done : DoForm calls e body f) : (Node.ofNodes kind [.wrap .condition condition, body]).Grows := by
  obtain ⟨term, whole⟩ := good_compound_list knows list
  obtain ⟨bodyKind, bodyWhole⟩ := good_do_group knows done
  have closed : ¬ Stuck e := by
    cases done with
    | body opened _ _ => exact not_stuck_of_keyword (by decide) opened
  have row : kind.layout = .row := by
    rcases loop with rfl | rfl <;> rfl
  refine grows_of_nodes row (fun count more kinds => ?_) (List.forall_mem_cons.mpr
    ⟨whole_of_wrap rfl term (whole.resolve_right closed), List.forall_mem_singleton.mpr bodyWhole⟩)
  have shape : Node.isRow kind ([.wrap .condition condition, body] ++ more) =
      Kind.isLoop (.condition :: body.kind :: more.map Node.kind) := by
    rcases loop with rfl | rfl <;> rfl
  rw [shape, bodyKind, kinds]
  exact are_redirections_replicate count

theorem grows_of_for {parameter : List Char} {words : List Node} {body : Node} {e f : Cursor}
    (clause : words = [] ∨ ∃ inside, words = [inside] ∧ InForm calls c inside d)
    (done : DoForm calls e body f) :
    (⟨.forLoop, .text parameter (.ofNodes (words ++ [body])), none⟩ : Node).Grows := by
  obtain ⟨bodyKind, bodyWhole⟩ := good_do_group knows done
  have children : (⟨.forLoop, .text parameter (.ofNodes (words ++ [body])), none⟩ : Node).children =
      words ++ [body] := Forest.nodes_of_nodes _
  have each : ∀ word ∈ words, word.kind = .inWords ∧ word.IsWhole := by
    rcases clause with rfl | ⟨inside, rfl, form⟩
    · simp
    · exact List.forall_mem_singleton.mpr (good_in_clause knows form)
  refine ⟨?_, fun redirections kinds => ?_⟩
  · rw [children]
    exact List.forall_mem_append.mpr
      ⟨fun word member => (each word member).2, List.forall_mem_singleton.mpr bodyWhole⟩
  · have redirected : (⟨.forLoop, .text parameter (.ofNodes (words ++ [body])), none⟩ :
        Node).redirected redirections =
        ⟨.forLoop, .text parameter (.ofNodes (words ++ [body] ++ redirections)), none⟩ :=
      congrArg (fun others => (⟨.forLoop, .text parameter others, none⟩ : Node)) (Forest.of_nodes_append _ _)
    rw [redirected, formed_named rfl]
    change Kind.isFor (List.map Node.kind (_ ++ redirections)) = true
    rw [List.map_append, List.map_append, kinds_of_redirections kinds]
    change Kind.isFor (words.map Node.kind ++ [body.kind] ++ _) = true
    rw [bodyKind]
    rcases clause with rfl | ⟨inside, rfl, -⟩
    · exact are_redirections_replicate _
    · rw [List.map_singleton, (each inside (List.mem_singleton_self _)).1]
      exact are_redirections_replicate _

theorem grows_of_case {subject : Node} {items : List Node} {e f : Cursor}
    (chosen : (call .word).Gives calls c subject d) (listed : caseItems.Gives calls e items f)
    (closed : ¬ Stuck f) : (Node.ofNodes .caseChoice (subject :: items)).Grows := by
  obtain ⟨full, whole⟩ := knows.holds chosen
  obtain ⟨itemKinds, itemsWhole⟩ := good_case_items knows listed
  refine grows_of_nodes rfl (fun count more kinds => ?_)
    (List.forall_mem_cons.mpr ⟨whole, itemsWhole.resolve_right closed⟩)
  change (Kind.isCase (subject.kind :: List.map Node.kind (items ++ more)) &&
    subject.isFullWord) = true
  rw [full, kind_of_full_word full, List.map_append, kinds, Bool.and_true]
  change Kind.areRedirections (List.dropWhile _ (_ ++ _)) = true
  rw [List.dropWhile_append_of_pos (by simpa using itemKinds)]
  cases count with
  | zero => rfl
  | succ count => exact are_redirections_replicate (count + 1)

theorem good_compound {node : Node} (form : CompoundForm calls c node d) :
    node.kind.isCompound = true ∧ node.Grows := by
  cases form with
  | braceGroup _ list closed =>
      exact ⟨rfl, grows_of_group knows (Or.inl rfl) list (not_stuck_of_keyword (by decide) closed)⟩
  | subshell _ list closed =>
      exact ⟨rfl, grows_of_group knows (Or.inr rfl) list (not_stuck_of_operator (by decide) closed)⟩
  | forLoop _ _ clause done => exact ⟨rfl, grows_of_for knows (clause.imp_left And.left) done⟩
  | caseChoice _ chosen _ listed closed =>
      exact ⟨rfl, grows_of_case knows chosen listed (not_stuck_of_keyword (by decide) closed)⟩
  | ifChoice _ chosen closed =>
      obtain ⟨kind, grows⟩ := knows.holds chosen
      exact ⟨by rw [kind]; rfl, grows.resolve_right (not_stuck_of_keyword (by decide) closed)⟩
  | @loop e f _ word kind condition body repeated opened list done =>
      have loop : kind = .whileLoop ∨ kind = .untilLoop := by
        simp only [List.mem_cons, Prod.mk.injEq, List.not_mem_nil, or_false] at repeated
        exact repeated.imp And.right And.right
      refine ⟨?_, grows_of_loop knows loop list done⟩
      rcases loop with rfl | rfl <;> rfl

theorem whole_redirected {compound node : Node} (grows : compound.Grows)
    (form : RedirectedForm calls compound c node d) : node.IsWhole := by
  cases form with
  | @items _ redirections items =>
      have each : ∀ inner ∈ redirections, inner.kind = .redirection ∧ inner.IsWhole := by
        intro inner member
        obtain ⟨e, f, given⟩ := items_given items inner member
        exact knows.holds given
      exact whole_of_grows grows (fun inner member => (each inner member).1)
        fun inner member => (each inner member).2

end ShellLine.Grammar
