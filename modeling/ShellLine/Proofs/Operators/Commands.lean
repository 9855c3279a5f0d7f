import ShellLine.Proofs.Operators.Words

set_option autoImplicit false

namespace ShellLine.Operators

open Grammar ShellLine.Parser

theorem shows_redirection_operator {text : String} {kind : Kind} {kinds : List Kind} {c : Cursor}
    (operator : (text, kind) ∈ redirectionOperators) (here : text.toList <+: c.rest)
    (longest : ∀ pair ∈ redirectionOperators, pair.1.toList <+: c.rest →
      pair.1.length ≤ text.length) (member : kind ∈ kinds) :
    Shows kinds c (c.advance text.length) := by
  -- One operator is a pair with a hyphen behind it; no other is longer than a pair.
  have every : ∀ entry ∈ redirectionOperators,
      (entry.1.toList = "<<-".toList ∧ tells "<<".toList entry.2 = true) ∨
      (∃ pair ∈ pairs, entry.1.toList = [pair.1, pair.2] ∧ tells entry.1.toList entry.2 = true) ∨
      (∃ ch ∈ singles, entry.1.toList = [ch] ∧ tells entry.1.toList entry.2 = true ∧
        ∀ pair ∈ pairs, pair.1 = ch →
          ∃ other ∈ redirectionOperators, other.1.toList = [pair.1, pair.2]) := by
    decide
  have sameLength := String.length_toList (s := text)
  rw [← sameLength] at longest ⊢
  obtain ⟨behind, whole⟩ := here
  rcases every (text, kind) operator with ⟨stripped, told⟩ | ⟨⟨a, b⟩, pair, both, told⟩ |
    ⟨ch, single, alone, told, doubled⟩
  · dsimp only at stripped
    rw [stripped] at whole ⊢
    have opened : Shows kinds c (c.advance 2) :=
      .pair (by decide) ⟨'-' :: behind, whole⟩ (Or.inr ⟨kind, member, told⟩)
    have hyphen : (c.advance 2).rest = ['-'] ++ (c.advance 3).rest := by
      rw [Cursor.rest_advance, Cursor.rest_advance, ← whole]
      rfl
    exact opened.trans (.chars hyphen (by decide))
  · dsimp only at both told
    rw [both] at whole told ⊢
    exact .pair pair ⟨behind, whole⟩ (Or.inr ⟨kind, member, told⟩)
  · dsimp only at alone told
    rw [alone] at whole told longest ⊢
    refine .lone single (by rw [← whole]; rfl) (fun next head pair => ?_) (Or.inr ⟨kind, member, told⟩)
    obtain ⟨other, listed, longer⟩ := doubled (ch, next) pair rfl
    obtain ⟨rest, tail⟩ := List.head?_eq_some_iff.mp head
    have stands : other.1.toList <+: c.rest := by
      refine ⟨rest, ?_⟩
      rw [← whole] at tail ⊢
      rw [longer]
      exact congrArg (ch :: ·) tail.symm
    have short := longest other listed stands
    rw [← String.length_toList, longer] at short
    exact absurd short (Nat.not_succ_le_self 1)

theorem told_by_own {node : Node} {text : List Char} (kind : Kind) (own : node.kind = kind)
    (told : tells text kind = true) : Told node.kinds (.operator text) := by
  rw [← own] at told
  exact Or.inr ⟨node.kind, kind_mem_kinds node, told⟩

theorem shows_separator {lines : Bool} {kinds : List Kind} {kind : Separator} {c d : Cursor}
    (form : SeparatorForm lines c kind d)
    (told : kind = .background → Told kinds (.operator ['&'])) : Shows kinds c d := by
  have behind : ∀ e, Shows kinds e (pastSeparator lines e) := by
    intro e
    rw [pastSeparator]
    split
    · exact .lineBreak kinds e
    · exact .refl kinds e
  cases form with
  | background alone =>
      exact (Shows.undoubled (by decide) alone (told rfl)).trans (.trans (.blanks _ _) (behind _))
  | semicolon alone =>
      exact (Shows.undoubled (by decide) alone (Or.inl rfl)).trans (.trans (.blanks _ _) (behind _))
  | newline _ _ => exact .lines kinds c

theorem shows_sequential {kinds : List Kind} {c d : Cursor} (form : SequentialForm c d) :
    Shows kinds c d := by
  cases form with
  | semicolon alone =>
      exact (Shows.undoubled (by decide) alone (Or.inl rfl)).trans
        (.trans (.blanks _ _) (.lineBreak _ _))
  | newline _ => exact .lines kinds c

theorem chain_kinds (first : Node) (links : List (Kind × Node)) :
    first.kinds ⊆ (chainNode first links).kinds ∧
      ∀ link ∈ links, link.1 ∈ (chainNode first links).kinds ∧
        link.2.kinds ⊆ (chainNode first links).kinds := by
  induction links generalizing first with
  | nil => exact ⟨List.Subset.refl _, by simp⟩
  | cons link others ih =>
      obtain ⟨joinedWithin, othersWithin⟩ := ih (.ofNodes link.1 [first, link.2])
      have inJoined : ∀ inner ∈ [first, link.2],
          inner.kinds ⊆ (Node.ofNodes link.1 [first, link.2]).kinds :=
        fun inner member => child_kinds (by rwa [Node.children_of_nodes])
      refine ⟨List.Subset.trans (inJoined first (by simp)) joinedWithin,
        List.forall_mem_cons.mpr ⟨⟨?_, ?_⟩, othersWithin⟩⟩
      · exact joinedWithin (kind_mem_kinds (Node.ofNodes link.1 [first, link.2]))
      · exact List.Subset.trans (inJoined link.2 (by simp)) joinedWithin

section Commands

variable {calls : Rule → Cursor → Reading Node}
  (knows : Knows (fun _ c node d => Shows node.kinds c d) calls) {c d : Cursor}

include knows

theorem shows_redirection {node : Node} (given : redirection.Gives calls c node d) :
    Shows node.kinds c d := by
  cases redirection_form given with
  | @operation e f descriptor text kind mark target described operator here longest targetGiven =>
      generalize whole : Node.ofNodes .redirection
        (descriptor ++ [⟨kind, .ofNodes [target], mark⟩]) = node
      have child : (⟨kind, .ofNodes [target], mark⟩ : Node) ∈ node.children := by
        simp [← whole, Node.children_of_nodes]
      have descriptorShows : Shows node.kinds c e := by
        rcases described with ⟨-, rfl⟩ | ⟨digits, -, isDigit, passed⟩
        · exact .refl _ _
        · refine .chars passed fun ch member => not_active_of_continues ?_
          simp [continuesName, Char.isAlphanum, isDigit ch member]
      have operatorShows : Shows node.kinds e (e.advance text.length) :=
        shows_redirection_operator operator here longest (child_kinds child (kind_mem_kinds _))
      have targetShows : Shows node.kinds (e.advance text.length).pastBlanks d :=
        ((knows.holds targetGiven).up (by simp [Node.children])).up child
      exact descriptorShows.trans (operatorShows.trans (.trans (.blanks _ _) targetShows))

theorem shows_assignment {node : Node} (given : assignment.Gives calls c node d) :
    Shows node.kinds c d := by
  cases assignment_form given with
  | @value e f parameter parts named equals items =>
      refine .trans (shows_name named) (.trans (.text equals (by decide)) (.trans ?_ (.blanks _ f)))
      exact (shows_parts knows.forward items).up (by simp [Node.children, Forest.nodes])

theorem shows_lead_item {node : Node} (given : leadItem.Gives calls c node d) :
    Shows node.kinds c d := by
  rcases (gives_or_else _ _ _ _ _).mp given with given | ⟨-, given⟩
  · exact knows.holds given
  · exact shows_assignment knows given

theorem shows_argument_item {node : Node} (given : argumentItem.Gives calls c node d) :
    Shows node.kinds c d := by
  rcases (gives_or_else _ _ _ _ _).mp given with given | ⟨-, given⟩
  · exact knows.holds given
  · exact knows.holds given

theorem shows_leads {items : List Node} {node : Node} (leads : Items calls leadItem c items d)
    (children : ∀ lead ∈ leadNodes items, lead ∈ node.children) : Shows node.kinds c d := by
  refine shows_items (fun lead member e f given => ?_) leads
  have nonempty : items ≠ [] := List.ne_nil_of_mem member
  have front := children (.ofNodes .commandLead items) (by simp [leadNodes, nonempty])
  exact ((shows_lead_item knows given).among member).up front

theorem shows_simple_command {node : Node} (form : SimpleForm calls c node d) :
    Shows node.kinds c d := by
  cases form with
  | @named e f _ items others first leads _ nameGiven arguments =>
      generalize whole : Node.ofNodes .simpleCommand (leadNodes items ++ first :: others) = node
      have children : node.children = leadNodes items ++ first :: others := by
        rw [← whole, Node.children_of_nodes]
      have leadsShow : Shows node.kinds c e :=
        shows_leads knows leads fun lead member => by simp [children, member]
      have nameShows : Shows node.kinds e f := (knows.holds nameGiven).up (by simp [children])
      refine leadsShow.trans (nameShows.trans (shows_items (fun argument member g h given => ?_) arguments))
      exact (shows_argument_item knows given).up (by simp [children, member])
  | bare leads nonempty =>
      exact shows_leads knows leads fun lead member => by rwa [Node.children_of_nodes]

theorem shows_term {lines : Bool} {turn : Turn Node} {node : Node}
    (turned : turn = .more node ∨ turn = .last node) (form : TermForm calls lines c turn d) :
    Shows node.kinds c d := by
  rcases term_node_form form turned with ⟨given, -⟩ | ⟨inner, e, rfl, given, ended⟩ | ⟨e, given, ended⟩
  · exact knows.holds given
  · have chainShows : Shows (Node.wrap .background inner).kinds c e :=
      (knows.holds given).wrap
    exact chainShows.trans (shows_separator ended fun _ => told_by_own .background rfl (by decide))
  · exact (knows.holds given).trans (shows_separator ended fun impossible => by cases impossible)

theorem shows_term_list {lines : Bool} {node : Node} (given : (termList lines).Gives calls c node d) :
    Shows node.kinds c d := by
  have each : ∀ {terms : List Node} {kinds : List Kind}, Turns calls (term lines) c terms d →
      (∀ inner ∈ terms, inner.kinds ⊆ kinds) → Shows kinds c d := by
    intro terms kinds turns within
    refine shows_turns (fun e f stopped => ?_) (fun inner member e f given => ?_) turns
    · cases term_form stopped with
      | stop => exact .refl kinds _
    · refine Shows.mono (within inner member) ?_
      rcases given with given | given
      · exact shows_term knows (Or.inl rfl) (term_form given)
      · exact shows_term knows (Or.inr rfl) (term_form given)
  cases term_list_form given with
  | only turns => exact each turns (List.forall_mem_singleton.mpr (List.Subset.refl _))
  | several turns _ =>
      exact each turns fun inner member => child_kinds (by rwa [Node.children_of_nodes])

theorem shows_compound_list {node : Node} (given : compoundList.Gives calls c node d) :
    Shows node.kinds c d :=
  (Shows.lineBreak _ c).trans (shows_term_list knows (compound_list_form given))

theorem shows_in_clause {node : Node} (form : InForm calls c node d) : Shows node.kinds c d := by
  cases form with
  | words inside items ended =>
      refine .trans (.lineBreak _ c) (.trans (shows_keyword (by decide) inside) ?_)
      refine .trans (shows_items (fun word member e f given => ?_) items) (shows_sequential ended)
      exact (knows.holds given).among member

theorem shows_do_group {node : Node} (form : DoForm calls c node d) : Shows node.kinds c d := by
  cases form with
  | body opened list closed =>
      refine .trans (shows_keyword (by decide) opened) (.trans ?_ (shows_keyword (by decide) closed))
      exact (shows_compound_list knows list).wrap

theorem shows_case_item {node : Node} (form : CaseForm calls c node d) : Shows node.kinds c d := by
  cases form with
  | @item e f g h _ first others bodies opened firstGiven patterns closed body =>
      generalize whole : (⟨.caseItem, .list (.ofNodes (first :: others)) (.ofNodes bodies), none⟩ :
        Node) = node
      have kind : node.kind = .caseItem := by rw [← whole]
      have children : node.children = first :: others ++ bodies := by
        simp [← whole, Node.children, Forest.nodes]
      have openShows : Shows node.kinds c e := by
        rcases opened with given | rfl
        · exact shows_operator (by decide) given (told_by_own .caseItem kind (by decide))
        · exact .refl _ _
      have firstShows : Shows node.kinds e f := (knows.holds firstGiven).up (by simp [children])
      have patternsShow : Shows node.kinds f g := by
        refine shows_items (fun word member i j given => ?_) patterns
        obtain ⟨bar, wordGiven⟩ := next_pattern_form given
        refine (Shows.undoubled (by decide) bar (told_by_own .caseItem kind (by decide))).trans ?_
        exact (Shows.blanks _ _).trans ((knows.holds wordGiven).up (by simp [children, member]))
      have closeShows : Shows node.kinds g h :=
        shows_operator (by decide) closed (told_by_own .caseItem kind (by decide))
      have bodyShows : Shows node.kinds h d := by
        rcases body with ⟨-, rfl⟩ | ⟨inner, rfl, list⟩
        · exact .lineBreak _ h
        · exact (shows_compound_list knows list).up (by simp [children])
      exact openShows.trans (firstShows.trans (patternsShow.trans (closeShows.trans bodyShows)))

theorem shows_case_items {items : List Node} {node : Node} (choice : node.kind = .caseChoice)
    (children : ∀ item ∈ items, item ∈ node.children) (given : caseItems.Gives calls c items d) :
    Shows node.kinds c d := by
  obtain ⟨turn, turns, forms⟩ := case_items_form given
  have ended : ∀ {item : Node} {e f : Cursor} {next : Turn Node},
      CaseEnd calls item e next f → Shows node.kinds e f := by
    intro item e f next ended
    rcases ended with ⟨-, rfl⟩ | ⟨-, g, closed, rfl⟩
    · exact .refl _ _
    · have closedShows := shows_operator (by decide) closed (told_by_own .caseChoice choice (by decide))
      exact closedShows.trans (.lineBreak _ g)
  refine shows_turns (fun e f stopped => ?_) (fun item member e f given => ?_) turns
  · rcases forms e _ f stopped with ⟨item, g, -, ⟨impossible, -⟩ | ⟨impossible, -⟩⟩ | ⟨-, rfl⟩
    · cases impossible
    · cases impossible
    · exact .refl _ _
  · obtain ⟨next, turned, given⟩ : ∃ next, (next = .more item ∨ next = .last item) ∧
        turn.Gives calls e next f := by
      rcases given with given | given
      · exact ⟨_, Or.inl rfl, given⟩
      · exact ⟨_, Or.inr rfl, given⟩
    rcases forms e next f given with ⟨found, g, form, closed⟩ | ⟨rfl, -⟩
    · have same : found = item := by
        rcases closed with ⟨rfl, -⟩ | ⟨rfl, -⟩ <;> simpa using turned
      rw [← same] at member
      exact ((shows_case_item knows form).up (children found member)).trans (ended closed)
    · simp at turned

theorem shows_else_part {node : Node} (form : ElseForm calls c node d) : Shows node.kinds c d := by
  cases form with
  | choice opened given =>
      refine .trans (shows_keyword (by decide) opened) ?_
      exact (knows.holds given).wrap
  | list opened given =>
      refine .trans (shows_keyword (by decide) opened) ?_
      exact (shows_compound_list knows given).wrap

theorem shows_conditional {node : Node} (given : conditional.Gives calls c node d) :
    Shows node.kinds c d := by
  cases conditional_form given with
  | @choice e f g _ condition consequent alternatives tested chosen list alternative =>
      generalize whole : Node.ofNodes .ifChoice
        ([.wrap .condition condition, .wrap .consequent consequent] ++ alternatives) = node
      have children : node.children =
          [.wrap .condition condition, .wrap .consequent consequent] ++ alternatives := by
        rw [← whole, Node.children_of_nodes]
      have conditionShows : Shows node.kinds c e :=
        (shows_compound_list knows tested).wrap.up
          (show Node.wrap .condition condition ∈ node.children by simp [children])
      have consequentShows : Shows node.kinds f g :=
        (shows_compound_list knows list).wrap.up
          (show Node.wrap .consequent consequent ∈ node.children by simp [children])
      have alternativeShows : Shows node.kinds g d := by
        rcases alternative with ⟨-, rfl⟩ | ⟨inner, rfl, other⟩
        · exact .refl _ _
        · exact (shows_else_part knows other).up (by simp [children])
      exact conditionShows.trans ((shows_keyword (by decide) chosen).trans
        (consequentShows.trans alternativeShows))

theorem shows_compound {node : Node} (form : CompoundForm calls c node d) : Shows node.kinds c d := by
  cases form with
  | braceGroup opened list closed =>
      refine .trans (shows_keyword (by decide) opened) (.trans ?_ (shows_keyword (by decide) closed))
      exact (shows_compound_list knows list).wrap
  | @subshell e f _ inner opened list closed =>
      refine .trans (shows_operator (by decide) opened (told_by_own .subshell rfl (by decide)))
        (.trans ?_ (shows_operator (by decide) closed (told_by_own .subshell rfl (by decide))))
      exact (shows_compound_list knows list).wrap
  | @forLoop e f g _ parameter words body opened named clause done =>
      refine .trans (shows_keyword (by decide) opened) (.trans (shows_name named) ?_)
      refine .trans (.blanks _ f) (.trans ?_ ((shows_do_group knows done).up ?_))
      · rcases clause with ⟨-, rfl | ended⟩ | ⟨inside, rfl, form⟩
        · exact .refl _ _
        · exact shows_sequential ended
        · exact (shows_in_clause knows form).up (by simp [Node.children, Forest.nodes])
      · simp [Node.children, Forest.nodes]
  | @caseChoice e f g h _ subject items opened chosen inside listed closed =>
      refine .trans (shows_keyword (by decide) opened) (.trans ?_ (.trans (.lineBreak _ f)
        (.trans (shows_keyword (by decide) inside) (.trans (.lineBreak _ g)
          (.trans ?_ (shows_keyword (by decide) closed))))))
      · exact (knows.holds chosen).up (by simp [Node.children_of_nodes])
      · refine shows_case_items knows rfl (fun item member => ?_) listed
        simp [Node.children_of_nodes, member]
  | ifChoice opened chosen closed =>
      refine .trans (shows_keyword (by decide) opened) (.trans ?_ (shows_keyword (by decide) closed))
      exact knows.holds chosen
  | @loop e f _ word kind condition body repeated opened list done =>
      have plain : ∀ entry ∈ [("while", Kind.whileLoop), ("until", .untilLoop)],
          ∀ ch ∈ entry.1.toList, isActive ch = false := by decide
      have conditionShows : Shows (Node.wrap .condition condition).kinds e f :=
        (shows_compound_list knows list).wrap
      exact (shows_keyword (plain (word, kind) repeated) opened).trans
        ((conditionShows.among (List.mem_cons_self ..)).trans
          ((shows_do_group knows done).among (by simp)))

theorem shows_redirected {compound node : Node} (form : RedirectedForm calls compound c node d) :
    compound.kinds ⊆ node.kinds ∧ Shows node.kinds c d := by
  cases form with
  | @items _ redirections items =>
      generalize whole : ({ compound with
        contents := compound.contents.append (.ofNodes redirections) } : Node) = node
      have children : node.children = compound.children ++ redirections := by
        simp [← whole, Node.children]
      refine ⟨?_, shows_items (fun redirection member e f given => ?_) items⟩
      · rw [← whole]
        exact kinds_of_append compound (.ofNodes redirections)
      · exact (knows.holds given).up (by simp [children, member])

end Commands

end ShellLine.Operators
