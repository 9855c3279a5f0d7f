import ShellLine.Proofs.Operators.Commands

set_option autoImplicit false

namespace ShellLine.Operators

open Grammar ShellLine.Parser

section Chains

variable {calls : Rule → Cursor → Reading Node}
  (knows : Knows (fun _ c node d => Shows node.kinds c d) calls) {c d : Cursor}

include knows

theorem shows_command {node : Node} (given : command.Gives calls c node d) : Shows node.kinds c d := by
  cases command_form given with
  | @function e f g h chars compound body named opened closed compoundGiven _ redirected =>
      generalize whole : Node.ofNodes .functionDefinition [.leaf .functionName chars, body] = node
      have kind : node.kind = .functionDefinition := by rw [← whole]; rfl
      obtain ⟨within, redirectionsShow⟩ := shows_redirected knows redirected
      have inBody : ∀ {i j : Cursor}, Shows body.kinds i j → Shows node.kinds i j :=
        fun shows => shows.up (by simp [← whole, Node.children_of_nodes])
      have nameShows : Shows node.kinds c e := shows_name named
      have parenthesesShow : Shows node.kinds e.pastBlanks g :=
        (shows_operator (by decide) opened (told_by_own _ kind (by decide))).trans
          (shows_operator (by decide) closed (told_by_own _ kind (by decide)))
      have bodyShows : Shows node.kinds g d :=
        (Shows.lineBreak _ g).trans (inBody (((shows_compound knows compoundGiven).mono within).trans
          redirectionsShow))
      exact nameShows.trans (.trans (.blanks _ e) (parenthesesShow.trans bodyShows))
  | compound given redirected =>
      obtain ⟨within, redirectionsShow⟩ := shows_redirected knows redirected
      exact ((shows_compound knows given).mono within).trans redirectionsShow
  | simple form => exact shows_simple_command knows form

theorem shows_stages {first : Node} {others : List Node} {e : Cursor}
    (given : (call .command).Gives calls c first d) (stages : Items calls nextStage d others e) :
    Shows (stagesNode first others).kinds c e := by
  cases others with
  | nil =>
      obtain rfl := items_nil stages
      exact knows.holds given
  | cons second more =>
      refine ((knows.holds given).among (List.mem_cons_self ..)).trans
        (shows_items (fun stage member f g stageGiven => ?_) stages)
      obtain ⟨bar, commandGiven⟩ := next_stage_form stageGiven
      have barShows : Shows (Node.ofNodes .pipeline (first :: second :: more)).kinds f (f.advance 1) :=
        .undoubled (by decide) bar (told_by_own .pipeline rfl (by decide))
      refine barShows.trans (.trans (.blanks _ _) (.trans (.lineBreak _ _) ?_))
      exact (knows.holds commandGiven).among (List.mem_cons_of_mem _ member)

theorem shows_pipeline {node : Node} (form : PipelineForm calls c node d) : Shows node.kinds c d := by
  cases form with
  | plain given stages => exact shows_stages knows given stages
  | bang opened given stages =>
      exact (shows_keyword (by decide) opened).trans (shows_stages knows given stages).wrap

theorem shows_and_or {node : Node} (given : andOr.Gives calls c node d) : Shows node.kinds c d := by
  cases and_or_form given with
  | @chain e _ first links firstGiven items =>
      obtain ⟨firstWithin, linksWithin⟩ := chain_kinds first links
      refine ((shows_pipeline knows firstGiven).mono firstWithin).trans
        (shows_items (fun link member f g linkGiven => ?_) items)
      obtain ⟨kindWithin, rightWithin⟩ := linksWithin link member
      cases and_or_link_form linkGiven with
      | @link h _ text kind right operators joined rightGiven =>
          have every : ∀ entry ∈ chainOperators,
              isFixed entry.1.toList = true ∧ tells entry.1.toList entry.2 = true := by decide
          obtain ⟨fixed, told⟩ := every (text, kind) operators
          refine (shows_operator fixed joined (Or.inr ⟨kind, kindWithin, told⟩)).trans ?_
          exact (Shows.lineBreak _ h).trans ((shows_pipeline knows rightGiven).mono rightWithin)

end Chains

theorem rule_shows (calls : Rule → Cursor → Reading Node)
    (knows : Knows (fun _ c node d => Shows node.kinds c d) calls) (rule : Rule) (c : Cursor)
    (node : Node) (d : Cursor) (given : (grammar rule).Gives calls c node d) :
    Shows node.kinds c d := by
  cases rule with
  | word => exact shows_word knows.forward given
  | redirection => exact shows_redirection knows given
  | operand => exact shows_operand knows.forward given
  | command => exact shows_command knows given
  | andOr => exact shows_and_or knows given
  | conditional => exact shows_conditional knows given

theorem program_shows {c d : Cursor} {tree : Node} (read : program.Reads c tree d) :
    Shows tree.kinds c d := by
  have knows := reading_knows rule_shows
  obtain ⟨commands, e, form, rfl, rfl⟩ := program_form read
  have completeShows : ∀ {f g : Cursor} {command : Node}, command ∈ commands →
      completeCommand.Reads f command g → Shows (Node.ofNodes .program commands).kinds f g := by
    intro f g command member given
    obtain ⟨inner, list, rfl⟩ := complete_command_form given
    exact (shows_term_list knows list).wrap.among member
  refine .trans (.blanks _ c) (.trans (.lineBreak _ _) (.trans ?_ (.lineBreak _ e)))
  cases form with
  | none => exact .refl _ _
  | some given items =>
      refine (completeShows (List.mem_cons_self ..) given).trans
        (shows_items (fun command member f g nextGiven => ?_) items)
      obtain ⟨-, commandGiven⟩ := next_command_form nextGiven
      exact (Shows.lines _ f).trans (completeShows (List.mem_cons_of_mem _ member) commandGiven)

-- What is active in a command line, from left to right.
def active (input : String) : List Sign := signs .none input.toList

section Reports

variable {tree : Node} {text : List Char}

theorem feature_of_kind {kind : Kind} {feature : Feature} (member : kind ∈ tree.kinds)
    (implied : kind.feature? = some feature) : feature ∈ tree.features := by
  obtain ⟨inner, below, rfl⟩ := List.mem_map.mp member
  exact (mem_features tree feature).mpr ⟨inner, below, implied⟩

theorem feature_of_expansion_kind {kind : Kind} (member : kind ∈ tree.kinds)
    (expansion : kind.isExpansion = true) :
    .parameter ∈ tree.features ∨ .exoticExpansion ∈ tree.features ∨
      .commandExpansion ∈ tree.features := by
  simp only [Kind.isExpansion, Bool.decide_or, Bool.or_eq_true, decide_eq_true_eq] at expansion
  rcases expansion with implied | implied | implied
  · exact Or.inl (feature_of_kind member implied)
  · exact Or.inr (Or.inl (feature_of_kind member implied))
  · exact Or.inr (Or.inr (feature_of_kind member implied))

theorem redirect_of_told (told : Told tree.kinds (.operator text))
    (starts : text.head? = some '<' ∨ text.head? = some '>') : .redirect ∈ tree.features := by
  have others : ∀ other ∈ ["&&".toList, "||".toList, "&".toList, "|".toList, ";".toList],
      text ≠ other := by
    rintro _ member rfl
    have heads : ∀ other ∈ ["&&".toList, "||".toList, "&".toList, "|".toList, ";".toList],
        ¬ (other.head? = some '<' ∨ other.head? = some '>') := by decide
    exact heads text member starts
  simp only [List.forall_mem_cons] at others
  obtain ⟨noAnd, noOr, noBackground, noBar, noSemicolon, -⟩ := others
  obtain ⟨kind, member, telling⟩ := told.resolve_left noSemicolon
  rw [tells, if_neg (not_or.mpr ⟨noAnd, noOr⟩), if_neg noBackground, if_neg noBar] at telling
  apply feature_of_kind member
  by_cases here : text = "<<".toList
  · rw [if_pos here] at telling
    cases kind <;> simp_all [Kind.isHereDocument, Kind.feature?]
  · rw [if_neg here, if_pos starts] at telling
    exact of_decide_eq_true telling

end Reports

/-- In a command line without comments every expansion is reported. Where there is none every
operator outside quotes is reported, and no here-document is opened. -/
theorem operators_are_reported (config : Config) (input : String) (tree : Node)
    (noComment : '#' ∉ input.toList) (parsed : parse config input = .ok tree) :
    (.expansion ∈ active input → .parameter ∈ tree.features ∨ .exoticExpansion ∈ tree.features ∨
        .commandExpansion ∈ tree.features) ∧
      (.expansion ∉ active input →
        (.operator "&&".toList ∈ active input ∨ .operator "||".toList ∈ active input →
          .list ∈ tree.features) ∧
        (.operator "&".toList ∈ active input → .background ∈ tree.features) ∧
        (.operator "|".toList ∈ active input →
          .pipeline ∈ tree.features ∨ .compound ∈ tree.features) ∧
        (∀ text, .operator text ∈ active input →
          text.head? = some '<' ∨ text.head? = some '>' → .redirect ∈ tree.features) ∧
        (.operator "(".toList ∈ active input ∨ .operator ")".toList ∈ active input ∨
          .operator ";;".toList ∈ active input → .compound ∈ tree.features) ∧
        .operator "<<".toList ∉ active input) := by
  obtain ⟨d, read, whole, noHereDocument⟩ := parse_ok config input tree parsed
  have started : (Cursor.start input.toList).rest = input.toList := rfl
  have shows := program_shows read
  rcases shows.told noComment with ⟨passed, same, told⟩ | ⟨expansion, kind, member, expands⟩
  · have activeTold : ∀ sign ∈ active input, Told tree.kinds sign := by
      rw [active, ← started, same, whole, signs, List.append_nil]
      exact told
    refine ⟨fun expansion => absurd (activeTold _ expansion) (by simp [Told]), fun _ => ?_⟩
    have telling : ∀ {text : List Char} {feature : Feature}, text ≠ ";".toList →
        (∀ kind, tells text kind = true → kind.feature? = some feature) →
        .operator text ∈ active input → feature ∈ tree.features := by
      intro text feature noSemicolon implies member
      obtain ⟨kind, inside, told⟩ := (activeTold _ member).resolve_left noSemicolon
      exact feature_of_kind inside (implies kind told)
    refine ⟨?list, ?background, ?bar, ?redirect, ?compound, ?hereDocument⟩
    case list =>
      exact fun either => either.elim
        (telling (by decide) fun kind told => by simpa [tells] using told)
        (telling (by decide) fun kind told => by simpa [tells] using told)
    case background => exact telling (by decide) fun kind told => by simpa [tells] using told
    case bar =>
      intro member
      obtain ⟨kind, inside, told⟩ := (activeTold _ member).resolve_left (by decide)
      have either : kind.feature? = some .pipeline ∨ kind.feature? = some .compound := by
        simpa [tells] using told
      exact either.imp (feature_of_kind inside) (feature_of_kind inside)
    case redirect => exact fun text member starts => redirect_of_told (activeTold _ member) starts
    case compound =>
      rintro (member | member | member)
      · exact telling (by decide) (fun kind told => by simpa [tells] using told) member
      · exact telling (by decide) (fun kind told => by simpa [tells] using told) member
      · exact telling (by decide) (fun kind told => by simpa [tells] using told) member
    case hereDocument =>
      intro member
      obtain ⟨kind, inside, told⟩ := (activeTold _ member).resolve_left (by decide)
      obtain ⟨inner, below, rfl⟩ := List.mem_map.mp inside
      have opens : inner.kind.isHereDocument = true := by simpa [tells] using told
      exact absurd opens (Bool.eq_false_iff.mp (no_here_document_iff.mp noHereDocument inner below))
  · exact ⟨fun _ => feature_of_expansion_kind member expands, fun none => absurd expansion none⟩

theorem quoted_operators_are_no_operators :
    active "a '&' && (b 2>\"|\" c\\;) &" =
        [.operator "&&".toList, .operator "(".toList, .operator ">".toList, .operator ")".toList,
          .operator "&".toList] ∧
      ∃ tree, parse {} "a '&' && (b 2>\"|\" c\\;) &" = .ok tree ∧ .list ∈ tree.features ∧
        .background ∈ tree.features ∧ .redirect ∈ tree.features ∧ .compound ∈ tree.features := by
  have cut : active "a '&' && (b 2>\"|\" c\\;) &" =
      [.operator "&&".toList, .operator "(".toList, .operator ">".toList, .operator ")".toList,
        .operator "&".toList] := by decide +kernel
  obtain ⟨tree, parsed, -⟩ := parse_ok_of_view {} "a '&' && (b 2>\"|\" c\\;) &"
    (fun _ => ()) () (by decide +kernel)
  have reported := (operators_are_reported {} _ tree (by decide +kernel) parsed).2 (by simp [cut])
  obtain ⟨list, background, -, redirect, compound, -⟩ := reported
  exact ⟨cut, tree, parsed, list (by simp [cut]), background (by simp [cut]),
    redirect ">".toList (by simp [cut]) (by decide), compound (by simp [cut])⟩

end ShellLine.Operators
