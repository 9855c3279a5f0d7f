import ShellLine.Proofs.Shape.Compound
import ShellLine.Proofs.Shape.SimpleCommand

set_option autoImplicit false

namespace ShellLine

namespace Grammar

open ShellLine.Parser

section Commands

variable {calls : Rule → Cursor → Reading Node} (knows : Knows Good calls) {c d : Cursor}

include knows

theorem good_command {node : Node} (given : command.Gives calls c node d) :
    node.kind.isCommand = true ∧ (node.IsWhole ∨ Stuck d) := by
  cases command_form given with
  | @function e f g h chars compound body named opened closed compoundGiven _ redirected =>
      obtain ⟨kind, grows⟩ := good_compound knows compoundGiven
      have whole := whole_redirected knows grows redirected
      have bodyKind : body.kind.isCompound = true := by
        cases redirected
        exact kind
      refine ⟨rfl, Or.inl (whole_of_nodes rfl bodyKind ?_)⟩
      exact List.forall_mem_cons.mpr ⟨whole_leaf rfl, List.forall_mem_singleton.mpr whole⟩
  | compound compoundGiven redirected =>
      obtain ⟨kind, grows⟩ := good_compound knows compoundGiven
      refine ⟨?_, Or.inl (whole_redirected knows grows redirected)⟩
      cases redirected
      simp [Kind.isCommand, kind]
  | simple form =>
      obtain ⟨kind, whole⟩ := good_simple_command knows form
      exact ⟨by rw [kind]; rfl, whole⟩

theorem good_stages {first : Node} {others : List Node} {e : Cursor}
    (given : (call .command).Gives calls c first d) (stages : Items calls nextStage d others e) :
    ((stagesNode first others).kind = .pipeline ∨ (stagesNode first others).kind.isCommand = true) ∧
      ((stagesNode first others).IsWhole ∨ Stuck e) := by
  obtain ⟨kind, whole⟩ := knows.holds given
  have starts : ∀ f stage g, nextStage.Gives calls f stage g → ¬ Stuck f :=
    fun f stage g given => not_stuck_of_head (next_stage_form given).1.1 (by decide)
  cases others with
  | nil =>
      obtain rfl := items_nil stages
      exact ⟨Or.inr kind, whole⟩
  | cons second more =>
      have commands : ∀ stage ∈ second :: more, stage.kind.isCommand = true := by
        intro stage member
        obtain ⟨f, g, stageGiven⟩ := items_given stages stage member
        exact (knows.holds (next_stage_form stageGiven).2).1
      refine ⟨Or.inl rfl, ?_⟩
      have firstWhole : first.IsWhole := whole.resolve_right fun stuck => by
        cases (items_end_stuck starts stuck stages).1
      have later := items_good (Q := Node.IsWhole) starts
        (fun f stage g stageGiven => (knows.holds (next_stage_form stageGiven).2).2) stages
      refine later.imp_left fun later => whole_of_nodes rfl ?_ (List.forall_mem_cons.mpr ⟨firstWhole, later⟩)
      have two : 2 ≤ ((first :: second :: more).map Node.kind).length := by simp
      simpa [Node.isRow, Kind.areSeveral, two, kind] using commands

theorem good_pipeline {node : Node} (form : PipelineForm calls c node d) :
    node.kind.isPipeline = true ∧ (node.IsWhole ∨ Stuck d) := by
  cases form with
  | plain given stages =>
      obtain ⟨kind, whole⟩ := good_stages knows given stages
      refine ⟨?_, whole⟩
      rcases kind with kind | kind
      · rw [kind]
        rfl
      · simp [Kind.isPipeline, kind]
  | bang _ given stages =>
      obtain ⟨kind, whole⟩ := good_stages knows given stages
      refine ⟨rfl, whole.imp_left (whole_of_wrap rfl ?_)⟩
      simpa [Node.isRow, Kind.isSole] using kind

omit knows in
theorem chain_of_pipeline {kind : Kind} (pipeline : kind.isPipeline = true) : kind.isChain = true := by
  simp [Kind.isChain, pipeline]

omit knows in
theorem chain_kind {first : Node} {links : List (Kind × Node)} (kind : first.kind.isChain = true)
    (operators : ∀ link ∈ links, link.1.isChain = true) :
    (chainNode first links).kind.isChain = true := by
  induction links generalizing first with
  | nil => exact kind
  | cons link others ih =>
      obtain ⟨operator, later⟩ := List.forall_mem_cons.mp operators
      exact ih operator later

omit knows in
theorem whole_chain {first : Node} {links : List (Kind × Node)} (kind : first.kind.isChain = true)
    (whole : first.IsWhole)
    (each : ∀ link ∈ links, (link.1 = .andIf ∨ link.1 = .orIf) ∧ link.2.kind.isPipeline = true ∧
      link.2.IsWhole) : (chainNode first links).IsWhole := by
  induction links generalizing first with
  | nil => exact whole
  | cons link others ih =>
      obtain ⟨⟨operator, rightKind, rightWhole⟩, later⟩ := List.forall_mem_cons.mp each
      have shape : link.1.layout = .row ∧ Node.isRow link.1 [first, link.2] =
          (first.kind.isChain && link.2.kind.isPipeline) := by
        rcases operator with same | same <;> rw [same] <;> exact ⟨rfl, rfl⟩
      have joined : (Node.ofNodes link.1 [first, link.2]).IsWhole := by
        refine whole_of_nodes shape.1 (by rw [shape.2, kind, rightKind]; rfl) ?_
        exact List.forall_mem_cons.mpr ⟨whole, List.forall_mem_singleton.mpr rightWhole⟩
      refine ih ?_ joined later
      change link.1.isChain = true
      rcases operator with same | same <;> rw [same] <;> rfl

theorem good_and_or {node : Node} (given : andOr.Gives calls c node d) :
    node.kind.isChain = true ∧ (node.IsWhole ∨ Stuck d) := by
  cases and_or_form given with
  | @chain e _ first links firstGiven items =>
      obtain ⟨kind, whole⟩ := good_pipeline knows firstGiven
      have linkGood : ∀ f link g, andOrLink.Gives calls f link g →
          ¬ Stuck f ∧ (link.1 = .andIf ∨ link.1 = .orIf) ∧ link.2.kind.isPipeline = true ∧
            (link.2.IsWhole ∨ Stuck g) := by
        intro f link g linkGiven
        cases and_or_link_form linkGiven with
        | @link h _ text linkKind right operators joined rightGiven =>
            have every : ∀ entry ∈ chainOperators, isPlainStart entry.1.toList = true ∧
                (entry.2 = .andIf ∨ entry.2 = .orIf) := by decide
            obtain ⟨plain, operator⟩ := every (text, linkKind) operators
            exact ⟨not_stuck_of_operator plain joined, operator, good_pipeline knows rightGiven⟩
      have starts := fun f link g linkGiven => (linkGood f link g linkGiven).1
      refine ⟨chain_kind (chain_of_pipeline kind) fun link member => ?_, ?_⟩
      · obtain ⟨f, g, linkGiven⟩ := items_given items link member
        rcases (linkGood f link g linkGiven).2.1 with same | same <;> rw [same] <;> rfl
      · rcases whole with whole | stuck
        · have rights := items_good (Q := fun link : Kind × Node =>
            (link.1 = .andIf ∨ link.1 = .orIf) ∧ link.2.kind.isPipeline = true ∧ link.2.IsWhole) starts
            (fun f link g linkGiven => by
              obtain ⟨-, operator, rightKind, rightWhole⟩ := linkGood f link g linkGiven
              exact rightWhole.imp_left fun whole => ⟨operator, rightKind, whole⟩) items
          exact rights.imp_left (whole_chain (chain_of_pipeline kind) whole)
        · obtain ⟨rfl, rfl⟩ := items_end_stuck starts stuck items
          exact Or.inr stuck

end Commands

theorem rule_good (calls : Rule → Cursor → Reading Node) (knows : Knows Good calls) (rule : Rule)
    (c : Cursor) (node : Node) (d : Cursor) (given : (grammar rule).Gives calls c node d) :
    Good rule c node d := by
  cases rule with
  | word => exact good_word knows given
  | redirection => exact good_redirection knows given
  | operand => exact good_operand knows given
  | command => exact good_command knows given
  | andOr => exact good_and_or knows given
  | conditional => exact good_conditional knows given

end Grammar

/-- The tree of every command line is a program, and under each of its nodes stands what the grammar
puts there. -/
theorem parsed_tree_is_whole (config : Config) (input : String) (tree : Node)
    (parsed : parse config input = .ok tree) : tree.kind = .program ∧ tree.IsWhole := by
  obtain ⟨d, read, whole, -⟩ := parse_ok config input tree parsed
  obtain ⟨commands, e, form, rfl, rfl⟩ := Grammar.program_form read
  obtain ⟨kinds, good⟩ := Grammar.good_commands (reading_knows Grammar.rule_good) form
  have ended : ¬ Grammar.Stuck e := by
    intro stuck
    rw [Grammar.past_break_of_stuck stuck] at whole
    exact Grammar.not_stuck_at_end whole stuck
  refine ⟨rfl, whole_of_nodes rfl ?_ (good.resolve_right ended)⟩
  simpa [Node.isRow] using kinds

theorem nested_tree_is_whole :
    ∃ tree, parse {} "! a <b && if c; then d \"$(e | f)\"; fi >g; x=${y:-z} h &" = .ok tree ∧
      tree.features.length = 8 ∧ tree.kind = .program ∧ tree.IsWhole := by
  obtain ⟨tree, parsed, seen⟩ := parse_ok_of_view {}
    "! a <b && if c; then d \"$(e | f)\"; fi >g; x=${y:-z} h &"
    (fun tree => tree.features.length) 8 (by decide +kernel)
  exact ⟨tree, parsed, seen, parsed_tree_is_whole {} _ tree parsed⟩

end ShellLine
