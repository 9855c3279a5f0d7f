import ShellLine.Proofs.Lines.Command
import ShellLine.Proofs.Memo

set_option autoImplicit false

namespace ShellLine.Lines

open ShellLine.Parser Grammar

inductive SameProgram : Node → Node → Prop
  | nodes {as bs : List Node} (each : List.Forall₂ SameCommand as bs) :
      SameProgram (.ofNodes .program as) (.ofNodes .program bs)

theorem agrees_program {bound : Nat} {c d : Cursor} (rules : RulesAgree bound) (along : Along .start true c d) :
    Agrees bound Twin SameProgram program program c d := by
  refine agrees_blanks (agrees_bind (agrees_line_break (twin_of_command (abreast_past_blanks along))) ?_)
  intro _ _ e f _ both
  refine agrees_bind (agrees_complete_commands rules both) fun _ _ g h each behind => ?_
  exact agrees_bind (agrees_line_break behind) fun _ _ _ _ _ last => agrees_pure (.nodes each) last

theorem program_lockstep {c d : Cursor} (along : Along .start true c d) :
    Lockstep Twin SameProgram (program.read (reading grammar) c) (program.read (reading grammar) d) := by
  have rules : RulesAgree (6 * c.left + 6) := fun rule e f _ structured twin =>
    rule_lockstep rule structured e f twin
  exact agrees_program rules along
    (calls_under_of_left (reading_forward grammar) program c (Nat.le_refl _))

theorem same_command_outline {a b : Node} (same : SameCommand a b) : a.outline = b.outline := by
  cases same with
  | wrap inner => exact (alike_wrap (by decide) inner).outline

theorem same_program_outline {a b : Node} (same : SameProgram a b) : a.outline = b.outline := by
  cases same with
  | nodes each =>
      have outlines := outline_of_same (each.imp fun _ _ => same_command_outline)
      rw [node_outline, node_outline, Node.ofNodes, Node.ofNodes, outline_of_nodes, outline_of_nodes,
        outlines]

theorem same_program_literal_argv {a b : Node} (same : SameProgram a b) :
    a.literalArgv? = b.literalArgv? := by
  cases same with
  | nodes each =>
      cases each with
      | nil => rfl
      | @cons command command' _ _ first others =>
          cases others with
          | cons second more => rfl
          | nil =>
              cases first with
              | @wrap inner inner' alike =>
                  change (Node.programOf inner).literalArgv? = (Node.programOf inner').literalArgv?
                  rw [Node.literal_argv_program_of, Node.literal_argv_program_of, ← alike.kind]
                  by_cases simple : inner.kind = .simpleCommand
                  · rw [if_pos simple, if_pos simple, alike.command simple]
                  · rw [if_neg simple, if_neg simple]

theorem byte_length_join (quote : Operators.Quote) (text : List Char) :
    Text.byteLength (joinLines quote text) ≤ Text.byteLength text := by
  fun_induction joinLines quote text <;> simp only [Text.byteLength] at * <;> omega

/-- Where joining lines cuts no token, a command line and its joined text have the same arguments and
features, unless the line nests so deep that only kept results let it pass. -/
theorem joined_lines_same_verdict (config : Config) (input : String) (tree : Node)
    (plain : ∀ ch ∈ input.toList, ch ∉ ['#', '$', backtick]) (uncut : Uncut .start true input.toList)
    (parsed : parse config input = .ok tree) :
    ∃ joined, joined.literalArgv? = tree.literalArgv? ∧ joined.features = tree.features ∧
      (parse config (String.ofList (joinLines .none input.toList)) = .ok joined ∨
        (readProgram ⟨false, config.maxDepth⟩ input.toList).2.tooDeep = true ∧
          parse config (String.ofList (joinLines .none input.toList)) =
            .error (.nestingTooDeep config.maxDepth)) := by
  have along : Along .start true (.start input.toList) (.start (joinLines .none input.toList)) := by
    refine ⟨rfl, uncut, fun ch member => ?_, fun member => ?_⟩
    · have others := plain ch member
      simp only [List.mem_cons, List.not_mem_nil, or_false, not_or] at others
      exact others.2
    · exact plain '#' member (by simp)
  obtain ⟨d, read, whole, noHere⟩ := parse_ok config input tree parsed
  obtain ⟨outcome, depth⟩ := program_lockstep along
  rw [read] at outcome
  cases found : (program.read (reading grammar) (.start (joinLines .none input.toList))).outcome with
  | none =>
      rw [found] at outcome
      cases outcome
  | some pair =>
      obtain ⟨joined, e⟩ := pair
      rw [found] at outcome
      obtain ⟨same, twin⟩ : SameProgram tree joined ∧ Twin d e := by
        cases outcome with
        | some both => exact both
      have outline := same_program_outline same
      have ends : e.rest = [] := by
        rw [twin.argument.rest, whole]
        rfl
      have short := (parse_ok_short config input tree parsed).imp_right fun within =>
        Nat.le_trans (byte_length_join .none input.toList) within
      refine ⟨joined, (same_program_literal_argv same).symm, (features_of_outline outline).symm, ?_⟩
      rw [parse_of_whole config _ joined e short found ends (no_here_document_of_outline outline noHere)]
      cases deep : (readProgram ⟨true, config.maxDepth⟩ (joinLines .none input.toList)).2.tooDeep with
      | false => exact Or.inl rfl
      | true =>
          refine Or.inr ⟨?_, rfl⟩
          cases shallow : (readProgram ⟨false, config.maxDepth⟩ input.toList).2.tooDeep with
          | true => rfl
          | false =>
              have fits := (program_follows ⟨false, config.maxDepth⟩ input.toList).plain shallow rfl
              exact absurd (fits_mono depth fits) ((program_follows ⟨true, config.maxDepth⟩ _).deep deep)

def spreadLine : String := "x=\\\n1 ec\\\nho \"a\\\nb\" '\\\n' \\\n 2>\\\nf"

theorem spread_line_same_verdict :
    (∀ ch ∈ spreadLine.toList, ch ∉ ['#', '$', backtick]) ∧ Uncut .start true spreadLine.toList ∧
      ∃ tree joined, parse {} spreadLine = .ok tree ∧
        parse {} "x=1 echo \"ab\" '\\\n'  2>f" = .ok joined ∧
        joined.literalArgv? = some ["echo", "ab", "\\\n"] ∧
        joined.features = [.redirect, .assignment] ∧
        joined.literalArgv? = tree.literalArgv? ∧ joined.features = tree.features := by
  have plain : ∀ ch ∈ spreadLine.toList, ch ∉ ['#', '$', backtick] := by decide +kernel
  have uncut : Uncut .start true spreadLine.toList := by decide +kernel
  have whole : String.ofList (joinLines .none spreadLine.toList) = "x=1 echo \"ab\" '\\\n'  2>f" := by
    decide +kernel
  have shallow : (readProgram ⟨false, ({} : Config).maxDepth⟩ spreadLine.toList).2.tooDeep = false := by
    decide +kernel
  obtain ⟨tree, parsed, seen⟩ := parse_ok_of_view {} spreadLine
    (fun tree => (tree.literalArgv?, tree.features))
    (some ["echo", "ab", "\\\n"], [.redirect, .assignment]) (by decide +kernel)
  obtain ⟨argv, features⟩ := Prod.mk.inj seen
  obtain ⟨joined, sameArgv, sameFeatures, read | ⟨deep, -⟩⟩ :=
    joined_lines_same_verdict {} spreadLine tree plain uncut parsed
  · rw [whole] at read
    exact ⟨plain, uncut, tree, joined, parsed, read, sameArgv.trans argv,
      sameFeatures.trans features, sameArgv, sameFeatures⟩
  · cases shallow.symm.trans deep

theorem cut_bang_changes_verdict :
    joinLines .none "!\\\n a".toList = "! a".toList ∧
      ∃ tree joined, parse {} "!\\\n a" = .ok tree ∧ parse {} "! a" = .ok joined ∧
        tree.literalArgv? = some ["!", "a"] ∧ tree.features = [] ∧
        joined.literalArgv? = none ∧ joined.features = [.pipeline] := by
  obtain ⟨tree, parsed, seen⟩ := parse_ok_of_view {} "!\\\n a"
    (fun tree => (tree.literalArgv?, tree.features)) (some ["!", "a"], []) (by decide +kernel)
  obtain ⟨joined, joinedParsed, joinedSeen⟩ := parse_ok_of_view {} "! a"
    (fun tree => (tree.literalArgv?, tree.features)) (none, [.pipeline]) (by decide +kernel)
  obtain ⟨argv, features⟩ := Prod.mk.inj seen
  obtain ⟨joinedArgv, joinedFeatures⟩ := Prod.mk.inj joinedSeen
  exact ⟨by decide +kernel, tree, joined, parsed, joinedParsed, argv, features, joinedArgv,
    joinedFeatures⟩

end ShellLine.Lines
