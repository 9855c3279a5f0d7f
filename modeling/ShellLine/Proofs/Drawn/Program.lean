import ShellLine.Proofs.Drawn.Commands
import ShellLine.Proofs.HereDocuments
import ShellLine.Proofs.Tree.Markup

set_option autoImplicit false

namespace ShellLine

section Parsed

variable {config : Config} {input : String} {tree : Node}

theorem read_of_parsed (parsed : parse config input = .ok tree) :
    (readProgram ⟨true, config.maxDepth⟩ input.toList).1 = some tree ∧ tree.firstHereDocument? = none := by
  rcases parse_judges config input with ⟨length, long⟩ | judged
  · cases long.symm.trans parsed
  · exact judged_ok (judged.symm.trans parsed)

theorem parsed_tree_drawn (parsed : parse config input = .ok tree) :
    ∃ taken : List Char, taken.Sublist input.toList ∧ tree.Drawn taken := by
  obtain ⟨trace, runs⟩ := program_runs ⟨true, config.maxDepth⟩ input.toList
  obtain ⟨-, -, ends⟩ := runs_uphold drawn_closed runs (start_sound input.toList) (fresh_upholds rfl)
  rw [(read_of_parsed parsed).1] at ends
  obtain ⟨taken, kept, drawn⟩ := Grammar.takes_program tree _ ends
  exact ⟨taken, (List.sublist_append_left taken _).trans kept.1, drawn⟩

theorem parsed_tree_unmarked (parsed : parse config input = .ok tree) :
    ∀ inner ∈ tree.descendants, inner.mark = none := by
  obtain ⟨given, without⟩ := read_of_parsed parsed
  intro inner below
  have marked := run_tree_marked given inner below
  rwa [Node.Marked, no_here_document_iff.mp without inner below] at marked

end Parsed

/-- The texts of a tree are taken from the text that it was read from, in the order of the walk, and no
character of the text is taken twice. -/
theorem parsed_texts_in_order (config : Config) (input : String) (tree : Node)
    (parsed : parse config input = .ok tree) : tree.texts.flatten.Sublist input.toList := by
  obtain ⟨taken, kept, drawn⟩ := parsed_tree_drawn parsed
  rw [node_texts, drawn.text]
  exact kept

theorem loop_texts_in_order :
    ∃ tree, parse {} "for v in a 'b c'; do case $\x7bv:-x\x7d in y|z) p=\"q$r\" >s;; esac; done 2>t #u" = .ok tree ∧
      tree.texts.flatten = "vab cvxyzpqrs2t".toList ∧ tree.texts.flatten.Sublist
        "for v in a 'b c'; do case $\x7bv:-x\x7d in y|z) p=\"q$r\" >s;; esac; done 2>t #u".toList := by
  obtain ⟨tree, parsed, seen⟩ := parse_ok_of_view {}
    "for v in a 'b c'; do case $\x7bv:-x\x7d in y|z) p=\"q$r\" >s;; esac; done 2>t #u"
    (fun tree => tree.texts.flatten) "vab cvxyzpqrs2t".toList (by decide +kernel)
  exact ⟨tree, parsed, seen, parsed_texts_in_order {} _ tree parsed⟩

/-- Two trees have the same written form exactly if they are the same up to marks when texts side by side
are joined and empty ones are left out. In a tree that is returned it is the kind of a node that says
whether it is one text, which may then be empty, or has no empty text and no two side by side; and two such
trees with the same written form are the same. -/
theorem dump_tells_trees_apart :
    (∀ a b : Node, a.dump = b.dump ↔ a.merged = b.merged) ∧
    (∀ config input tree, parse config input = .ok tree → ∀ inner ∈ tree.descendants, inner.TextsSettled) ∧
    ∀ config other input otherInput tree otherTree, parse config input = .ok tree →
      parse other otherInput = .ok otherTree → tree.dump = otherTree.dump → tree = otherTree := by
  have settled : ∀ config input tree, parse config input = .ok tree →
      ∀ inner ∈ tree.descendants, inner.TextsSettled := by
    intro config input tree parsed inner below
    obtain ⟨taken, -, drawn⟩ := parsed_tree_drawn parsed
    exact (drawn.tidy inner below).1
  refine ⟨dump_eq_iff_merged_eq, settled, ?_⟩
  intro config other input otherInput tree otherTree parsed otherParsed same
  exact node_eq_of_merged_eq
    (fun inner below => ⟨settled _ _ _ parsed inner below, parsed_tree_unmarked parsed inner below⟩)
    (fun inner below => ⟨settled _ _ _ otherParsed inner below, parsed_tree_unmarked otherParsed inner below⟩)
    ((dump_eq_iff_merged_eq tree otherTree).mp same)

theorem lookalike_dumps :
    (⟨.word, .ofList [.text "<b".toList, .text [], .text "&lt;".toList], none⟩ : Node).dump =
      (Node.leaf .word "<b&lt;".toList).dump ∧
    (⟨.word, .list (.text "a".toList .nil) .nil, none⟩ : Node).dump ≠ (Node.leaf .word "[a]".toList).dump ∧
    ∃ tree otherTree, parse {} "'' \"<b>$c\"" = .ok tree ∧
      parse { maxDepth := 1 } "\\\n''  \"<b>$c\" # d" = .ok otherTree ∧ tree = otherTree := by
  obtain ⟨merging, -, parsing⟩ := dump_tells_trees_apart
  refine ⟨(merging _ _).mpr rfl, mt (merging _ _).mp (by decide), ?_⟩
  have same : (parse {} "'' \"<b>$c\"").toOption.map Node.markup =
      (parse { maxDepth := 1 } "\\\n''  \"<b>$c\" # d").toOption.map Node.markup := by
    decide +kernel
  obtain ⟨tree, parsed, -⟩ := parse_ok_of_view {} "'' \"<b>$c\"" (fun _ => ()) () (by decide +kernel)
  obtain ⟨otherTree, otherParsed, -⟩ := parse_ok_of_view { maxDepth := 1 } "\\\n''  \"<b>$c\" # d"
    (fun _ => ()) () (by decide +kernel)
  rw [parsed, otherParsed] at same
  exact ⟨tree, otherTree, parsed, otherParsed, parsing _ _ _ _ tree otherTree parsed otherParsed
    (congrArg String.ofList (Option.some.inj same))⟩

end ShellLine
