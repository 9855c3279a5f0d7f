import ShellLine.Proofs.Followed.Commands

set_option autoImplicit false

namespace ShellLine.Followed

open ShellLine.Parser Grammar Closure

variable {c d e : Cursor} {text more : List Char} {commands others : List Node}

section Layout

theorem past_lines_idle (c : Cursor) : c.pastLines.pastBreak = c.pastLines := by
  rw [Cursor.pastBreak, if_neg]
  intro newline
  obtain ⟨rest, here⟩ := List.head?_eq_some_iff.mp newline
  have idle := layout_length_drop true false c.rest
  rw [← Cursor.rest_advance, ← Cursor.pastLines, here, layoutLength, if_pos rfl] at idle
  omega

theorem layout_through (comment : Bool) (more : List Char)
    (whole : text.drop (layoutLength true comment text) = []) :
    (text ++ '\n' :: more).drop (layoutLength true comment (text ++ '\n' :: more)) =
      more.drop (layoutLength true false more) := by
  fun_induction layoutLength true comment text with
  | case1 comment => simp [layoutLength, Nat.add_comm 1]
  | case2 _ rest between ih =>
      simp only [List.cons_append, layoutLength, if_true, Nat.add_comm 1, List.drop_succ_cons] at whole ⊢
      exact ih whole
  | case3 _ rest single => exact absurd rfl single
  | case4 ch rest noNewline ih =>
      simp only [List.cons_append, comment_step noNewline, Nat.add_comm 1, List.drop_succ_cons] at whole ⊢
      exact ih whole
  | case5 rest ih | case6 rest ih | case7 rest ih =>
      simp only [List.cons_append, layoutLength, Nat.add_comm 1, List.drop_succ_cons] at whole ⊢
      exact ih whole
  | case8 rest ih =>
      simp only [List.cons_append, layoutLength, Nat.add_comm 2, List.drop_succ_cons] at whole ⊢
      exact ih whole
  | case9 text nonempty noNewline noSpace noTab noComment noEscape => exact absurd whole nonempty

theorem past_lines_through (more : List Char) (here : d.rest = c.rest ++ '\n' :: more)
    (whole : c.pastLines.rest = []) : d.pastLines = (Cursor.start more).pastLines := by
  apply Cursor.ext_rest
  rw [Cursor.pastLines, Cursor.rest_advance] at whole
  rw [Cursor.pastLines, Cursor.pastLines, Cursor.rest_advance, Cursor.rest_advance, here]
  exact layout_through false more whole

theorem past_newline_through (here : d.rest = c.rest ++ '\n' :: more) (whole : c.pastBreak.rest = []) :
    newlines.Reads d () (Cursor.start more).pastLines := by
  have empty_or_newline : c.rest = [] ∨ c.rest.head? = some '\n' := by
    by_cases newline : c.rest.head? = some '\n'
    · exact Or.inr newline
    · rw [Cursor.pastBreak, if_neg newline] at whole
      exact Or.inl whole
  have lines : c.pastLines.rest = [] := by
    rcases empty_or_newline with empty | newline
    · rw [Cursor.pastLines, Cursor.rest_advance, empty, List.drop_nil]
    · rwa [Cursor.pastBreak, if_pos newline] at whole
  refine (gives_newlines _ _ _).mpr ⟨?_, past_lines_through more here lines⟩
  rcases empty_or_newline with empty | newline
  · rw [here, empty]
    rfl
  · rw [here, List.head?_append, newline]
    rfl

end Layout

section Programs

theorem program_parts {tree : Node} (read : program.Reads c tree d) :
    ∃ commands e, completeCommands.Reads c.pastLines commands e ∧ e.pastBreak = d ∧
      tree = .ofNodes .program commands := by
  simp only [program, gives_bind, gives_blanks, gives_line_break, gives_pure] at read
  obtain ⟨_, _, rfl, _, _, rfl, commands, e, given, _, _, rfl, rfl, rfl⟩ := read
  rw [past_blanks_and_break] at given
  exact ⟨commands, e, given, rfl, rfl⟩

theorem program_of_parts (read : completeCommands.Reads c.pastLines commands d) :
    program.Reads c (.ofNodes .program commands) d.pastBreak := by
  rw [← past_blanks_and_break] at read
  refine reads_bind ((gives_blanks _ _ ()).mpr rfl) (reads_bind ((gives_line_break _ _ ()).mpr rfl) ?_)
  exact reads_bind read (reads_bind ((gives_line_break _ _ ()).mpr rfl) (reads_pure _ _))

def inFront (text more : List Char) (sheltered : Sheltered text [] ('\n' :: more)) : Tails where
  text := text
  old := []
  new := '\n' :: more
  oldApart := rfl
  newApart := rfl
  sheltered := sheltered
  shelteredBack := fun _ _ _ _ _ _ _ _ _ _ => List.nil_suffix

theorem inside_in_front {sheltered : Sheltered text [] ('\n' :: more)} (c : Cursor) :
    (inFront text more sheltered).Inside c := List.nil_suffix

theorem rest_in_front {sheltered : Sheltered text [] ('\n' :: more)} (c : Cursor) :
    ((inFront text more sheltered).there c).rest = c.rest ++ '\n' :: more :=
  rest_there (T := inFront text more sheltered) (List.append_nil c.rest).symm

theorem rejects_without_commands (read : completeCommands.Reads c [] d) : completeCommand.Rejects c ∧ c = d := by
  rcases (gives_attempt_bind _ _ _ _ _).mp read with ⟨first, e, -, later⟩ | ⟨rejected, made⟩
  · obtain ⟨others, f, -, made⟩ := (gives_bind _ _ _ _ _).mp later
    exact absurd ((gives_pure _ _ _ _).mp made).1 (List.cons_ne_nil _ _)
  · exact ⟨rejected, ((gives_pure _ _ _ _).mp made).2⟩

theorem lines_behind_layout (more : List Char) (read : completeCommands.Reads (Cursor.start text).pastLines [] d)
    (whole : d.pastBreak.rest = []) :
    (Cursor.start (text ++ '\n' :: more)).pastLines = (Cursor.start more).pastLines := by
  obtain ⟨-, rfl⟩ := rejects_without_commands read
  rw [past_lines_idle] at whole
  exact past_lines_through more rfl whole

-- Behind a newline the commands of the next lines are further commands.
theorem items_behind_newline (passed : newlines.Reads c () (Cursor.start more).pastLines)
    (behind : completeCommands.Reads (Cursor.start more).pastLines others e) :
    ∃ f, Items (reading grammar) nextCommand c others f ∧ f.pastBreak = e.pastBreak := by
  cases others with
  | nil =>
      obtain ⟨rejected, rfl⟩ := rejects_without_commands behind
      refine ⟨c, .stop ((fails_bind _ _ _).mpr (Or.inr ⟨(), _, passed, rejected⟩)), ?_⟩
      obtain ⟨newline, lines⟩ := (gives_newlines _ _ _).mp passed
      rw [past_lines_idle, Cursor.pastBreak, if_pos newline, lines]
  | cons second others =>
      cases complete_commands_form behind with
      | some given items =>
          refine ⟨e, .more (reads_bind passed given) ?_ items, rfl⟩
          exact Nat.lt_of_lt_of_le (complete_command_moves _ _ _ given) (reads_left_le passed)

theorem commands_in_front (sheltered : Sheltered text [] ('\n' :: more))
    (read : completeCommands.Reads (Cursor.start text).pastLines commands d) (whole : d.pastBreak.rest = [])
    (behind : completeCommands.Reads (Cursor.start more).pastLines others e) :
    ∃ f, completeCommands.Reads (Cursor.start (text ++ '\n' :: more)).pastLines
        (commands.map (inFront text more sheltered).node ++ others) f ∧ f.pastBreak = e.pastBreak := by
  generalize same : inFront text more sheltered = T
  have inside : ∀ c, T.Inside c := fun c => same ▸ inside_in_front c
  have there : ∀ c, (T.there c).rest = c.rest ++ '\n' :: more := fun c => same ▸ rest_in_front c
  cases commands with
  | nil =>
      rw [lines_behind_layout more read whole]
      exact ⟨e, behind, rfl⟩
  | cons first later =>
      have chains : ChainsCarryOver T (Cursor.start text).pastLines := by
        intro f suffix
        refine rule_carries_over T f ?_ .andOr
        have within := suffix.trans ((Cursor.start text).advance_suffix _)
        subst same
        rwa [← List.append_nil text] at within
      have ends : EndsChain d.rest := by
        by_cases newline : d.rest.head? = some '\n'
        · exact ends_chain_at_break newline
        · rw [Cursor.pastBreak, if_neg newline] at whole
          exact ends_chain_at_end whole
      have passed : newlines.Reads (T.there d) () (Cursor.start more).pastLines :=
        past_newline_through (there d) whole
      obtain ⟨f, items, ended⟩ := items_behind_newline passed behind
      obtain ⟨readThere, here⟩ := complete_commands_there chains read (inside d) ends items
      have start : (Cursor.start (text ++ '\n' :: more)).pastLines = T.there (Cursor.start text).pastLines := by
        rw [← past_lines_there (inside _) here.1 (here.2 rfl)]
        exact congrArg Cursor.pastLines (Cursor.ext_rest _ _ (there (.start text)).symm)
      rw [start]
      exact ⟨f, readThere, ended⟩

end Programs

section Shelter

-- An expansion of commands in a text that is read as arithmetic instead where more stands behind the
-- text, and goes on into that.
def RunsOn (text more : List Char) : Prop :=
  ∃ c d e node other, c.rest <:+ text ∧ ['$', '(', '('] <+: c.rest ∧ commandExpansion.Reads c node d ∧
    arithmeticExpansion.Reads (.start (c.rest ++ more)) other e ∧ ¬ more <:+ e.rest

theorem sheltered_of_not_runs_on (alone : ¬ RunsOn text more) : Sheltered text [] more := by
  intro c d e node other within double read _ given
  rw [List.append_nil] at within
  rw [refollowed, List.length_nil, Nat.sub_zero, List.take_length] at given
  by_contra out
  exact alone ⟨c, d, e, node, other, within, double, read, given, out⟩

theorem uncommented_sheltered {new : List Char} (apart : Apart new) (text : List Char) (uncommented : '#' ∉ text) :
    Sheltered text [] new := by
  intro c d e node other within double read _ given
  rw [List.append_nil] at within
  obtain ⟨rest, here⟩ := double
  obtain ⟨long, moved, behind⟩ := arithmetic_start here.symm
  have shorter : (c.advance 3).pastBlanks.rest.length < text.length := by
    have passed : (c.advance 3).pastBlanks.rest.length ≤ c.rest.length - 3 := by
      rw [← List.length_drop, ← Cursor.rest_advance]
      exact ((c.advance 3).advance_suffix _).length_le
    have bound := within.length_le
    omega
  have uncommentedHere : '#' ∉ c.rest := uncommented_behind (c := .start text) uncommented within
  have uncommentedBehind : '#' ∉ (c.advance 3).pastBlanks.rest := uncommented_behind uncommentedHere behind
  let T : Tails := {
    text := (c.advance 3).pastBlanks.rest
    old := []
    new := new
    oldApart := rfl
    newApart := apart
    sheltered := uncommented_sheltered apart _ uncommentedBehind
    shelteredBack := fun _ _ _ _ _ _ _ _ _ _ => List.nil_suffix }
  obtain ⟨words, f, items⟩ := items_exist (reading grammar) (call .word) (c.advance 3).pastBlanks
  have free : ¬ Stuck f := fun stuck => not_fails_of_gives read
    (rejects_command_expansion_at_words (Or.inl stuck) uncommentedHere here.symm
      (toward_of_words uncommentedBehind items))
  have front : arithmeticWords.Reads c words f :=
    reads_bind ((gives_skip 3 c _ ()).mpr rfl) (reads_bind ((gives_blanks _ _ ()).mpr rfl) (reads_many items))
  have carried := carry_arithmetic_words (T := T) long
    (fun g suffix => rule_carries_over T g (by rwa [List.append_nil]) .word) words f front List.nil_suffix free
  obtain ⟨_, g, frontThere, closing, -⟩ := reads_arithmetic_iff.mp given
  obtain ⟨-, rfl⟩ := gives_unique carried.1 frontThere
  have inside : T.Inside f := List.nil_suffix
  have ends : "))".toList <+: f.rest :=
    ((prefix_is_local (by decide)).there inside).mp ((gives_literal _ _ _ _).mp closing).1
  have closed : (literal "))").Reads f () (f.advance "))".length) := (gives_literal _ _ _ _).mpr ⟨ends, rfl⟩
  have closedThere := (carry_literal (by decide) () _ closed (T := T) List.nil_suffix trivial).1
  obtain ⟨-, rfl⟩ := gives_unique closedThere closing
  exact inside_there (T := T) List.nil_suffix
termination_by text.length

theorem uncommented_does_not_run_on (uncommented : '#' ∉ text) (more : List Char) : ¬ RunsOn text ('\n' :: more) := by
  rintro ⟨c, d, e, node, other, within, double, read, given, out⟩
  have apart : Apart ('\n' :: more) := rfl
  refine out (uncommented_sheltered apart text uncommented c d e node other ?_ double read List.nil_suffix ?_)
  · rwa [List.append_nil]
  · rwa [refollowed, List.length_nil, Nat.sub_zero, List.take_length]

end Shelter

section Joined

/-- Without limits two texts that parse do so on lines of their own in one text too, as the commands of the
first and then those of the second. Where the first text has commands, none of its expansions may be read
as arithmetic that goes on into the second. -/
theorem joined_lines_parse {style : ErrorStyle} {first second : String} {left right : Node}
    (alone : left.children = [] ∨ ¬ RunsOn first.toList ('\n' :: second.toList))
    (parsedLeft : parse { Config.unlimited with errorStyle := style } first = .ok left)
    (parsedRight : parse { Config.unlimited with errorStyle := style } second = .ok right) :
    parse { Config.unlimited with errorStyle := style } (first ++ "\n" ++ second) =
      .ok (.ofNodes .program (left.children ++ right.children)) := by
  obtain ⟨d, readLeft, wholeLeft, plainLeft⟩ := parse_ok _ _ _ parsedLeft
  obtain ⟨e, readRight, wholeRight, plainRight⟩ := parse_ok _ _ _ parsedRight
  obtain ⟨commands, f, commandsLeft, rfl, rfl⟩ := program_parts readLeft
  obtain ⟨others, g, commandsRight, rfl, rfl⟩ := program_parts readRight
  rw [Node.children_of_nodes] at alone
  rw [Node.children_of_nodes, Node.children_of_nodes]
  have joined : ∃ h, completeCommands.Reads (Cursor.start (first.toList ++ '\n' :: second.toList)).pastLines
      (commands ++ others) h ∧ h.pastBreak = g.pastBreak := by
    rcases alone with rfl | alone
    · rw [lines_behind_layout _ commandsLeft wholeLeft]
      exact ⟨g, commandsRight, rfl⟩
    · have sheltered := sheltered_of_not_runs_on alone
      have inFrontRead := commands_in_front sheltered commandsLeft wholeLeft commandsRight
      have unmoved := node_without_here_document (T := inFront _ _ sheltered) plainLeft
      rw [node_of_nodes] at unmoved
      rwa [(Node.of_nodes_injective _ _ _ _ unmoved).2] at inFrontRead
  obtain ⟨h, read, ended⟩ := joined
  have plain : (Node.ofNodes .program (commands ++ others)).firstHereDocument? = none := by
    rw [no_here_document_of_row rfl] at plainLeft plainRight ⊢
    exact fun node member => (List.mem_append.mp member).elim (plainLeft node) (plainRight node)
  have whole : h.pastBreak.rest = [] := by rw [ended, wholeRight]
  have parsed := parse_of_reads style _ _ _ (program_of_parts read) whole plain
  have text : String.ofList (first.toList ++ '\n' :: second.toList) = first ++ "\n" ++ second := by
    rw [← String.toList_inj]
    simp
  rw [text] at parsed
  exact parsed

theorem subshell_in_front_of_choice :
    ¬ RunsOn "echo $((a); b)".toList ('\n' :: "case x in esac".toList) ∧
      ∃ left right, parse Config.unlimited "echo $((a); b)" = .ok left ∧
        parse Config.unlimited "case x in esac" = .ok right ∧ left.children.length = 1 ∧
        parse Config.unlimited "echo $((a); b)\ncase x in esac" =
          .ok (.ofNodes .program (left.children ++ right.children)) := by
  have alone : ¬ RunsOn "echo $((a); b)".toList ('\n' :: "case x in esac".toList) :=
    uncommented_does_not_run_on (by decide) _
  obtain ⟨left, parsedLeft, single⟩ := parse_ok_of_view Config.unlimited "echo $((a); b)"
    (fun tree => tree.children.length) 1 (by decide +kernel)
  obtain ⟨right, parsedRight, -⟩ := parse_ok_of_view Config.unlimited "case x in esac"
    (fun tree => tree.children.length) 1 (by decide +kernel)
  have joined := joined_lines_parse (Or.inr alone) parsedLeft parsedRight
  rw [(by decide : "echo $((a); b)" ++ "\n" ++ "case x in esac" = "echo $((a); b)\ncase x in esac")] at joined
  exact ⟨alone, left, right, parsedLeft, parsedRight, single, joined⟩

-- Behind the name of a loop a comment may start at once, but words run on over the quote in it.
theorem comment_behind_name_runs_on :
    (parse Config.unlimited "$((for x#'\ndo a; done) )").toOption.isSome = true ∧
      (parse Config.unlimited "'))'").toOption.isSome = true ∧
      (parse Config.unlimited ("$((for x#'\ndo a; done) )" ++ "\n" ++ "'))'")).toOption = none := by
  refine ⟨?_, ?_, ?_⟩ <;> decide +kernel

end Joined

end ShellLine.Followed
