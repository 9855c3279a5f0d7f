import ShellLine.Proofs.Closure.Ends

set_option autoImplicit false

namespace ShellLine.Closure

open ShellLine.Parser Grammar

variable {c d : Cursor} {lines : Bool} {node : Node}

def ChainsCarried (c : Cursor) : Prop := ∀ e, e.rest <:+ c.rest → Carried .andOr e

theorem ChainsCarried.behind (chains : ChainsCarried c) (behind : d.rest <:+ c.rest) : ChainsCarried d :=
  fun e suffix => chains e (suffix.trans behind)

theorem Known.chains (known : Known c) (moved : d.left < c.left) (behind : d.rest <:+ c.rest) :
    ChainsCarried d :=
  fun e suffix => known.carried .andOr e (suffix.trans behind)
    (Nat.lt_of_le_of_lt (Cursor.left_le_of_suffix e d suffix) moved)

section Separators

abbrev signSeparator (lines : Bool) (ch : Char) (kind : Separator) : Parser Separator := do
  loneOperator ch
  (if lines then lineBreak else return () : Parser Unit)
  return kind

theorem reads_sign_separator_closed {ch : Char} {kind found : Separator} (uncommented : '#' ∉ c.rest)
    (other : ch ≠ ')') (read : (signSeparator lines ch kind).Reads c found d) :
    (signSeparator lines ch kind).Reads (closed c) found (closed d) := by
  obtain ⟨_, e, sign, later⟩ := (gives_bind _ _ _ _ _).mp read
  obtain ⟨_, f, broken, made⟩ := (gives_bind _ _ _ _ _).mp later
  obtain ⟨rfl, rfl⟩ := (gives_pure _ _ _ _).mp made
  refine reads_bind (reads_lone_closed uncommented other sign) (reads_bind (a := ()) ?_ (reads_pure _ _))
  cases lines with
  | false =>
      obtain ⟨-, rfl⟩ := (gives_pure _ _ _ _).mp broken
      exact reads_pure _ _
  | true => exact reads_line_break_closed (uncommented_behind uncommented (reads_forward sign)) broken

theorem rejects_sign_separator_iff {ch : Char} {kind : Separator} :
    (signSeparator lines ch kind).Rejects c ↔ (loneOperator ch).Rejects c := by
  cases lines <;> simp [Rejects]

theorem reads_separator_closed {kind : Separator} (uncommented : '#' ∉ c.rest)
    (read : (separator lines).Reads c kind d) : (separator lines).Reads (closed c) kind (closed d) := by
  have missing : ∀ {ch : Char} {kind : Separator}, ch ≠ ')' → (signSeparator lines ch kind).Rejects c →
      (signSeparator lines ch kind).Rejects (closed c) := by
    intro ch kind other rejected
    rw [rejects_sign_separator_iff] at rejected ⊢
    exact rejects_lone_closed other rejected
  rcases (gives_or_else _ _ _ _ _).mp read with background | ⟨noBackground, read⟩
  · exact reads_first (reads_sign_separator_closed uncommented (by decide) background)
  · refine reads_second (missing (by decide) noBackground) ?_
    rcases (gives_or_else _ _ _ _ _).mp read with semicolon | ⟨noSemicolon, newline⟩
    · exact reads_first (reads_sign_separator_closed uncommented (by decide) semicolon)
    · refine reads_second (missing (by decide) noSemicolon) ?_
      cases lines with
      | false => cases newline
      | true =>
          obtain ⟨_, e, broken, made⟩ := (gives_bind _ _ _ _ _).mp newline
          obtain ⟨rfl, rfl⟩ := (gives_pure _ _ _ _).mp made
          exact reads_bind (reads_newlines_closed uncommented broken) (reads_pure _ _)

theorem rejects_separator_closed (rejected : (separator lines).Rejects c) :
    (separator lines).Rejects (closed c) := by
  obtain ⟨noBackground, rejected⟩ := (fails_or_else _ _ _).mp rejected
  obtain ⟨noSemicolon, noNewline⟩ := (fails_or_else _ _ _).mp rejected
  rw [← Rejects, rejects_sign_separator_iff] at noBackground noSemicolon
  refine (fails_or_else _ _ _).mpr ⟨?_, (fails_or_else _ _ _).mpr ⟨?_, ?_⟩⟩
  · exact rejects_sign_separator_iff.mpr (rejects_lone_closed (by decide) noBackground)
  · exact rejects_sign_separator_iff.mpr (rejects_lone_closed (by decide) noSemicolon)
  · cases lines with
    | false => exact fails_fail _
    | true =>
        simp only [if_true, fails_bind, fails_pure, and_false, exists_false, or_false] at noNewline ⊢
        exact rejects_newlines_closed noNewline

theorem EndsList.behind (ends : EndsList lines d.rest) : Behind .andOr c d :=
  ⟨ends.chain, fun empty => absurd empty ends.remains⟩

theorem behind_of_separator {e : Cursor} {kind : Separator} (read : (separator lines).Reads d kind e) :
    Behind .andOr c d := by
  have ends : ∀ {ch : Char}, d.rest.head? = some ch → ch ∈ ['\n', ')', ';', '&', '|'] →
      (ch ∉ ['&', '|'] ∨ ch = '&' ∧ standsAlone '&' d.rest) → Behind .andOr c d :=
    fun head sign other =>
      ⟨ends_chain_of_head head (halts_of_head head sign) other, fun empty => absurd empty (remains_of_head head)⟩
  cases separator_form read with
  | background alone => exact ends alone.1 (by decide) (Or.inr ⟨rfl, alone⟩)
  | semicolon alone => exact ends alone.1 (by decide) (Or.inl (by decide))
  | newline _ head => exact ends head (by decide) (Or.inl (by decide))

end Separators

section Terms

def separatedNode : Separator → Node → Node
  | .background, node => .wrap .background node
  | .sequential, node => node

theorem shifted_separated (kind : Separator) (node : Node) :
    (separatedNode kind node).shifted = separatedNode kind node.shifted := by
  cases kind <;> simp [separatedNode]

theorem more_term_form (read : (term lines).Reads c (.more node) d) :
    ∃ first e kind, (call .andOr).Reads c first e ∧ (separator lines).Reads e kind d ∧
      separatedNode kind first = node := by
  rcases (gives_attempt_bind _ _ _ _ _).mp read with ⟨first, e, given, later⟩ | ⟨-, stopped⟩
  · rcases (gives_attempt_bind _ _ _ _ _).mp later with ⟨kind, f, separated, made⟩ | ⟨-, made⟩
    · cases kind with
      | background | sequential =>
          obtain ⟨⟨rfl⟩, rfl⟩ := (gives_pure _ _ _ _).mp made
          exact ⟨_, e, _, given, separated, rfl⟩
    · cases ((gives_pure _ _ _ _).mp made).1
  · cases ((gives_pure _ _ _ _).mp stopped).1

theorem reads_more_term {e : Cursor} {kind : Separator} (chain : (call .andOr).Reads c node d)
    (separated : (separator lines).Reads d kind e) :
    (term lines).Reads c (.more (separatedNode kind node)) e := by
  refine reads_bind (reads_tried chain) (reads_bind (reads_tried separated) ?_)
  cases kind <;> exact reads_pure _ _

theorem reads_term_closed (uncommented : '#' ∉ c.rest) (chain : Carried .andOr c)
    (read : (term lines).Reads c (.more node) d) :
    (term lines).Reads (closed c) (.more node.shifted) (closed d) := by
  obtain ⟨first, e, kind, given, separated, rfl⟩ := more_term_form read
  have behind := uncommented_behind uncommented (reads_forward given)
  rw [shifted_separated]
  exact reads_more_term (chain first e given (behind_of_separator separated))
    (reads_separator_closed behind separated)

theorem stops_closed (halts : Halts c.rest) : (term lines).Reads (closed c) .stop (closed c) :=
  reads_bind (reads_missed (chain_rejects_at_halt (halts_closed halts))) (reads_pure _ _)

theorem reads_last_term_closed {turn : Turn Node} (chain : Carried .andOr c)
    (ends : EndsList lines d.rest) (read : (term lines).Reads c turn d)
    (last : ∀ value, turn ≠ .more value) :
    (term lines).Reads (closed c) (mapTurn Node.shifted turn) (closed d) := by
  cases term_form read with
  | stop => exact stops_closed ends.halts
  | last given none => exact reads_last_term (chain _ d given ends.behind) (rejects_separator_closed none)
  | background | sequential => exact absurd rfl (last _)

theorem term_turns_closed {terms : List Node} (uncommented : '#' ∉ c.rest) (chains : ChainsCarried c)
    (ends : EndsList lines d.rest) (turns : Turns (reading grammar) (term lines) c terms d) :
    Turns (reading grammar) (term lines) (closed c) (terms.map Node.shifted) (closed d) := by
  refine (turns_closed (P := fun _ => True) (term_moves lines) ?_ ?_ turns).1
  · intro e value f suffix read _
    exact ⟨reads_term_closed (uncommented_behind uncommented suffix) (chains e suffix) read, trivial⟩
  · intro e next suffix read last
    exact ⟨reads_last_term_closed (chains e suffix) ends read last, trivial⟩

theorem reads_list_of_terms {others : Bool} {e f : Cursor}
    (carried : ∀ terms, Turns (reading grammar) (term lines) c terms d →
      Turns (reading grammar) (term others) e (terms.map Node.shifted) f)
    (read : (termList lines).Reads c node d) : (termList others).Reads e node.shifted f := by
  cases term_list_form read with
  | only turns => exact reads_bind (reads_rounds (carried _ turns)) (reads_pure _ _)
  | @several _ terms turns two =>
      rw [shifted_of_nodes]
      refine reads_bind (reads_rounds (carried terms turns)) ?_
      match terms, two with
      | first :: second :: others, _ => exact reads_pure _ _

theorem reads_term_list_closed (uncommented : '#' ∉ c.rest) (chains : ChainsCarried c)
    (ends : EndsList lines d.rest) (read : (termList lines).Reads c node d) :
    (termList lines).Reads (closed c) node.shifted (closed d) :=
  reads_list_of_terms (fun _ turns => term_turns_closed uncommented chains ends turns) read

theorem reads_compound_list_closed (uncommented : '#' ∉ c.rest) (chains : ChainsCarried c)
    (ends : EndsList true d.rest) (read : compoundList.Reads c node d) :
    compoundList.Reads (closed c) node.shifted (closed d) := by
  have list := compound_list_form read
  have broken : lineBreak.Reads c () c.pastBreak := (gives_line_break _ _ _).mpr rfl
  have suffix := reads_forward broken
  rw [compoundList, Reads, gives_nested]
  refine reads_atomic (reads_bind (reads_line_break_closed uncommented broken) ?_)
  exact reads_term_list_closed (uncommented_behind uncommented suffix) (chains.behind suffix) ends list

theorem rejects_term_list_at_halt (halts : Halts c.rest) : (termList lines).Rejects c := by
  have stop : (term lines).Reads c .stop c :=
    reads_bind (reads_missed (chain_rejects_at_halt halts)) (reads_pure _ _)
  rw [termList, Rejects, fails_bind]
  exact Or.inr ⟨[], c, reads_rounds (.stop stop), fails_fail c⟩

theorem rejects_compound_list_at_halt (halts : Halts c.pastBreak.rest) : compoundList.Rejects c := by
  rw [compoundList, Rejects, fails_nested, fails_atomic, fails_bind]
  exact Or.inr ⟨(), _, (gives_line_break _ _ _).mpr rfl, rejects_term_list_at_halt halts⟩

end Terms

section Commands

theorem reads_complete_command_closed (uncommented : '#' ∉ c.rest) (chains : ChainsCarried c)
    (ends : EndsList false d.rest) (read : completeCommand.Reads c node d) :
    completeCommand.Reads (closed c) node.shifted (closed d) := by
  obtain ⟨inner, list, rfl⟩ := complete_command_form read
  rw [shifted_wrap]
  exact reads_bind (reads_term_list_closed uncommented chains ends list) (reads_pure _ _)

theorem rejects_complete_command_at_halt (halts : Halts c.rest) : completeCommand.Rejects c := by
  rw [completeCommand, Rejects, fails_bind]
  exact Or.inl (rejects_term_list_at_halt halts)

theorem reads_next_command_closed (uncommented : '#' ∉ c.rest) (chains : ChainsCarried c)
    (ends : EndsList false d.rest) (read : nextCommand.Reads c node d) :
    nextCommand.Reads (closed c) node.shifted (closed d) := by
  obtain ⟨_, e, broken, command⟩ := (gives_bind _ _ _ _ _).mp read
  have suffix := reads_forward broken
  refine reads_bind (reads_newlines_closed uncommented broken) ?_
  exact reads_complete_command_closed (uncommented_behind uncommented suffix) (chains.behind suffix)
    ends command

theorem rejects_next_command_closed (uncommented : '#' ∉ c.rest) (halts : Halts c.pastBreak.rest) :
    nextCommand.Rejects (closed c) := by
  by_cases newline : c.rest.head? = some '\n'
  · have broken : newlines.Reads c () c.pastLines := (gives_newlines _ _ _).mpr ⟨newline, rfl⟩
    rw [Cursor.pastBreak, if_pos newline] at halts
    refine (fails_bind _ _ _).mpr (Or.inr ⟨(), _, reads_newlines_closed uncommented broken, ?_⟩)
    exact rejects_complete_command_at_halt (c := closed c.pastLines) (halts_closed halts)
  · exact (fails_bind _ _ _).mpr (Or.inl (rejects_newlines_closed ((fails_newlines _).mpr newline)))

theorem reads_complete_commands_closed {commands : List Node} (uncommented : '#' ∉ c.rest)
    (chains : ChainsCarried c) (here : ")".toList <+: d.pastBreak.rest)
    (read : completeCommands.Reads c commands d) :
    completeCommands.Reads (closed c) (commands.map Node.shifted) (closed d) := by
  have ends : EndsList false d.rest := by
    by_cases newline : d.rest.head? = some '\n'
    · exact ends_list_of_break newline
    · rw [Cursor.pastBreak, if_neg newline] at here
      exact ends_list_of_paren here
  cases complete_commands_form read with
  | none =>
      have halts : Halts (closed c).rest := halts_closed ends.halts
      exact reads_bind (reads_missed (rejects_complete_command_at_halt halts)) (reads_pure _ _)
  | @some e _ first others given items =>
      have suffix := reads_forward given
      have behind : Halts d.pastBreak.rest := halts_of_head (head_of_start here (by decide)) (by decide)
      have last := reads_forward ((gives_many nextCommand e d others).mpr items)
      have each : ∀ f value g, f.rest <:+ e.rest → nextCommand.Reads f value g → EndsList false g.rest →
          nextCommand.Reads (closed f) value.shifted (closed g) ∧ EndsList false f.rest := by
        intro f value g inside next nextEnds
        have within := inside.trans suffix
        have nextRead := reads_next_command_closed (uncommented_behind uncommented within)
          (chains.behind within) nextEnds next
        exact ⟨nextRead, ends_list_of_break (next_command_form next).1⟩
      have stops := rejects_next_command_closed (uncommented_behind uncommented (last.trans suffix)) behind
      obtain ⟨closedItems, firstEnds⟩ := items_closed each (fun _ => stops) ends items
      have command := reads_complete_command_closed uncommented chains firstEnds given
      exact reads_bind (reads_tried command) (reads_bind (reads_many closedItems) (reads_pure _ _))

end Commands

end ShellLine.Closure
