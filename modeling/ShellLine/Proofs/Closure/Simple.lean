import ShellLine.Proofs.Closure.Words

set_option autoImplicit false

namespace ShellLine.Closure

open ShellLine.Parser Grammar

variable {c d e : Cursor} {node : Node}

section Redirections

theorem redirection_operators_unclosed : ∀ pair ∈ redirectionOperators, ')' ∉ pair.1.toList := by decide

theorem drop_while_closed {accepts : Char → Bool} (stops : accepts ')' = false) (text : List Char) :
    (text ++ [')']).dropWhile accepts = text.dropWhile accepts ++ [')'] := by
  induction text with
  | nil => simp [stops]
  | cons ch others ih =>
      simp only [List.cons_append, List.dropWhile_cons, ih]
      split <;> rfl

theorem describes_closed (text : List Char) : Describes (text ++ [')']) ↔ Describes text := by
  rw [Describes, Describes, take_while_closed (by decide), drop_while_closed (by decide),
    head_closed (by decide), head_closed (by decide)]

theorem reads_descriptor_closed {described : Option Node}
    (tried : (attempt redirectedDescriptor).Reads c described d) :
    (attempt redirectedDescriptor).Reads (closed c) described (closed d) ∧
      described.map Node.shifted = described := by
  rcases (gives_attempt _ _ _ _).mp tried with ⟨inner, rfl, given⟩ | ⟨rfl, missing, rfl⟩
  · obtain ⟨describes, rfl, rfl⟩ := reads_descriptor_iff.mp given
    refine ⟨reads_tried (reads_descriptor_iff.mpr ⟨(describes_closed _).mpr describes, ?_⟩), ?_⟩
    · rw [closed_rest, take_while_closed (by decide)]
      exact ⟨rfl, closed_advance (take_while_within Char.isDigit c.rest)⟩
    · rw [Option.map_some, shifted_leaf]
  · have missingClosed : redirectedDescriptor.Rejects (closed c) :=
      rejects_descriptor_iff.mpr fun describes =>
        rejects_descriptor_iff.mp missing ((describes_closed c.rest).mp describes)
    exact ⟨reads_missed missingClosed, rfl⟩

def RedirectionTo (R : Cursor → Prop) (c : Cursor) : Prop :=
  ∃ described d kind e, (attempt redirectedDescriptor).Reads c described d ∧
    (literalAmong redirectionOperators).Reads d kind e ∧ R e.pastBlanks

-- Where no redirection is read, though its operator stands there: its target is cut short.
def CutRedirection (c : Cursor) : Prop :=
  ∃ described d kind e, (attempt redirectedDescriptor).Reads c described d ∧
    (literalAmong redirectionOperators).Reads d kind e ∧ Stuck e.pastBlanks

theorem redirection_carried (known : Known c) : Carried .redirection c := by
  intro node d read free
  rw [reads_call] at read ⊢
  simp only [grammar, redirection, gives_bind, gives_place, gives_pure] at read
  obtain ⟨described, e, tried, _, _, ⟨rfl, rfl⟩, kind, f, found, _, g, blank, target, h, word, rfl, rfl⟩ := read
  have atOperator := known.past tried
  have atBlank := atOperator.past found
  have atTarget := atBlank.past blank
  obtain ⟨triedClosed, same⟩ := reads_descriptor_closed tried
  have marked : (⟨kind, .ofNodes [target], if kind.isHereDocument then some e.left else none⟩ : Node).shifted =
      ⟨kind, .ofNodes [target.shifted], if kind.isHereDocument then some (closed e).left else none⟩ := by
    rw [Node.shifted, Kind.shiftMark, closed_left]
    cases kind.isHereDocument <;> simp
  have row : (described.toList).map Node.shifted = described.toList := by
    rw [← Option.toList_map, same]
  rw [shifted_of_nodes, List.map_append, List.map_cons, List.map_nil, row, marked]
  refine reads_bind triedClosed (reads_bind ((gives_place _ _ _).mpr ⟨rfl, rfl⟩) ?_)
  refine reads_bind (reads_literal_among_closed redirection_operators_unclosed found) ?_
  refine reads_bind (reads_blanks_closed atBlank.uncommented blank) ?_
  exact reads_bind (word_carried atTarget target h word free) (reads_pure _ _)

theorem rejects_redirection_closed (known : Known c) (rejected : (call .redirection).Rejects c)
    (uncut : ¬ CutRedirection c) : (call .redirection).Rejects (closed c) := by
  obtain ⟨described, d, tried⟩ : ∃ described d, (attempt redirectedDescriptor).Reads c described d :=
    (gives_or_fails _ _ _).resolve_right (fails_attempt _ _)
  have atOperator := known.past tried
  rw [rejects_call] at rejected ⊢
  refine (fails_bind _ _ _).mpr (Or.inr ⟨_, _, (reads_descriptor_closed tried).1, ?_⟩)
  rw [fails_place_bind]
  rcases gives_or_fails (reading grammar) (literalAmong redirectionOperators) d with ⟨kind, e, found⟩ | missing
  · have noTarget : (call .word).Rejects e.pastBlanks := by
      rcases gives_or_fails (reading grammar) (call .word) e.pastBlanks with ⟨target, f, word⟩ | noWord
      · obtain ⟨node, given⟩ : ∃ node, redirection.Reads c node f :=
          ⟨_, reads_bind tried (reads_bind ((gives_place _ _ _).mpr ⟨rfl, rfl⟩) (reads_bind found
            (reads_bind ((gives_blanks _ _ ()).mpr rfl) (reads_bind word (reads_pure _ _)))))⟩
        exact absurd rejected (not_fails_of_gives given)
      · exact noWord
    have atBlank := atOperator.past found
    have free : ¬ Stuck e.pastBlanks := fun stuck => uncut ⟨described, d, kind, e, tried, found, stuck⟩
    refine (fails_bind _ _ _).mpr (Or.inr ⟨kind, _,
      reads_literal_among_closed redirection_operators_unclosed found, ?_⟩)
    refine (fails_bind _ _ _).mpr (Or.inr ⟨(), _,
      reads_blanks_closed atBlank.uncommented ((gives_blanks _ _ _).mpr rfl), ?_⟩)
    exact (fails_bind _ _ _).mpr (Or.inl (rejects_word_closed noTarget free))
  · exact (fails_bind _ _ _).mpr (Or.inl (rejects_literal_among_closed redirection_operators_unclosed missing))

theorem head_of_redirection_operator {kind : Kind} (found : (literalAmong redirectionOperators).Reads c kind d) :
    c.rest.head? = some '<' ∨ c.rest.head? = some '>' := by
  obtain ⟨before, text, after, operators, -, ⟨behind, whole⟩, -⟩ := gives_literal_among found
  rw [← whole, List.head?_append]
  rcases redirection_operator_starts text kind (by simp [operators]) with start | start
  · exact Or.inl (by rw [start]; rfl)
  · exact Or.inr (by rw [start]; rfl)

variable {R : Cursor → Prop}

theorem target_of_redirection (redirected : RedirectionTo R c) (read : (call .redirection).Reads c node d) :
    ∃ e word, R e ∧ (call .word).Reads e word d := by
  obtain ⟨described, e, kind, f, tried, found, target⟩ := redirected
  have given := (reads_call _ _ _ _).mp read
  simp only [grammar, redirection, gives_bind, gives_place, gives_pure] at given
  obtain ⟨_, _, otherTried, _, _, ⟨rfl, rfl⟩, _, _, otherFound, _, g, blank, word, h, wordRead, -, rfl⟩ := given
  obtain ⟨-, rfl⟩ := gives_unique tried otherTried
  obtain ⟨-, rfl⟩ := gives_unique found otherFound
  rw [(gives_blanks _ _ _).mp blank] at target
  exact ⟨g, word, target, wordRead⟩

theorem not_redirection_at {ch : Char} (head : c.rest.head? = some ch) (noDigit : ch.isDigit = false)
    (noInput : ch ≠ '<') (noOutput : ch ≠ '>') : ¬ RedirectionTo R c := by
  rintro ⟨described, d, kind, e, tried, found, -⟩
  rcases (gives_attempt _ _ _ _).mp tried with ⟨inner, -, given⟩ | ⟨-, -, rfl⟩
  · obtain ⟨others, here⟩ := List.head?_eq_some_iff.mp head
    obtain ⟨⟨nonempty, -⟩, -⟩ := reads_descriptor_iff.mp given
    rw [here, List.takeWhile_cons_of_neg (by simp [noDigit])] at nonempty
    exact nonempty rfl
  · rcases head_of_redirection_operator found with input | output
    · exact noInput (Option.some.inj (head.symm.trans input))
    · exact noOutput (Option.some.inj (head.symm.trans output))

theorem word_past_redirection {word : Node} (redirected : RedirectionTo R c)
    (read : (call .word).Reads c word d) : RedirectionTo R d := by
  obtain ⟨described, e, kind, f, tried, found, target⟩ := redirected
  have starts := head_of_redirection_operator found
  have delimited : e.rest.head?.all isDelimiter = true := by rcases starts with head | head <;> rw [head] <;> rfl
  have missing : (attempt redirectedDescriptor).Reads e none e := by
    refine reads_missed (rejects_descriptor_iff.mpr fun describes => describes.1 ?_)
    rcases starts with head | head
    all_goals
      obtain ⟨others, here⟩ := List.head?_eq_some_iff.mp head
      rw [here]
      rfl
  have idle : e.pastBlanks = e := by rcases starts with head | head <;> exact past_blanks_at head (by decide)
  have same : d = e := by
    rcases (gives_attempt _ _ _ _).mp tried with ⟨inner, -, given⟩ | ⟨-, -, rfl⟩
    · obtain ⟨-, -, rfl⟩ := reads_descriptor_iff.mp given
      have plain : ∀ ch ∈ c.rest.takeWhile Char.isDigit, isPlain ch = true :=
        fun ch member => digit_is_plain (List.all_eq_true.mp List.all_takeWhile ch member)
      have ends := parts_end_past_text plain (rest_take_while c Char.isDigit) (parts_end_at_delimiter delimited)
      rw [word_ends read ends, idle]
    · exact absurd (rejects_word_at_delimiter delimited) (not_fails_of_gives read)
  rw [same]
  exact ⟨none, e, kind, f, missing, found, target⟩

theorem not_cut_of_redirection (read : (call .redirection).Reads c node d) : ¬ CutRedirection c := by
  intro cut
  obtain ⟨e, word, stuck, given⟩ := target_of_redirection (R := Stuck) cut read
  exact not_stuck_of_word ((reads_call _ _ _ _).mp given) stuck

end Redirections

section Simple

theorem halts_head {text : List Char} (halts : Halts text) :
    ∀ ch, text.head? = some ch → ch.isDigit = false ∧ ch ≠ '<' ∧ ch ≠ '>' := by
  intro ch head
  rcases halts with sign | closing
  · rw [head] at sign
    exact (by decide : ∀ ch ∈ ['\n', ')', ';', '&', '|'], ch.isDigit = false ∧ ch ≠ '<' ∧ ch ≠ '>') ch
      (by simpa using sign)
  · obtain ⟨first, here, other⟩ := head_of_solid_word (fun ch => !ch.isDigit && ch ≠ '<' && ch ≠ '>')
      (by decide +kernel) closing
    cases head.symm.trans here
    simpa [and_assoc] using other

theorem rejects_redirection_at_halt (halts : Halts c.rest) : (call .redirection).Rejects c := by
  cases head : c.rest.head? with
  | none =>
      rw [List.head?_eq_none_iff] at head
      exact (rejects_call _ _).mpr (rejects_redirection (by simp [head]))
  | some ch =>
      obtain ⟨noDigit, noInput, noOutput⟩ := halts_head halts ch head
      exact rejects_redirection_at head noDigit noInput noOutput

theorem not_redirection_at_halt {R : Cursor → Prop} (halts : Halts c.rest) : ¬ RedirectionTo R c := by
  cases head : c.rest.head? with
  | none =>
      rintro ⟨described, d, kind, e, tried, found, -⟩
      have empty : d.rest = [] := by
        rw [List.head?_eq_none_iff] at head
        exact List.suffix_nil.mp (head ▸ reads_forward tried)
      rcases head_of_redirection_operator found with start | start <;> simp [empty] at start
  | some ch =>
      obtain ⟨noDigit, noInput, noOutput⟩ := halts_head halts ch head
      exact not_redirection_at head noDigit noInput noOutput

-- A place in front of which nothing is cut short.
structure Clear (c : Cursor) : Prop where
  free : ¬ Stuck c
  uncut : ¬ CutRedirection c

theorem clear_of_halts (halts : Halts c.rest) : Clear c :=
  ⟨not_stuck_of_halts halts, not_redirection_at_halt (R := Stuck) halts⟩

theorem clear_of_redirection (read : (call .redirection).Reads c node d) : Clear c :=
  ⟨not_stuck_of_redirection ((reads_call _ _ _ _).mp read), not_cut_of_redirection read⟩

theorem clear_of_word (read : (call .word).Reads c node d) (clear : Clear d) : Clear c :=
  ⟨not_stuck_of_word ((reads_call _ _ _ _).mp read),
    fun cut => clear.uncut (word_past_redirection (R := Stuck) cut read)⟩

theorem reads_assignment_closed (known : Known c) (free : ¬ Stuck d) (read : assignment.Reads c node d) :
    assignment.Reads (closed c) node.shifted (closed d) := by
  simp only [assignment, wordParts, gives_atomic, gives_bind, gives_many, gives_pure] at read
  obtain ⟨parameter, e, named, _, f, equals, parts, g, items, _, h, blank, rfl, rfl⟩ := read
  have atParts := (known.past named).past equals
  have atBlank := atParts.past ((gives_many _ _ _ _).mpr items)
  have partsFree : ¬ Stuck g := by
    intro stuck
    rw [← (gives_blanks _ _ _).mp blank, past_blanks_of_stuck stuck] at free
    exact free stuck
  have partsClosed := reads_parts_closed atParts (rejects_part_closed partsFree) items
  have wrapped : (⟨.assignment, .text parameter (.ofNodes [.ofNodes .word parts]), none⟩ : Node).shifted =
      ⟨.assignment, .text parameter (.ofNodes [.ofNodes .word (parts.map Node.shifted)]), none⟩ := by
    rw [Node.shifted, shift_no_mark, Forest.shifted, shifted_row, List.map_cons, List.map_nil, shifted_of_nodes]
  rw [wrapped]
  refine reads_atomic (reads_bind (reads_name_closed named) (reads_bind (reads_literal_closed equals) ?_))
  refine reads_bind (reads_many partsClosed) ?_
  exact reads_bind (reads_blanks_closed atBlank.uncommented blank) (reads_pure _ _)

theorem rejects_assignment_closed (rejected : assignment.Rejects c) : assignment.Rejects (closed c) := by
  rw [assignment, Rejects, fails_atomic] at rejected ⊢
  rcases (fails_bind _ _ _).mp rejected with noName | ⟨parameter, d, named, rejected⟩
  · exact (fails_bind _ _ _).mpr (Or.inl (rejects_name_closed noName))
  · rcases (fails_bind _ _ _).mp rejected with noEquals | ⟨_, e, -, rejected⟩
    · refine (fails_bind _ _ _).mpr (Or.inr ⟨parameter, _, reads_name_closed named, ?_⟩)
      exact (fails_bind _ _ _).mpr (Or.inl (rejects_literal_closed (by decide) noEquals))
    · simp [wordParts] at rejected

theorem lead_item_closed (known : Known c) (clear : Clear d) (read : leadItem.Reads c node d) :
    leadItem.Reads (closed c) node.shifted (closed d) ∧ Clear c := by
  rcases (gives_or_else _ _ _ _ _).mp read with redirected | ⟨-, assigned⟩
  · exact ⟨reads_first (redirection_carried known node d redirected clear.free),
      clear_of_redirection redirected⟩
  · obtain ⟨parameter, e, named, -⟩ := (gives_bind _ _ _ _ _).mp ((gives_atomic _ _ _ _).mp assigned)
    obtain ⟨ch, head, noDigit, noInput, noOutput⟩ := head_of_name named
    have uncut : ¬ CutRedirection c := not_redirection_at (R := Stuck) head noDigit noInput noOutput
    have noRedirection := rejects_redirection_at_name (reads_name_closed named)
    refine ⟨reads_second noRedirection (reads_assignment_closed known clear.free assigned), ?_, uncut⟩
    obtain ⟨first, start, starts⟩ := (Option.any_eq_true _ _).mp ((gives_name _ _ _).mp named).1
    exact not_stuck_of_head start (not_quoting_of_continues (continues_of_starts first starts))

theorem argument_item_closed (known : Known c) (clear : Clear d) (read : argumentItem.Reads c node d) :
    argumentItem.Reads (closed c) node.shifted (closed d) ∧ Clear c := by
  rcases (gives_or_else _ _ _ _ _).mp read with redirected | ⟨noRedirection, word⟩
  · exact ⟨reads_first (redirection_carried known node d redirected clear.free),
      clear_of_redirection redirected⟩
  · have start := clear_of_word word clear
    exact ⟨reads_second (rejects_redirection_closed known noRedirection start.uncut)
      (word_carried known node d word clear.free), start⟩

theorem command_word_closed (known : Known c) (free : ¬ Stuck d) (read : commandWord.Reads c node d) :
    commandWord.Reads (closed c) node.shifted (closed d) := by
  obtain ⟨unreserved, word⟩ := command_word_form read
  rw [commandWord, Reads, gives_look_bind, closed_rest, reserved_ahead_closed, unreserved]
  exact word_carried known node d word free

theorem rejects_command_word_closed (free : ¬ Stuck c) (rejected : commandWord.Rejects c) :
    commandWord.Rejects (closed c) := by
  rw [commandWord, Rejects, fails_look_bind] at rejected ⊢
  rw [closed_rest, reserved_ahead_closed]
  split
  · exact fails_refuse _ _
  · rename_i unreserved
    rw [if_neg unreserved] at rejected
    exact rejects_word_closed rejected free

theorem shifted_lead_nodes (items : List Node) :
    (leadNodes items).map Node.shifted = leadNodes (items.map Node.shifted) := by
  cases items <;> simp [leadNodes]

theorem lead_items_closed {items : List Node} (known : Known c) (clear : Clear d)
    (leads : Items (reading grammar) leadItem c items d) :
    Items (reading grammar) leadItem (closed c) (items.map Node.shifted) (closed d) := by
  have atEnd := known.past ((gives_many _ _ _ _).mpr leads)
  refine (items_closed (P := Clear) ?_ ?_ clear leads).1
  · exact fun e value f suffix read behind => lead_item_closed (known.behind suffix) behind read
  · intro failed
    obtain ⟨noRedirection, noAssignment⟩ := (fails_or_else _ _ _).mp failed
    exact (fails_or_else _ _ _).mpr ⟨rejects_redirection_closed atEnd noRedirection clear.uncut,
      rejects_assignment_closed noAssignment⟩

theorem reads_simple_command_closed (known : Known c) (halts : Halts d.rest)
    (read : simpleCommand.Reads c node d) : simpleCommand.Reads (closed c) node.shifted (closed d) := by
  obtain ⟨items, e, leadRead, read⟩ := (gives_bind _ _ _ _ _).mp read
  have atWord := known.past leadRead
  have leads := (gives_many _ _ _ _).mp leadRead
  have clear := clear_of_halts halts
  rcases (gives_attempt_bind _ _ _ _ _).mp read with ⟨first, f, named, read⟩ | ⟨noWord, made⟩
  · obtain ⟨others, g, argumentRead, made⟩ := (gives_bind _ _ _ _ _).mp read
    obtain ⟨rfl, rfl⟩ := (gives_pure _ _ _ _).mp made
    have atArguments := atWord.past named
    have stops : argumentItem.Rejects g → argumentItem.Rejects (closed g) := fun failed =>
      (fails_or_else _ _ _).mpr ⟨rejects_redirection_at_halt (c := closed g) (halts_closed halts),
        rejects_word_closed ((fails_or_else _ _ _).mp failed).2 clear.free⟩
    obtain ⟨arguments, behindWord⟩ := items_closed (P := Clear)
      (fun h value i suffix read behind => argument_item_closed (atArguments.behind suffix) behind read)
      stops clear ((gives_many _ _ _ _).mp argumentRead)
    have start := clear_of_word (command_word_form named).2 behindWord
    have closedRead := simple_command_of_parts (lead_items_closed known start leads)
      (command_word_closed atWord behindWord.free named) arguments
    rw [← shifted_lead_nodes, ← List.map_cons, ← List.map_append, ← shifted_of_nodes] at closedRead
    exact closedRead
  · by_cases empty : items = []
    · simp [empty] at made
    · simp only [if_neg empty, gives_pure] at made
      obtain ⟨rfl, rfl⟩ := made
      refine reads_bind (reads_many (lead_items_closed known clear leads)) ?_
      refine reads_bind (reads_missed (rejects_command_word_closed clear.free noWord)) ?_
      have remains : items.map Node.shifted ≠ [] := by simpa using empty
      simp only [if_neg remains, shifted_of_nodes, List.map_cons, List.map_nil]
      exact reads_pure _ _

end Simple

end ShellLine.Closure
