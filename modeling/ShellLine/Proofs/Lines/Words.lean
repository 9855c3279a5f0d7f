import ShellLine.Proofs.Lines.Token

set_option autoImplicit false

namespace ShellLine.Lines

open ShellLine.Parser Grammar

section Level

variable {calls : Rule → Cursor → Reading Node} {c : Cursor}

theorem level_quoted_part (unexpanded : Unexpanded c.rest) : doubleQuotedPart.StaysLevel calls c := by
  rw [doubleQuotedPart, level_look_bind]
  split
  · simp
  · simp
  · rename_i here
    exact absurd rfl (unexpanded '$' (by simp [here])).1
  · split
    · split
      · simp
      · split <;> simp
    · simp
  · rename_i ch rest _ _ _ here
    simp [(unexpanded ch (by simp [here])).2]

theorem level_word_part (unexpanded : Unexpanded c.rest) : (wordPart false).StaysLevel calls c := by
  rw [wordPart, level_look_bind]
  split
  · simp only [singleQuote, level_atomic, level_bind, level_skip, level_take_while, level_look, true_and]
    intro _ _ _ _ _ _ text _ _
    cases text <;> simp
  · simp only [doubleQuote, level_atomic, level_bind, level_skip, level_rounds, level_pure, true_and,
      implies_true, and_true, gives_skip]
    rintro _ d rfl e behind
    exact level_quoted_part (unexpanded_of_suffix unexpanded (behind.trans (c.advance_suffix 1)))
  · rename_i head
    exact absurd rfl (unexpanded _ (List.mem_of_head? head)).2
  · rename_i head
    exact absurd rfl (unexpanded _ (List.mem_of_head? head)).1
  · simp only [bareEscape, level_atomic, level_bind, level_skip, level_look, true_and]
    intro _ _ _ text _ _
    cases text <;> simp
  · simp only [unquotedLiteral, level_bind, level_take_while, true_and]
    intro chars _ _
    split <;> simp

theorem level_word_parts (unexpanded : Unexpanded c.rest) : (wordParts false).StaysLevel calls c := by
  rw [wordParts, level_many]
  exact fun d behind => level_word_part (unexpanded_of_suffix unexpanded behind)

theorem level_word (unexpanded : Unexpanded c.rest) : word.StaysLevel calls c := by
  refine ⟨level_word_parts unexpanded, fun parts d _ => ?_⟩
  cases parts <;> simp

end Level

theorem alike_refl (node : Node) : Alike node node := ⟨rfl, rfl, fun _ => rfl, fun _ => rfl⟩

section Words

variable {p q : Position} {fresh : Bool} {role : Role} {bound : Nat} {c d e f : Cursor} {parts others : List Node}

theorem parts_nil_iff (unexpanded : Unexpanded c.rest)
    (items : Items (reading grammar) (wordPart false) c parts e) :
    parts = [] ↔ startsWord c.rest = false := by
  cases items with
  | stop rejected => simp [rejects_word_part unexpanded rejected]
  | halt given stays => exact absurd (word_part_moves given) stays
  | more given progress others => simp [(word_text_part unexpanded given).1]

theorem unexpanded_joined (along : Along p fresh c d) : Unexpanded d.rest := by
  intro ch member
  rw [along.rest] at member
  exact along.unexpanded ch (mem_of_mem_join member)

theorem parts_spelled (along : Along p fresh c d)
    (items : Items (reading grammar) (wordPart false) c parts e)
    (joined : Items (reading grammar) (wordPart false) d others f) :
    f.rest = joinLines .none e.rest ∧ (wordText c.rest).2 = e.rest ∧
      ∃ text, (Node.ofNodes .word parts).unquote? = some text ∧
        (Node.ofNodes .word others).unquote? = some text := by
  obtain ⟨texts, each, spelled⟩ := word_parts_spell along.unexpanded items
  obtain ⟨texts', each', spelled'⟩ := word_parts_spell (unexpanded_joined along) joined
  rw [along.rest, word_text_join, spelled] at spelled'
  obtain ⟨text, rest⟩ := Prod.mk.inj spelled'
  refine ⟨rest.symm, by rw [spelled], _, unquote_of_parts each, ?_⟩
  rw [unquote_of_parts each', ← text]
  rfl

theorem parts_along (along : Along p fresh c d) (inside : Uncut q false (wordText c.rest).2)
    (items : Items (reading grammar) (wordPart false) c parts e)
    (joined : Items (reading grammar) (wordPart false) d others f) : Along q true e f := by
  obtain ⟨rest, ends, -⟩ := parts_spelled along items joined
  have stuck := starts_word_behind c.rest
  rw [ends] at inside stuck
  have suffix : e.rest <:+ c.rest :=
    reads_forward ((gives_many (wordPart false) c e parts).mpr items)
  have unexpanded := unexpanded_of_suffix along.unexpanded suffix
  exact along_behind along suffix rest (uncut_at_stop unexpanded stuck inside)

theorem alike_parts (along : Along p fresh c d)
    (items : Items (reading grammar) (wordPart false) c parts e)
    (joined : Items (reading grammar) (wordPart false) d others f) :
    Alike (.ofNodes .word parts) (.ofNodes .word others) := by
  obtain ⟨-, -, text, told, told'⟩ := parts_spelled along items joined
  exact alike_word rfl rfl (plain_of_unquote rfl (by rw [told]; rfl))
    (plain_of_unquote rfl (by rw [told']; rfl)) (told.trans told'.symm)

theorem word_lockstep (along : Along p fresh c d) (noPair : ¬ ['\\', '\n'] <+: c.rest)
    (inside : startsWord c.rest = true → Uncut ⟨role, false⟩ false (wordText c.rest).2) :
    Lockstep (Abreast role) Alike (reading grammar .word c) (reading grammar .word d) := by
  have otherUnexpanded := unexpanded_joined along
  have starts : startsWord d.rest = startsWord c.rest := by rw [along.rest, starts_word_join noPair]
  rw [reading_grammar, reading_grammar]
  obtain ⟨parts, e, items⟩ := items_exist (reading grammar) (wordPart false) c
  obtain ⟨others, f, joined⟩ := items_exist (reading grammar) (wordPart false) d
  have level : Grammar.word.StaysLevel (reading grammar) d := level_word otherUnexpanded
  by_cases none : parts = []
  · have other : others = [] := by
      rw [parts_nil_iff otherUnexpanded joined, starts, ← parts_nil_iff along.unexpanded items, none]
    have rejects : ∀ {g h : Cursor}, Items (reading grammar) (wordPart false) g [] h →
        Grammar.word.Rejects g := by
      intro g h items
      simp only [Grammar.word, wordParts, Rejects, fails_bind, gives_many]
      exact Or.inr ⟨[], h, items, fails_fail h⟩
    subst none other
    exact lockstep_of_rejects (rejects items) (rejects joined) level
  · have other : others ≠ [] := by
      rw [Ne, parts_nil_iff otherUnexpanded joined, starts, ← parts_nil_iff along.unexpanded items]
      exact none
    have stands : startsWord c.rest = true := by
      rwa [parts_nil_iff along.unexpanded items, Bool.not_eq_false] at none
    have reads : ∀ {g h : Cursor} {row : List Node}, row ≠ [] →
        Items (reading grammar) (wordPart false) g row h →
        Grammar.word.Reads g (.ofNodes .word row) h.pastBlanks := by
      intro g h row nonempty items
      obtain ⟨first, more, rfl⟩ := List.exists_cons_of_ne_nil nonempty
      simp only [Grammar.word, wordParts, Reads, gives_bind, gives_many]
      exact ⟨first :: more, h, items, by simp⟩
    exact lockstep_of_reads (reads none items) (reads other joined) level
      (alike_parts along items joined)
      (abreast_past_blanks (parts_along along (inside stands) items joined))

theorem agrees_call_word (here : Abreast .argument c d) :
    Agrees bound (Abreast .argument) Alike (call .word) (call .word) c d := by
  have noPair := abreast_no_pair here
  exact fun _ => word_lockstep here.toAlong noPair fun starts => uncut_word starts noPair here.uncut

-- The name of a loop, and what a choice is about, are followed by a reserved word.
theorem agrees_call_head_word (here : Abreast .head c d) :
    Agrees bound Twin Alike (call .word) (call .word) c d := by
  have noPair := abreast_no_pair here
  obtain ⟨next, asked, past⟩ := behind_head_word c.rest
  refine agrees_at (N := Abreast next) (fun _ => ?_) fun _ _ => .free asked
  exact word_lockstep here.toAlong noPair fun starts => past ▸ uncut_word starts noPair here.uncut

end Words

section Redirections

variable {bound : Nat} {role : Role} {c d : Cursor}

-- A redirection may stand among the words of a command.
def Passed (role : Role) (e f : Cursor) : Prop :=
  ∃ next, (next = role ∨ next ≠ .argument) ∧ Abreast next e f

theorem describes_iff {text : List Char} : (opening text).describes = true ↔ Describes text := by
  cases text with
  | nil => simp [opening, Describes]
  | cons ch others => cases digit : ch.isDigit <;> simp [opening, Describes, digit]

theorem reads_descriptor (describes : (opening c.rest).describes = true) :
    redirectedDescriptor.Reads c (.leaf .redirectedDescriptor (c.rest.takeWhile Char.isDigit))
      (c.advance (c.rest.takeWhile Char.isDigit).length) :=
  reads_descriptor_iff.mpr ⟨describes_iff.mp describes, rfl, rfl⟩

theorem rejects_descriptor (describes : (opening c.rest).describes = false) :
    redirectedDescriptor.Rejects c :=
  rejects_descriptor_iff.mpr (mt describes_iff.mpr (Bool.eq_false_iff.mp describes))

theorem level_descriptor : redirectedDescriptor.StaysLevel (reading grammar) c := by
  simp only [redirectedDescriptor, level_atomic, level_bind, level_take_while, true_and]
  intro digits e _
  split
  · exact level_refuse _ e
  · rw [level_look_bind]
    split <;> simp

theorem plain_of_digit (ch : Char) (digit : ch.isDigit = true) : isQuote ch = false ∧ isDelimiter ch = false :=
  plain_of_accepts (by decide) digit

theorem behind_descriptor (role : Role) {place : List Char} (describes : (opening place).describes = true) :
    ∃ next, (next = role ∨ next ≠ .argument) ∧
      (Position.mk role false).behindWord place = ⟨next, false⟩ := by
  by_cases argument : role = .argument
  · subst argument
    exact ⟨.argument, Or.inl rfl, rfl⟩
  · obtain ⟨next, asked, past⟩ := behind_leading_word argument place (by simp [describes])
    exact ⟨next, Or.inr asked, past⟩

theorem agrees_redirected_descriptor (here : Abreast role c d) :
    Agrees bound (Passed role) Alike redirectedDescriptor redirectedDescriptor c d := by
  have same := abreast_describes here
  cases describes : (opening c.rest).describes with
  | false =>
      exact agrees_of_rejects (rejects_descriptor describes) (rejects_descriptor (same.trans describes))
        level_descriptor
  | true =>
      obtain ⟨digits, operator⟩ := describes_iff.mp describes
      obtain ⟨next, passed, past⟩ := behind_descriptor role describes
      have behind := along_past_run here.toAlong plain_of_digit digits
      rw [past] at behind
      rw [← rest_advance_take_while] at operator
      have head : ∀ ch, (c.advance (c.rest.takeWhile Char.isDigit).length).rest.head? = some ch →
          ch = '<' ∨ ch = '>' := by
        intro ch here
        simpa [here] using operator
      have noPair : ¬ ['\\', '\n'] <+: (c.advance (c.rest.takeWhile Char.isDigit).length).rest := by
        rintro ⟨rest, whole⟩
        rcases head '\\' (by rw [← whole]; rfl) with impossible | impossible <;> cases impossible
      have same' : d.rest.takeWhile Char.isDigit = c.rest.takeWhile Char.isDigit := by
        refine take_while_along here.toAlong (fun ch digit => (plain_of_digit ch digit).1) fun ch starts => ?_
        rw [← rest_advance_take_while, head_join noPair] at starts
        rcases head ch starts with rfl | rfl <;> rfl
      have read := reads_descriptor (same.trans describes)
      rw [same'] at read
      refine agrees_of_reads (reads_descriptor describes) read level_descriptor (alike_refl _) ?_
      refine ⟨next, passed, along_again behind ?_, (idle_iff behind.uncommented).mpr
        ⟨noPair, fun ch here => ?_⟩⟩
      · obtain ⟨ch, starts⟩ :
            ∃ ch, (c.advance (c.rest.takeWhile Char.isDigit).length).rest.head? = some ch := by
          rcases operator with sign | sign <;> exact ⟨_, sign⟩
        obtain ⟨rest, whole⟩ := List.head?_eq_some_iff.mp starts
        have delimiter : isDelimiter ch = true := by rcases head ch starts with rfl | rfl <;> rfl
        rw [whole]
        exact uncut_at_delimiter delimiter (whole ▸ behind.uncut)
      · rcases head ch here with rfl | rfl <;> rfl

theorem reads_literal_among {before after : List (String × Kind)} {text : String} {kind : Kind}
    (missing : ∀ pair ∈ before, ¬ pair.1.toList <+: c.rest) (here : text.toList <+: c.rest) :
    (literalAmong (before ++ (text, kind) :: after)).Reads c kind (c.advance text.length) := by
  induction before with
  | nil => simp [literalAmong, here]
  | cons first others ih =>
      obtain ⟨absent, later⟩ := List.forall_mem_cons.mp missing
      simp only [List.cons_append, literalAmong, Reads, gives_or_else, fails_bind, fails_literal]
      exact Or.inr ⟨Or.inl absent, ih later⟩

theorem literal_among_both {operators : List (String × Kind)}
    (same : ∀ pair ∈ operators, (pair.1.toList <+: d.rest ↔ pair.1.toList <+: c.rest)) :
    (∃ text kind, (text, kind) ∈ operators ∧ text.toList <+: c.rest ∧
      (literalAmong operators).Reads c kind (c.advance text.length) ∧
      (literalAmong operators).Reads d kind (d.advance text.length)) ∨
    (literalAmong operators).Rejects c ∧ (literalAmong operators).Rejects d := by
  have both : ∀ {e f : Cursor} {kind : Kind} {behind : Cursor},
      (∀ pair ∈ operators, (pair.1.toList <+: f.rest ↔ pair.1.toList <+: e.rest)) →
      (literalAmong operators).Reads e kind behind → ∃ text, (text, kind) ∈ operators ∧
        text.toList <+: e.rest ∧ behind = e.advance text.length ∧
          (literalAmong operators).Reads f kind (f.advance text.length) := by
    intro e f kind behind same read
    obtain ⟨before, text, after, rfl, missing, here, rfl⟩ := gives_literal_among read
    refine ⟨text, by simp, here, rfl, reads_literal_among ?_ ?_⟩
    · exact fun pair member other => missing pair member ((same pair (by simp [member])).mp other)
    · exact (same (text, kind) (by simp)).mpr here
  rcases gives_or_fails (reading grammar) (literalAmong operators) c with ⟨kind, e, read⟩ | rejected
  · obtain ⟨text, member, here, rfl, other⟩ := both same read
    exact Or.inl ⟨text, kind, member, here, read, other⟩
  · rcases gives_or_fails (reading grammar) (literalAmong operators) d with ⟨kind, e, read⟩ | other
    · obtain ⟨text, -, -, -, given⟩ := both (fun pair member => (same pair member).symm) read
      exact absurd rejected (not_fails_of_gives given)
    · exact Or.inr ⟨rejected, other⟩

theorem redirection_operator_both (here : Abreast role c d) :
    ∀ pair ∈ redirectionOperators, (pair.1.toList <+: d.rest ↔ pair.1.toList <+: c.rest) := by
  have sorts : ∀ pair ∈ redirectionOperators,
      pair.1 ∈ longOperators ∨ pair.1 = "<" ∨ pair.1 = ">" := by decide
  intro pair member
  rcases sorts pair member with long | short | short
  · exact long_operator_abreast long here
  · rw [short]
    exact lone_abreast '<' here
  · rw [short]
    exact lone_abreast '>' here

theorem behind_sign {sign : Char} (signs : sign ∈ ['<', '>']) (p : Position) (rest : List Char) :
    p.behindDelimiter (sign :: rest) =
      ⟨if "<<-".toList.isPrefixOf (sign :: rest) then .head else p.role, true⟩ := by
  simp only [List.mem_cons, List.not_mem_nil, or_false] at signs
  rcases signs with rfl | rfl <;> rfl

theorem delimiter_of_sign {sign : Char} (signs : sign ∈ ['<', '>', '&', '|']) : isDelimiter sign = true := by
  have every : ∀ ch ∈ ['<', '>', '&', '|'], isDelimiter ch = true := by decide
  exact every sign signs

theorem uncut_behind_sign {target : Bool} {sign : Char} {rest : List Char} (signs : sign ∈ ['<', '>'])
    (uncut : Uncut ⟨role, target⟩ true (sign :: rest)) :
    ∃ next, (next = role ∨ next = .head) ∧ Uncut ⟨next, true⟩ true rest := by
  have among : ∀ ch ∈ ['<', '>'], ch ∈ ['<', '>', '&', '|'] := by decide
  have behind := uncut_delimiter (delimiter_of_sign (among sign signs)) uncut
  rw [behind_sign signs] at behind
  split at behind
  · exact ⟨.head, Or.inr rfl, behind⟩
  · exact ⟨role, Or.inl rfl, behind⟩

theorem uncut_behind_signs {chars rest : List Char} (signs : ∀ ch ∈ chars, ch ∈ ['<', '>', '&', '|'])
    (uncut : Uncut ⟨role, true⟩ true (chars ++ rest)) :
    ∃ next, (next = role ∨ next = .head) ∧ Uncut ⟨next, true⟩ true rest := by
  induction chars generalizing role with
  | nil => exact ⟨role, Or.inl rfl, uncut⟩
  | cons ch others ih =>
      obtain ⟨first, later⟩ := List.forall_mem_cons.mp signs
      have sorts : ch ∈ ['<', '>'] ∨ ch = '&' ∨ ch = '|' := by simpa [or_assoc] using first
      rcases sorts with sign | both
      · obtain ⟨next, passed, behind⟩ := uncut_behind_sign sign uncut
        obtain ⟨last, same, behind⟩ := ih later behind
        refine ⟨last, ?_, behind⟩
        rcases same with rfl | rfl
        · exact passed
        · exact Or.inr rfl
      · refine ih later ?_
        rcases both with rfl | rfl <;> exact uncut_delimiter rfl uncut

theorem uncut_behind_redirection {pair : String × Kind} {rest : List Char} (known : pair ∈ redirectionOperators)
    (uncut : Uncut ⟨role, false⟩ true (pair.1.toList ++ rest)) :
    (∃ next, (next = role ∨ next = .head) ∧ Uncut ⟨next, true⟩ true rest) ∨
      Uncut ⟨.head, false⟩ false rest := by
  have sorts : ∀ pair ∈ redirectionOperators, pair.1 = "<<-" ∨
      pair.1.toList.head?.any (· ∈ ['<', '>']) = true ∧
        ∀ ch ∈ pair.1.toList, ch ∈ ['<', '>', '&', '|'] := by decide
  rcases sorts pair known with stripped | ⟨first, signs⟩
  · rw [stripped] at uncut
    have first := uncut_delimiter rfl uncut
    have second := uncut_delimiter rfl first
    have third := uncut_char rfl rfl second
    exact Or.inr third
  · cases letters : pair.1.toList with
    | nil => simp [letters] at first
    | cons sign others =>
        rw [letters] at first signs uncut
        obtain ⟨next, passed, behind⟩ := uncut_behind_sign (by simpa using first) uncut
        obtain ⟨last, same, behind⟩ := uncut_behind_signs (List.forall_mem_cons.mp signs).2 behind
        refine Or.inl ⟨last, ?_, behind⟩
        rcases same with rfl | rfl
        · exact passed
        · exact Or.inr rfl

-- The target of a redirection is a word, whatever it looks like.
theorem target_lockstep {p : Position} {fresh : Bool} (idle : layoutLength false false c.rest = 0)
    (along : Along p fresh c d)
    (position : p = ⟨role, true⟩ ∧ fresh = true ∨ p = ⟨.head, false⟩) :
    Lockstep (Passed role) Alike (reading grammar .word c) (reading grammar .word d) := by
  have noPair := ((idle_iff along.uncommented).mp idle).1
  have passes : ∀ {next : Role}, (next = role ∨ next ≠ .argument) →
      (startsWord c.rest = true → Uncut ⟨next, false⟩ false (wordText c.rest).2) →
      Lockstep (Passed role) Alike (reading grammar .word c) (reading grammar .word d) := by
    intro next passed inside
    exact lockstep_at (word_lockstep along noPair inside) fun _ _ behind => ⟨next, passed, behind⟩
  rcases position with ⟨rfl, rfl⟩ | rfl
  · exact passes (Or.inl rfl) fun starts => uncut_word starts noPair along.uncut
  · cases fresh with
    | false => exact passes (Or.inr (by decide)) fun _ => uncut_word_inside along.uncut
    | true =>
        obtain ⟨next, asked, past⟩ := behind_head_word c.rest
        exact passes (Or.inr asked) fun starts => past ▸ uncut_word starts noPair along.uncut

theorem passed_on {next : Role} (passed : next = role ∨ next ≠ .argument) (later : Passed next c d) :
    Passed role c d := by
  obtain ⟨last, rfl | asked, here⟩ := later
  · exact ⟨last, passed, here⟩
  · exact ⟨last, Or.inr asked, here⟩

theorem target_behind_sign {text : String} {kind : Kind} (known : (text, kind) ∈ redirectionOperators)
    (bare : ∀ ch ∈ text.toList, isQuote ch = false) (stands : text.toList <+: c.rest)
    (here : Abreast role c d) :
    Lockstep (Passed role) Alike (reading grammar .word (c.advance text.length).pastBlanks)
      (reading grammar .word (d.advance text.length).pastBlanks) := by
  obtain ⟨rest, whole⟩ := id stands
  have uncut := here.uncut
  rw [← whole] at uncut
  rw [← String.length_toList]
  rcases uncut_behind_redirection known uncut with ⟨next, same, past⟩ | past
  · have passed : next = role ∨ next ≠ .argument := same.imp_right fun head => by simp [head]
    rw [← @List.drop_left _ text.toList rest, whole] at past
    obtain ⟨idle, both⟩ := along_behind_blanks (along_past_text here.toAlong bare stands past).2
    exact lockstep_at (target_lockstep idle (both.elim id And.left) (Or.inl ⟨rfl, rfl⟩)) fun _ _ =>
      passed_on passed
  · rw [← @List.drop_left _ text.toList rest, whole] at past
    obtain ⟨idle, free | ⟨inside, -⟩⟩ :=
      along_behind_blanks (along_past_text here.toAlong bare stands past).2
    · exact target_lockstep idle free (Or.inr rfl)
    · exact target_lockstep idle inside (Or.inr rfl)

theorem agrees_redirection (here : Abreast role c d) :
    Agrees bound (Passed role) Alike redirection redirection c d := by
  have start : Passed role c d := ⟨role, Or.inl rfl, here⟩
  refine agrees_bind (agrees_attempt start (agrees_redirected_descriptor here)) ?_
  rintro descriptor descriptor' e f described ⟨next, passed, behind⟩
  refine agrees_after (a := e.left) (b := f.left) (e := e) (f := f) rfl rfl trivial ?_
  rcases literal_among_both (redirection_operator_both behind) with
    ⟨text, kind, member, stands, read, read'⟩ | ⟨rejected, rejected'⟩
  · have shape : ∀ pair ∈ redirectionOperators, (∀ ch ∈ pair.1.toList, isQuote ch = false) ∧
        pair.2 ∉ [Kind.word, .simpleCommand] := by decide
    obtain ⟨bare, count⟩ := shape (text, kind) member
    have target := target_behind_sign member bare stands behind
    refine agrees_after read read' (level_literal_among ..) (agrees_blanks ?_)
    refine agrees_bind (fun _ => lockstep_at target fun _ _ => passed_on passed) ?_
    intro target target' g h inner last
    have operation : ∀ mark other : Option Nat,
        Alike ⟨kind, .ofNodes [target], mark⟩ ⟨kind, .ofNodes [target'], other⟩ := by
      intro mark other
      exact alike_of_contents count (by simp [inner.outline])
    refine agrees_pure (alike_of_nodes (by decide) ?_) last
    cases described with
    | none => exact .cons (operation _ _) .nil
    | some leaf => exact .cons leaf (.cons (operation _ _) .nil)
  · exact agrees_stop rejected rejected' (level_literal_among ..)

theorem agrees_call_redirection (here : Abreast role c d) :
    Agrees bound (Passed role) Alike (call .redirection) (call .redirection) c d := by
  intro _
  change Lockstep _ _ (reading grammar .redirection c) (reading grammar .redirection d)
  rw [reading_grammar, reading_grammar]
  exact agrees_redirection here (grammar_calls_under (reading_forward grammar) .redirection c)

theorem agrees_argument_redirection (here : Abreast .argument c d) :
    Agrees bound (Abreast .argument) Alike (call .redirection) (call .redirection) c d := by
  refine agrees_at (agrees_call_redirection here) ?_
  rintro _ _ ⟨_, _, behind⟩
  exact abreast_argument behind

theorem agrees_lead_redirection (twin : Twin c d) :
    Agrees bound Twin Alike (call .redirection) (call .redirection) c d := by
  cases twin with
  | free asked here =>
      refine agrees_at (agrees_call_redirection here) ?_
      rintro _ _ ⟨next, rfl | passed, behind⟩
      · exact .free asked behind
      · exact .free passed behind
  | halted here _ rejected =>
      refine agrees_told (agrees_call_redirection here) fun _ _ e _ read _ _ _ => ?_
      exact absurd rejected (not_fails_of_gives ((reads_call .redirection c e _).mp read))

end Redirections

section Assignments

variable {bound : Nat} {c d : Cursor}

theorem assigns_iff {text : List Char} : (opening text).assigns = true ↔
    text.head?.any startsName = true ∧ (text.dropWhile continuesName).head? = some '=' := by
  simp [opening]

theorem no_name_at_sign {text : List Char} (sign : text.head? = some '<' ∨ text.head? = some '>') :
    text.head?.any startsName = false := by
  rcases sign with sign | sign <;> rw [sign] <;> rfl

theorem agrees_assignment (twin : Twin c d) : Agrees bound Twin Alike assignment assignment c d := by
  refine agrees_atomic (agrees_name (twin_head twin) fun starts => ?_)
  have same := congrArg Opening.assigns (twin_opening twin)
  cases assigns : (opening c.rest).assigns with
  | false =>
      have noEquals : ∀ e : Cursor, (opening e.rest).assigns = false → e.rest.head?.any startsName = true →
          (literal "=").Rejects (e.advance (e.rest.takeWhile continuesName).length) := by
        intro e plain named
        rw [Rejects, fails_literal, rest_advance_take_while]
        intro equals
        cases plain.symm.trans (assigns_iff.mpr ⟨named, lone_start_iff.mp equals⟩)
      exact agrees_stop (noEquals c assigns starts)
        (noEquals d (same.trans assigns) (by rwa [twin_head twin])) (level_literal _ _)
  | true =>
      obtain ⟨role, asked, here⟩ : ∃ role, role ≠ .argument ∧ Abreast role c d := by
        cases twin with
        | free asked here => exact ⟨_, asked, here⟩
        | halted _ sign => cases starts.symm.trans (no_name_at_sign sign)
      obtain ⟨next, asked, past⟩ := behind_leading_word asked c.rest (Or.inr (Or.inr (Or.inl assigns)))
      obtain ⟨-, equals⟩ := assigns_iff.mp assigns
      have chars : d.rest.takeWhile continuesName = c.rest.takeWhile continuesName := by
        refine take_while_along here.toAlong (fun ch name => (plain_of_name ch name).1) fun ch joined => ?_
        rw [head_join (by rintro ⟨rest, whole⟩; simp [← whole] at equals), equals] at joined
        cases joined
        rfl
      have behind := along_past_run here.toAlong plain_of_name (name_ne_nil starts)
      rw [past] at behind
      rw [← rest_advance_take_while] at equals
      rw [chars]
      obtain ⟨rest, whole⟩ := List.head?_eq_some_iff.mp equals
      have inside : Uncut ⟨next, false⟩ false
          ((c.advance (c.rest.takeWhile continuesName).length).rest.drop 1) := by
        have uncut := behind.uncut
        rw [whole] at uncut ⊢
        exact uncut_char rfl rfl uncut
      obtain ⟨otherEquals, past⟩ :=
        along_past_text behind (by simp [isQuote]) (lone_start_iff.mpr equals) inside
      obtain ⟨parts, e, items⟩ := items_exist (reading grammar) (wordPart false) _
      obtain ⟨others, f, joined⟩ := items_exist (reading grammar) (wordPart false) _
      have value := alike_parts past items joined
      refine agrees_after ((gives_literal _ _ _ ()).mpr ⟨lone_start_iff.mpr equals, rfl⟩)
        ((gives_literal _ _ _ ()).mpr ⟨otherEquals, rfl⟩) (level_literal _ _) ?_
      refine agrees_after ((gives_many _ _ _ _).mpr items) ((gives_many _ _ _ _).mpr joined)
        (level_word_parts (unexpanded_joined past)) (agrees_blanks ?_)
      refine agrees_pure (alike_of_contents (by decide) ?_)
        (.free asked (abreast_past_blanks (parts_along past (uncut_word_inside past.uncut) items joined)))
      simp [value.outline]

end Assignments

end ShellLine.Lines
