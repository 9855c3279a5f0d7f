import ShellLine.Proofs.Canonical.Commands

set_option autoImplicit false

namespace ShellLine.Canonical

open ShellLine.Parser Grammar

variable {more : List Token}

-- A list is read back inside a compound command, up to what closes it.
def ReadsBody (body : Phrase (.list true)) : Prop :=
  ∀ more, Leads listEnds more →
    compoundList.Reads (place (body.tokens ++ more)) (listNode body.meaning) (place more)

theorem leads_sign {texts : List String} {token : Token} (known : String.ofList token.chars ∈ texts)
    (more : List Token) : Leads texts (token :: more) := by
  rintro first ⟨rfl⟩
  exact known

section Groups

theorem reads_subshell (body : Phrase (.list true)) (bodyRead : ReadsBody body) :
    compoundCommand.Reads (place ((Phrase.subshell body).tokens ++ more))
      (Phrase.subshell body).meaning (place more) := by
  simp only [Phrase.tokens, List.cons_append, List.append_assoc]
  rw [compoundCommand, Reads, gives_look_bind, place_rest, spaced_head]
  refine reads_atomic (reads_bind (reads_operator rfl) (reads_bind (bodyRead _ ?_) ?_))
  · exact leads_sign (by decide) _
  · exact reads_bind (reads_operator rfl) (reads_pure _ _)

theorem reads_brace_group (body : Phrase (.list true)) (bodyRead : ReadsBody body) :
    compoundCommand.Reads (place ((Phrase.braceGroup body).tokens ++ more))
      (Phrase.braceGroup body).meaning (place more) := by
  simp only [Phrase.tokens, List.cons_append, List.append_assoc]
  rw [compoundCommand, Reads, gives_look_bind, place_rest, spaced_head]
  refine reads_atomic (reads_bind (reads_keyword (by decide) rfl) (reads_bind (bodyRead _ ?_) ?_))
  · exact leads_sign (by decide) _
  · exact reads_bind (reads_keyword (by decide) rfl) (reads_pure _ _)

theorem reads_do_group (body : Phrase (.list true)) (bodyRead : ReadsBody body) (more : List Token) :
    doGroup.Reads (place (sign "do" :: (body.tokens ++ sign "done" :: more)))
      (.wrap .loopBody (listNode body.meaning)) (place more) := by
  refine reads_atomic (reads_bind (reads_keyword (by decide) rfl) (reads_bind (bodyRead _ ?_) ?_))
  · exact leads_sign (by decide) _
  · exact reads_bind (reads_keyword (by decide) rfl) (reads_pure _ _)

theorem reads_loop (repeated : Repeat) (condition body : Phrase (.list true))
    (conditionRead : ReadsBody condition) (bodyRead : ReadsBody body) :
    compoundCommand.Reads (place ((Phrase.loop repeated condition body).tokens ++ more))
      (Phrase.loop repeated condition body).meaning (place more) := by
  have loop : ∀ word ∈ ["until", "while"], ∀ token : Token, token.chars = word.toList → ∀ kind,
      (loopClause word kind).Reads
        (place (token :: (condition.tokens ++ sign "do" :: (body.tokens ++ sign "done" :: more))))
        (.ofNodes kind [.wrap .condition (listNode condition.meaning),
          .wrap .loopBody (listNode body.meaning)]) (place more) := by
    intro word known token same kind
    have reserved := (by decide : ∀ word ∈ ["until", "while"], word ∈ reservedWords) word known
    refine reads_atomic (reads_bind (reads_keyword reserved same) (reads_bind (conditionRead _ ?_) ?_))
    · exact leads_sign (by decide) _
    · exact reads_bind (reads_do_group body bodyRead more) (reads_pure _ _)
  simp only [Phrase.tokens, List.cons_append, List.append_assoc, List.nil_append]
  rw [compoundCommand, Reads, gives_look_bind, place_rest, spaced_head]
  cases repeated with
  | untilDone => exact loop "until" (by decide) _ rfl _
  | whileDone => exact loop "while" (by decide) _ rfl _

theorem reads_for_loop (parameter : Name) (words : List Quoted) (body : Phrase (.list true))
    (bodyRead : ReadsBody body) :
    compoundCommand.Reads (place ((Phrase.forLoop parameter words body).tokens ++ more))
      (Phrase.forLoop parameter words body).meaning (place more) := by
  have inside : inClause.Reads
      (place (sign "in" :: (words.map Quoted.token ++ sign ";" :: sign "do" ::
        (body.tokens ++ sign "done" :: more))))
      (.ofNodes .inWords (words.map Quoted.node))
      (place (sign "do" :: (body.tokens ++ sign "done" :: more))) := by
    refine reads_bind (reads_same_line ?_) (reads_bind (reads_keyword (by decide) rfl) ?_)
    · rw [SameLine, spaced_head]
      decide
    · refine reads_bind (reads_many (reads_words words ?_)) (reads_bind (a := ()) (reads_first ?_) (reads_pure _ _))
      · apply rejects_word_at_delimiter
        rw [place_rest, spaced_head]
        rfl
      · refine reads_bind (reads_lone rfl (by decide)) (reads_same_line ?_)
        rw [SameLine, spaced_head]
        decide
  simp only [Phrase.tokens, List.cons_append, List.append_assoc, List.nil_append]
  rw [compoundCommand, Reads, gives_look_bind, place_rest, spaced_head]
  refine reads_atomic (reads_bind (reads_keyword (by decide) rfl) (reads_bind (reads_name parameter _) ?_))
  refine reads_bind (reads_gap _) (reads_bind (reads_tried inside) ?_)
  exact reads_bind (reads_do_group body bodyRead more) (reads_pure _ _)

end Groups

section Choices

def ReadsAlternative (alternative : Phrase .alternative) : Prop :=
  ∀ more, Leads ["fi"] more → ∃ tried, (attempt elsePart).Reads (place (alternative.tokens ++ more))
    tried (place more) ∧ tried.toList = alternative.meaning

theorem alternative_leads (alternative : Phrase .alternative) (ends : Leads ["fi"] more) :
    Leads listEnds (alternative.tokens ++ more) := by
  cases alternative with
  | noAlternative =>
      intro token first
      obtain known := List.mem_singleton.mp (ends token first)
      rw [known]
      decide
  | otherwise | elseIf => exact leads_sign (by decide) _

theorem reads_conditional (condition consequent : Phrase (.list true))
    (alternative : Phrase .alternative) (conditionRead : ReadsBody condition)
    (consequentRead : ReadsBody consequent) (alternativeRead : ReadsAlternative alternative)
    (ends : Leads ["fi"] more) :
    (call .conditional).Reads
      (place (condition.tokens ++ sign "then" :: (consequent.tokens ++ (alternative.tokens ++ more))))
      (choiceNode (listNode condition.meaning) (listNode consequent.meaning) alternative.meaning)
      (place more) := by
  obtain ⟨tried, read, nodes⟩ := alternativeRead more ends
  rw [reads_call, ← nodes]
  refine reads_bind (conditionRead _ (leads_sign (by decide) _)) ?_
  refine reads_bind (reads_keyword (by decide) rfl) ?_
  refine reads_bind (consequentRead _ (alternative_leads alternative ends)) ?_
  exact reads_bind read (reads_pure _ _)

theorem reads_if_choice (condition consequent : Phrase (.list true))
    (alternative : Phrase .alternative) (conditionRead : ReadsBody condition)
    (consequentRead : ReadsBody consequent) (alternativeRead : ReadsAlternative alternative) :
    compoundCommand.Reads (place ((Phrase.ifChoice condition consequent alternative).tokens ++ more))
      (Phrase.ifChoice condition consequent alternative).meaning (place more) := by
  simp only [Phrase.tokens, List.cons_append, List.append_assoc, List.nil_append]
  rw [compoundCommand, Reads, gives_look_bind, place_rest, spaced_head]
  have ends : Leads ["fi"] (sign "fi" :: more) := leads_sign (by decide) more
  have choice := reads_conditional condition consequent alternative conditionRead consequentRead
    alternativeRead ends
  refine reads_atomic (reads_bind (reads_keyword (by decide) rfl) (reads_bind choice ?_))
  exact reads_bind (reads_keyword (by decide) rfl) (reads_pure _ _)

theorem reads_no_alternative : ReadsAlternative .noAlternative := by
  intro more ends
  refine ⟨none, reads_missed ?_, rfl⟩
  have other : ∀ word ∈ ["elif", "else"], (keyword word).Rejects (place more) := by
    intro word known
    obtain ⟨reserved, different⟩ := (by decide : ∀ word ∈ ["elif", "else"],
      word ∈ reservedWords ∧ ∀ lead ∈ ["fi"], lead ∈ reservedWords ∧ lead ≠ word) word known
    exact rejects_keyword_of_leads ends reserved different
  rw [elsePart, Rejects, fails_atomic, fails_attempt_bind]
  refine Or.inr ⟨other _ (by decide), ?_⟩
  exact (fails_bind _ _ _).mpr (Or.inl (other _ (by decide)))

theorem reads_otherwise (body : Phrase (.list true)) (bodyRead : ReadsBody body) :
    ReadsAlternative (.otherwise body) := by
  intro more ends
  refine ⟨some _, reads_tried ?_, rfl⟩
  have noElse : (keyword "elif").Rejects (place (sign "else" :: (body.tokens ++ more))) :=
    rejects_keyword_of_leads (leads_sign (List.mem_singleton_self _) _) (by decide) (by decide)
  rw [elsePart, Reads, gives_atomic]
  refine reads_bind (reads_missed noElse) (reads_bind (reads_keyword (by decide) rfl) ?_)
  exact reads_bind (bodyRead more (alternative_leads .noAlternative ends)) (reads_pure _ _)

theorem reads_else_if (condition consequent : Phrase (.list true))
    (alternative : Phrase .alternative) (conditionRead : ReadsBody condition)
    (consequentRead : ReadsBody consequent) (alternativeRead : ReadsAlternative alternative) :
    ReadsAlternative (.elseIf condition consequent alternative) := by
  intro more ends
  refine ⟨some _, reads_tried ?_, rfl⟩
  simp only [Phrase.tokens, List.cons_append, List.append_assoc]
  have choice := reads_conditional condition consequent alternative conditionRead consequentRead
    alternativeRead ends
  rw [elsePart, Reads, gives_atomic]
  exact reads_bind (reads_tried (reads_keyword (by decide) rfl)) (reads_bind choice (reads_pure _ _))

end Choices

section Items

abbrev caseTurn : Parser (Turn Node) := do
  match ← attempt caseItem with
  | some item => return item
  | none => return .stop

theorem reads_patterns (patterns : List Quoted) (more : List Token) :
    Items (reading grammar) nextPattern
      (place (patterns.flatMap (fun word => [sign "|", word.token]) ++ sign ")" :: more))
      (patterns.map Quoted.node) (place (sign ")" :: more)) := by
  induction patterns with
  | nil =>
      refine .stop (no_pattern_without_bar (rejects_lone (not_alone_of_head ?_)))
      rw [List.flatMap_nil, List.nil_append, spaced_head]
      decide
  | cons word others ih =>
      refine .more (reads_bind (reads_lone rfl (by decide)) (reads_quoted word _)) ?_ ih
      have first := place_left_lt (sign "|") (word.token ::
        (others.flatMap (fun word => [sign "|", word.token]) ++ sign ")" :: more))
      have second := place_left_lt word.token
        (others.flatMap (fun word => [sign "|", word.token]) ++ sign ")" :: more)
      exact Nat.lt_trans second first

theorem reads_item (first : Quoted) (patterns : List Quoted) {behind : List Token} {tried : Option Node}
    (body : (attempt compoundList).Reads (place behind) tried (place (sign ";;" :: more)))
    (sameLine : SameLine more) :
    caseItem.Reads (place (patternTokens first patterns ++ behind))
      (.more (itemNode (first :: patterns) tried.toList)) (place more) := by
  have noBreak : SameLine (sign ";;" :: more) := by
    rw [SameLine, spaced_head]
    decide
  have opened : (optional (operator "(")).Reads (place (patternTokens first patterns ++ behind)) ()
      (place (first.token :: (patterns.flatMap (fun word => [sign "|", word.token]) ++
        sign ")" :: behind))) := by
    rw [Reads, gives_optional]
    refine Or.inl ⟨(), ?_⟩
    simpa only [patternTokens, List.cons_append, List.append_assoc, List.nil_append] using
      reads_operator rfl
  have ended : (attempt (operator ";;")).Reads (place (sign ";;" :: more)) (some ()) (place more) :=
    reads_tried (reads_operator rfl)
  refine reads_atomic (reads_bind opened (reads_bind (reads_quoted first _) ?_))
  refine reads_bind (reads_many (reads_patterns patterns behind)) (reads_bind (reads_operator rfl) ?_)
  refine reads_bind body ?_
  cases tried with
  | some inner => exact reads_bind ended (reads_bind (reads_same_line sameLine) (reads_pure _ _))
  | none =>
      refine reads_bind (reads_same_line noBreak) ?_
      exact reads_bind ended (reads_bind (reads_same_line sameLine) (reads_pure _ _))

theorem no_body (more : List Token) : compoundList.Rejects (place (sign ";;" :: more)) := by
  have halts : Halts (spaced (sign ";;" :: more)) :=
    halts_of_leads (leads_sign (by decide) more)
  have sameLine : SameLine (sign ";;" :: more) := by
    rw [SameLine, spaced_head]
    decide
  rw [compoundList, Rejects, fails_nested, fails_atomic, fails_bind]
  refine Or.inr ⟨(), _, reads_same_line sameLine, ?_⟩
  rw [termList, fails_bind]
  exact Or.inr ⟨[], _, reads_rounds (.stop (stops_at_end true halts)), fails_fail _⟩

theorem rejects_item_at_end (unclosed : Unclosed more) : caseItem.Rejects (place (sign "esac" :: more)) := by
  have noParen : (operator "(").Rejects (place (sign "esac" :: more)) := by
    apply rejects_operator _ (by decide)
    rw [spaced_head]
    decide
  have opened : (optional (operator "(")).Reads (place (sign "esac" :: more)) () (place (sign "esac" :: more)) :=
    (gives_optional _ _ _ _).mpr (Or.inr ⟨noParen, rfl⟩)
  have plain : (sign "esac").chars.all (fun ch => !isWordBreak false ch) = true := by decide
  obtain ⟨word, read⟩ := reads_plain_token plain more
  obtain ⟨values, d, items⟩ := items_exist (reading grammar) nextPattern (place more)
  rw [caseItem, Rejects, fails_atomic, fails_bind]
  refine Or.inr ⟨(), _, opened, ?_⟩
  rw [fails_bind]
  refine Or.inr ⟨word, _, read, ?_⟩
  rw [fails_bind]
  refine Or.inr ⟨values, d, reads_many items, ?_⟩
  rw [fails_bind]
  exact Or.inl ((fails_operator _ _).mpr (unclosed values d items))

theorem reads_case_choice (subject : Quoted) (items : Phrase .items)
    (itemsRead : Turns (reading grammar) caseTurn (place (items.tokens ++ sign "esac" :: more))
      items.meaning (place (sign "esac" :: more))) (sameLine : SameLine (items.tokens ++ sign "esac" :: more)) :
    compoundCommand.Reads (place ((Phrase.caseChoice subject items).tokens ++ more))
      (Phrase.caseChoice subject items).meaning (place more) := by
  have inside : SameLine (sign "in" :: (items.tokens ++ sign "esac" :: more)) := by
    rw [SameLine, spaced_head]
    decide
  simp only [Phrase.tokens, List.cons_append, List.append_assoc, List.nil_append]
  rw [compoundCommand, Reads, gives_look_bind, place_rest, spaced_head]
  refine reads_atomic (reads_bind (reads_keyword (by decide) rfl) (reads_bind (reads_quoted subject _) ?_))
  refine reads_bind (reads_same_line inside) (reads_bind (reads_keyword (by decide) rfl) ?_)
  refine reads_bind (reads_same_line sameLine) (reads_bind (reads_rounds itemsRead) ?_)
  exact reads_bind (reads_keyword (by decide) rfl) (reads_pure _ _)

end Items

end ShellLine.Canonical
