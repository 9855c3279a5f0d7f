import ShellLine.Proofs.Canonical.Compound
import ShellLine.Proofs.Canonical.Trees
import ShellLine.Proofs.Grammar.Alone

set_option autoImplicit false

namespace ShellLine.Canonical

open ShellLine.Parser Grammar

-- A part of a command is read back in front of everything that can stand behind it.
def ReadsBack {form : Form} (phrase : Phrase form) : Prop :=
  match form, phrase with
  | .command, command => ∀ more, EndsCommand more →
      (call .command).Reads (place (command.tokens ++ more)) command.meaning (place more)
  | .compound, inner => ∀ more, Unclosed more →
      compoundCommand.Reads (place (inner.tokens ++ more)) inner.meaning (place more)
  | .stages, stages => ∀ more, Leads pipelineEnds more →
      Items (reading grammar) nextStage (place (stages.tokens ++ more)) stages.meaning (place more)
  | .pipeline, pipeline => ∀ more, Leads pipelineEnds more →
      Grammar.pipeline.Reads (place (pipeline.tokens ++ more)) pipeline.meaning (place more)
  | .links, links => ∀ more, Leads chainEnds more →
      Items (reading grammar) andOrLink (place (links.tokens ++ more)) links.meaning (place more)
  | .chain, chain => ∀ more, Leads chainEnds more →
      (call .andOr).Reads (place (chain.tokens ++ more)) chain.meaning (place more)
  | .list lines, list => ∀ more, Leads listEnds more →
      Turns (reading grammar) (Grammar.term lines) (place (list.tokens ++ more)) list.meaning
        (place more)
  | .alternative, alternative => ReadsAlternative alternative
  | .items, items => ∀ more, Unclosed more →
      Turns (reading grammar) caseTurn (place (items.tokens ++ sign "esac" esac_starts_token :: more))
        items.meaning (place (sign "esac" esac_starts_token :: more))

section Ends

variable {more : List Token}

theorem leads_mono {texts others : List String} (subset : texts ⊆ others) (leads : Leads texts more) :
    Leads others more := fun token first => subset (leads token first)

theorem leads_append {texts : List String} {tokens : List Token} (leads : Leads texts tokens)
    (behind : tokens = [] → Leads texts more) : Leads texts (tokens ++ more) := by
  cases tokens with
  | nil => exact behind rfl
  | cons token others => exact leads

theorem ends_of_stages (stages : Phrase .stages) (leads : Leads pipelineEnds more) :
    EndsCommand (stages.tokens ++ more) where
  leads := by
    have behind : Leads commandEnds more := leads_mono (List.subset_cons_self _ _) leads
    apply leads_append _ (fun _ => behind)
    cases stages with
    | lastStage => exact fun _ first => nomatch first
    | stage next others => exact leads_sign (by decide) _
  unclosed := unclosed_stages stages (unclosed_of_leads leads)

theorem ends_of_links (links : Phrase .links) (leads : Leads chainEnds more) :
    Leads pipelineEnds (links.tokens ++ more) := by
  have behind : Leads pipelineEnds more := leads_mono (List.subset_append_right _ _) leads
  apply leads_append _ (fun _ => behind)
  cases links with
  | lastLink => exact fun _ first => nomatch first
  | link connective next others => cases connective <;> exact leads_sign (by decide) _

theorem ending_leads {lines : Bool} (ending : Ending lines) (more : List Token) :
    Leads chainEnds (ending.token :: more) := by
  cases ending with
  | semicolon | background | newline => exact leads_sign (by decide +revert) _

theorem same_line_of_leads (leads : Leads listEnds more) : SameLine more :=
  head_ne_of_leads leads (by decide +kernel)

theorem items_same_line (items : Phrase .items) : SameLine (items.tokens ++ sign "esac" :: more) := by
  cases items with
  | lastItem | emptyItem | item =>
      change (spaced (_ :: _)).head? ≠ _
      rw [spaced_head]
      decide

theorem place_left_append (tokens more : List Token) :
    (place more).left ≤ (place (tokens ++ more)).left := by
  induction tokens with
  | nil => exact Nat.le_refl _
  | cons token others ih => exact Nat.le_trans ih (Nat.le_of_lt (place_left_lt _ _))

theorem place_left_lt_append {barred : List Char} {tokens : List Token} (opens : Opens barred tokens)
    (more : List Token) : (place more).left < (place (tokens ++ more)).left := by
  obtain ⟨token, others, -, rfl, -, -⟩ := opens
  exact Nat.lt_of_le_of_lt (place_left_append others more) (place_left_lt _ _)

end Ends

section Constructors

theorem list_meaning_nonempty {lines : Bool} (list : Phrase (.list lines)) : list.meaning ≠ [] := by
  cases list <;> exact List.cons_ne_nil _ _

theorem reads_body {body : Phrase (.list true)} (read : ReadsBack body) : ReadsBody body := by
  intro more leads
  have sameLine : SameLine (body.tokens ++ more) :=
    same_line_of_opens (opens_append (list_opens body) more)
  rw [compoundList, Reads, gives_nested]
  refine reads_atomic (reads_bind (reads_same_line sameLine) ?_)
  exact reads_term_list (list_meaning_nonempty body) (read more leads)

theorem term_turns {lines : Bool} {first : Phrase .chain} (ending : Ending lines)
    {more behind : List Token} {terms : List Node} (firstRead : ReadsBack first)
    (sameLine : SameLine more)
    (turns : Turns (reading grammar) (Grammar.term lines) (place more) terms (place behind)) :
    Turns (reading grammar) (Grammar.term lines) (place (first.tokens ++ ending.token :: more))
      (ending.wrap first.meaning :: terms) (place behind) := by
  have read := reads_term ending (firstRead _ (ending_leads ending more)) sameLine
  have progress := place_left_lt_append (chain_opens first) (ending.token :: more)
  exact .more read (Nat.lt_trans (place_left_lt _ _) progress) turns

theorem item_turns (first : Quoted) (patterns : List Quoted) {behind more last : List Token}
    {tried : Option Node} {items : List Node}
    (body : (attempt compoundList).Reads (place behind) tried (place (sign ";;" :: more)))
    (sameLine : SameLine more)
    (turns : Turns (reading grammar) caseTurn (place more) items (place last)) :
    Turns (reading grammar) caseTurn (place (patternTokens first patterns ++ behind))
      (itemNode (first :: patterns) tried.toList :: items) (place last) := by
  have read := reads_item first patterns body sameLine
  refine .more (reads_bind (reads_tried read) (reads_pure _ _)) ?_ turns
  have opens : Opens commandBars (patternTokens first patterns) := ⟨_, _, '(', rfl, rfl, by decide⟩
  have started := place_left_lt_append opens behind
  have ended := place_left_lt (sign ";;") more
  have moved := reads_left_le body
  omega

theorem phrase_reads_back {form : Form} (phrase : Phrase form) : ReadsBack phrase := by
  induction phrase with
  | simple first others => exact fun more ends => reads_simple first others (at_sign_of_ends ends.leads)
  | grouped inner innerRead =>
      exact fun more ends => reads_grouped inner (innerRead more ends.unclosed) (at_sign_of_ends ends.leads)
  | function name body bodyRead =>
      exact fun more ends => reads_function name body (bodyRead more ends.unclosed) (at_sign_of_ends ends.leads)
  | lastStage => exact fun more leads => .stop (rejects_stage leads)
  | stage next others nextRead othersRead =>
      intro more leads
      have read := reads_stage next (nextRead _ (ends_of_stages others leads))
      have progress := Nat.lt_trans (place_left_lt_append (command_opens next) (others.tokens ++ more))
        (place_left_lt (sign "|") _)
      simp only [Phrase.tokens, List.cons_append, List.append_assoc]
      exact Items.more read progress (othersRead more leads)
  | pipeline negated first others firstRead othersRead =>
      intro more leads
      have read := firstRead _ (ends_of_stages others leads)
      simp only [Phrase.tokens, List.append_assoc]
      exact reads_pipeline negated first read (othersRead more leads)
  | lastLink => exact fun more leads => .stop (rejects_link leads)
  | link connective next others nextRead othersRead =>
      intro more leads
      have read := reads_link connective next (nextRead _ (ends_of_links others leads))
      have progress := Nat.lt_trans (place_left_lt_append (pipeline_opens next) (others.tokens ++ more))
        (place_left_lt connective.token _)
      simp only [Phrase.tokens, List.cons_append, List.append_assoc]
      exact Items.more read progress (othersRead more leads)
  | chain first links firstRead linksRead =>
      intro more leads
      have read := firstRead _ (ends_of_links links leads)
      simp only [Phrase.tokens, List.append_assoc]
      exact reads_chain read (linksRead more leads)
  | lastTerm only ending onlyRead =>
      intro more leads
      simp only [Phrase.tokens, List.cons_append, List.append_assoc, List.nil_append]
      exact term_turns ending onlyRead (same_line_of_leads leads) (.stop (stops_at_end _ (halts_of_leads leads)))
  | term first ending others firstRead othersRead =>
      intro more leads
      have sameLine : SameLine (others.tokens ++ more) :=
        same_line_of_opens (opens_append (list_opens others) more)
      simp only [Phrase.tokens, List.cons_append, List.append_assoc]
      exact term_turns ending firstRead sameLine (othersRead more leads)
  | subshell body bodyRead => exact fun more _ => reads_subshell body (reads_body bodyRead)
  | braceGroup body bodyRead => exact fun more _ => reads_brace_group body (reads_body bodyRead)
  | ifChoice condition consequent alternative conditionRead consequentRead alternativeRead =>
      exact fun more _ => reads_if_choice condition consequent alternative (reads_body conditionRead)
        (reads_body consequentRead) alternativeRead
  | loop repeated condition body conditionRead bodyRead =>
      exact fun more _ => reads_loop repeated condition body (reads_body conditionRead) (reads_body bodyRead)
  | forLoop parameter words body bodyRead =>
      exact fun more _ => reads_for_loop parameter words body (reads_body bodyRead)
  | caseChoice subject items itemsRead =>
      exact fun more unclosed =>
        reads_case_choice subject items (itemsRead more unclosed) (items_same_line items)
  | noAlternative => exact reads_no_alternative
  | otherwise body bodyRead => exact reads_otherwise body (reads_body bodyRead)
  | elseIf condition consequent alternative conditionRead consequentRead alternativeRead =>
      exact reads_else_if condition consequent alternative (reads_body conditionRead)
        (reads_body consequentRead) alternativeRead
  | lastItem =>
      intro more unclosed
      exact .stop (reads_bind (reads_missed (rejects_item_at_end unclosed)) (reads_pure _ _))
  | emptyItem first patterns others othersRead =>
      intro more unclosed
      have none := reads_missed (no_body (others.tokens ++ sign "esac" :: more))
      simp only [Phrase.tokens, List.cons_append, List.append_assoc]
      exact item_turns first patterns none (items_same_line others) (othersRead more unclosed)
  | item first patterns body others bodyRead othersRead =>
      intro more unclosed
      have read := reads_tried (reads_body bodyRead (sign ";;" :: (others.tokens ++ sign "esac" :: more))
        (leads_sign (by decide) _))
      simp only [Phrase.tokens, List.cons_append, List.append_assoc]
      exact item_turns first patterns read (items_same_line others) (othersRead more unclosed)

end Constructors

section Scripts

theorem script_reads_back (script : Script) :
    ∃ d, Grammar.program.Reads (.start script.text) script.tree d ∧ d.rest = [] := by
  have idle : ∀ tokens, SameLine tokens → (place tokens).pastBlanks.pastBreak = place tokens := by
    intro tokens sameLine
    rw [past_blanks_place, past_break_place sameLine]
  have nothing : ∀ texts, Leads texts [] := fun texts token first => nomatch first
  cases script with
  | chain only =>
      have read := phrase_reads_back only [] (nothing _)
      rw [List.append_nil] at read
      exact ⟨place [], chain_is_program (idle _ (same_line_of_opens (chain_opens only))) read rfl, rfl⟩
  | list terms =>
      have turns := phrase_reads_back terms [] (nothing _)
      rw [List.append_nil] at turns
      have read := reads_term_list (list_meaning_nonempty terms) turns
      exact ⟨place [], list_is_program (idle _ (same_line_of_opens (list_opens terms))) read rfl, rfl⟩

/-- Without limits the text of every abstract command is parsed, to the tree the command stands for. -/
theorem canonical_text_parses (style : ErrorStyle) (script : Script) :
    parse { Config.unlimited with errorStyle := style } (String.ofList script.text) = .ok script.tree := by
  obtain ⟨d, read, whole⟩ := script_reads_back script
  exact parse_of_reads style script.text script.tree d read whole (no_here_document script)

end Scripts

end ShellLine.Canonical
