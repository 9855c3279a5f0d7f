import ShellLine.Proofs.Canonical.Tokens
import ShellLine.Proofs.Shape.Stuck

set_option autoImplicit false

namespace ShellLine.Canonical

open ShellLine.Parser Grammar

def chainEnds : List String := [";", "&", "\n"]

def pipelineEnds : List String := ["&&", "||"] ++ chainEnds

def commandEnds : List String := "|" :: pipelineEnds

def listEnds : List String :=
  [")", "\x7d", "then", "else", "elif", "fi", "do", "done", ";;"]

-- The words of a row and the bars between them do not end at a closing parenthesis, as patterns would.
def Unclosed (tokens : List Token) : Prop :=
  ∀ values d, Items (reading grammar) nextPattern (place tokens) values d → ¬ ")".toList <+: d.rest

section Starts

def partBars : List Char := ['\n', ')', ';', '&', '|']

def commandBars : List Char := '!' :: partBars

def Opens (barred : List Char) (tokens : List Token) : Prop :=
  ∃ token others ch, tokens = token :: others ∧ token.chars.head? = some ch ∧ ch ∉ barred

theorem opens_append {barred : List Char} {tokens : List Token} (opens : Opens barred tokens)
    (more : List Token) : Opens barred (tokens ++ more) := by
  obtain ⟨token, others, ch, rfl, head, free⟩ := opens
  exact ⟨token, others ++ more, ch, rfl, head, free⟩

theorem opens_head {barred : List Char} {tokens : List Token} (opens : Opens barred tokens) {ch : Char}
    (bar : ch ∈ barred) : (spaced tokens).head? ≠ some ch := by
  obtain ⟨token, others, first, rfl, head, free⟩ := opens
  rw [spaced_head, head]
  rintro ⟨rfl⟩
  exact free bar

theorem name_opens (name : Name) (more : List Token) : Opens commandBars (name.token :: more) := by
  obtain ⟨ch, head, starts⟩ := (Option.any_eq_true _ _).mp name.starts
  refine ⟨_, _, ch, rfl, head, fun bar => ?_⟩
  cases starts.symm.trans ((by decide : ∀ ch ∈ commandBars, startsName ch = false) ch bar)

theorem compound_opens (inner : Phrase .compound) : Opens commandBars inner.tokens := by
  cases inner with
  | loop repeated condition body => cases repeated <;> exact ⟨_, _, _, rfl, rfl, by decide⟩
  | subshell | braceGroup | ifChoice | forLoop | caseChoice => exact ⟨_, _, _, rfl, rfl, by decide⟩

theorem command_opens (command : Phrase .command) : Opens commandBars command.tokens := by
  cases command with
  | simple first others => exact ⟨_, _, _, rfl, rfl, by decide⟩
  | grouped inner => exact compound_opens inner
  | function name body => exact name_opens name.toName _

theorem part_of_command_opens {tokens : List Token} (opens : Opens commandBars tokens) :
    Opens partBars tokens := by
  obtain ⟨token, others, ch, here, head, free⟩ := opens
  exact ⟨token, others, ch, here, head, fun bar => free (List.mem_cons_of_mem _ bar)⟩

theorem pipeline_opens (pipeline : Phrase .pipeline) : Opens partBars pipeline.tokens := by
  cases pipeline with
  | pipeline negated first others =>
      cases negated with
      | true => exact ⟨_, _, _, rfl, rfl, by decide⟩
      | false => exact opens_append (part_of_command_opens (command_opens first)) _

theorem chain_opens (chain : Phrase .chain) : Opens partBars chain.tokens := by
  cases chain with
  | chain first links => exact opens_append (pipeline_opens first) _

theorem list_opens {lines : Bool} (list : Phrase (.list lines)) : Opens partBars list.tokens := by
  cases list with
  | lastTerm only ending => exact opens_append (chain_opens only) _
  | term first ending others => exact opens_append (chain_opens first) _

theorem same_line_of_opens {tokens : List Token} (opens : Opens partBars tokens) : SameLine tokens :=
  opens_head opens (by decide)

end Starts

section Patterns

variable {more : List Token}

theorem unclosed_of_rejects (rejected : nextPattern.Rejects (place more))
    (noParen : (spaced more).head? ≠ some ')') : Unclosed more := by
  intro values d items closed
  cases items with
  | stop _ => exact noParen (head_of_start closed (by decide))
  | halt given _ => exact not_fails_of_gives given rejected
  | more given _ _ => exact not_fails_of_gives given rejected

theorem no_pattern_without_bar (noBar : (loneOperator '|').Rejects (place more)) :
    nextPattern.Rejects (place more) := (fails_bind _ _ _).mpr (Or.inl noBar)

theorem unclosed_of_opens (opens : Opens partBars more) : Unclosed more := by
  have noBar := rejects_lone (not_alone_of_head (opens_head opens (by decide : '|' ∈ partBars)))
  exact unclosed_of_rejects (no_pattern_without_bar noBar) (opens_head opens (by decide))

theorem unclosed_of_leads (leads : Leads pipelineEnds more) : Unclosed more := by
  have noBar : (loneOperator '|').Rejects (place more) := rejects_lone_of_leads leads (by decide)
  exact unclosed_of_rejects (no_pattern_without_bar noBar) (head_ne_of_leads leads (by decide))

theorem unclosed_bar {token : Token} {word : Node}
    (read : (call .word).Reads (place (token :: more)) word (place more)) (unclosed : Unclosed more) :
    Unclosed (sign "|" :: token :: more) := by
  have next : nextPattern.Reads (place (sign "|" :: token :: more)) word (place more) :=
    reads_bind (reads_lone rfl (by decide)) read
  intro values d items closed
  cases items with
  | stop failed => exact not_fails_of_gives next failed
  | halt given stays =>
      obtain ⟨-, rfl⟩ := gives_unique given next
      have first := place_left_lt (sign "|") (token :: more)
      have second := place_left_lt token more
      omega
  | more given _ others =>
      obtain ⟨-, rfl⟩ := gives_unique given next
      exact unclosed _ d others closed

theorem unclosed_bar_alone {token : Token} (noWord : (call .word).Rejects (place (token :: more))) :
    Unclosed (sign "|" :: token :: more) := by
  apply unclosed_of_rejects
  · rw [Rejects, fails_bind]
    exact Or.inr ⟨(), _, reads_lone rfl (by decide), noWord⟩
  · rw [spaced_head]
    decide

theorem reads_plain_token {token : Token} (plain : token.chars.all (fun ch => !isWordBreak false ch) = true)
    (more : List Token) : ∃ word, (call .word).Reads (place (token :: more)) word (place more) :=
  ⟨_, reads_bare (by simpa using plain) more⟩

theorem name_plain (name : Name) : name.token.chars.all (fun ch => !isWordBreak false ch) = true := by
  rw [List.all_eq_true]
  intro ch member
  have continues := name.continues ch member
  have quoting := not_quoting_of_continues continues
  simp_all [isWordBreak, isQuoting, continues_solid]

theorem unclosed_compound (inner : Phrase .compound) (more : List Token) :
    Unclosed (sign "|" :: (inner.tokens ++ more)) := by
  have bar : ∀ (token : Token) (others : List Token), Opens partBars others →
      token.chars.all (fun ch => !isWordBreak false ch) = true →
      Unclosed (sign "|" :: token :: others) := by
    intro token others opens plain
    obtain ⟨word, read⟩ := reads_plain_token plain others
    exact unclosed_bar read (unclosed_of_opens opens)
  cases inner <;> simp only [Phrase.tokens, List.cons_append, List.append_assoc]
  case subshell body =>
      apply unclosed_bar_alone
      apply rejects_word_at_delimiter
      rw [place_rest, spaced_head]
      rfl
  case braceGroup body => exact bar _ _ (opens_append (list_opens body) _) (by decide)
  case ifChoice condition consequent alternative =>
      exact bar _ _ (opens_append (list_opens condition) _) (by decide)
  case loop repeated condition body =>
      cases repeated <;> exact bar _ _ (opens_append (list_opens condition) _) (by decide)
  case forLoop parameter words body =>
      exact bar _ _ (part_of_command_opens (name_opens parameter _)) (by decide)
  case caseChoice subject items => exact bar _ _ ⟨_, _, _, rfl, rfl, by decide⟩ (by decide)

theorem unclosed_stages (stages : Phrase .stages) (unclosed : Unclosed more) :
    Unclosed (stages.tokens ++ more) := by
  cases stages with
  | lastStage => exact unclosed
  | stage next others =>
      have behind := unclosed_stages others unclosed
      simp only [Phrase.tokens, List.cons_append, List.append_assoc]
      cases next with
      | grouped inner => exact unclosed_compound inner _
      | function name body =>
          obtain ⟨word, read⟩ := reads_plain_token (name_plain name.toName) _
          exact unclosed_bar read (unclosed_of_opens ⟨_, _, _, rfl, rfl, by decide⟩)
      | simple first words =>
          rw [Phrase.tokens, List.cons_append]
          refine unclosed_bar (reads_quoted first _) ?_
          cases words with
          | nil => exact behind
          | cons second more => exact unclosed_of_opens ⟨_, _, _, rfl, rfl, by decide⟩

end Patterns

end ShellLine.Canonical
