import ShellLine.Proofs.Closure.Text
import ShellLine.Proofs.Grammar.Progress
import ShellLine.Proofs.Shape.Stuck
import ShellLine.Proofs.Tree.Marks

set_option autoImplicit false

namespace ShellLine.Closure

open ShellLine.Parser Grammar

variable {c d : Cursor} {text : List Char}

section Ends

-- Behind a pipeline no stage follows, and behind a chain no link.
structure EndsPipeline (text : List Char) : Prop where
  halts : Halts text
  noBar : ¬ standsAlone '|' text

structure EndsChain (text : List Char) : Prop extends EndsPipeline text where
  noBoth : ¬ "&&".toList <+: text
  noEither : ¬ "||".toList <+: text

-- Behind a list something follows that is no separator; a newline separates only if lines do.
structure EndsList (lines : Bool) (text : List Char) : Prop where
  remains : text ≠ []
  halts : Halts text
  noOperator : ∀ ch ∈ ['&', '|'], text.head? ≠ some ch
  noSemicolon : ¬ standsAlone ';' text
  noNewline : lines = true → text.head? ≠ some '\n'

theorem ends_chain_of_head {ch : Char} (head : text.head? = some ch) (halts : Halts text)
    (other : ch ∉ ['&', '|'] ∨ ch = '&' ∧ standsAlone '&' text) : EndsChain text := by
  have noBar : ch ≠ '|' := by
    rintro rfl
    simp at other
  have starts : ∀ {first second : Char}, [first, second] <+: text → first = ch ∧ text.tail.head? = some second := by
    rintro first second ⟨rest, rfl⟩
    exact ⟨Option.some.inj head, rfl⟩
  refine ⟨⟨halts, fun alone => noBar (Option.some.inj (head.symm.trans alone.1))⟩, ?_, ?_⟩
  · intro both
    obtain ⟨rfl, second⟩ := @starts '&' '&' both
    rcases other with none | ⟨-, alone⟩
    · simp at none
    · exact alone.2 second
  · exact fun either => noBar (@starts '|' '|' either).1.symm

theorem ends_chain_at_end (whole : text = []) : EndsChain text := by
  subst whole
  exact ⟨⟨Or.inl rfl, by simp [standsAlone]⟩, by simp, by simp⟩

theorem EndsList.chain {lines : Bool} (ends : EndsList lines text) : EndsChain text := by
  obtain ⟨ch, others, rfl⟩ := List.exists_cons_of_ne_nil ends.remains
  exact ends_chain_of_head rfl ends.halts (Or.inl fun operator => ends.noOperator ch operator rfl)

theorem remains_of_head {ch : Char} (head : text.head? = some ch) : text ≠ [] := by
  rintro rfl
  cases head

theorem halts_of_head {ch : Char} (head : text.head? = some ch)
    (sign : ch ∈ ['\n', ')', ';', '&', '|']) : Halts text := by
  rw [Halts, head]
  exact Or.inl (by simpa using sign)

theorem solid_start_of_closing {word : String} (closing : word ∈ closingWords)
    (read : (keyword word).Reads c () d) : String.ofList (solidStart c.rest) ∈ closingWords := by
  have solid : ∀ ch ∈ word.toList, isDelimiter ch = false :=
    reserved_words_solid word ((by decide : ∀ word ∈ closingWords, word ∈ reservedWords) word closing)
  have here := (starts_reserved_iff solid).mp ((gives_keyword word c d ()).mp read).1
  exact here ▸ closing

theorem halts_closed (halts : Halts text) : Halts (text ++ [')']) := by
  rcases halts with sign | closing
  · cases text with
    | nil => exact Or.inl rfl
    | cons ch others => exact Or.inl sign
  · exact Or.inr (by rwa [solid_start_closed])

theorem head_of_keyword {word : String} (nonempty : word.toList ≠ []) (read : (keyword word).Reads c () d) :
    c.rest.head? = word.toList.head? :=
  head_of_start (starts_of_starts_reserved _ _ ((gives_keyword word c d ()).mp read).1) nonempty

theorem ends_list_of_head {lines : Bool} {ch : Char} (head : text.head? = some ch) (halts : Halts text)
    (other : ch ∉ ['&', '|', ';', '\n']) : EndsList lines text := by
  have different : ∀ {sign : Char}, sign ∈ ['&', '|', ';', '\n'] → text.head? ≠ some sign := by
    intro sign listed same
    cases head.symm.trans same
    exact other listed
  refine ⟨remains_of_head head, halts, fun ch operator => different ?_,
    fun alone => different (by decide) alone.1, fun _ => different (by decide)⟩
  exact (by decide : ∀ ch ∈ ['&', '|'], ch ∈ ['&', '|', ';', '\n']) ch operator

theorem ends_list_of_keyword {lines : Bool} {word : String} (closing : word ∈ closingWords)
    (read : (keyword word).Reads c () d) : EndsList lines c.rest := by
  have here := solid_start_of_closing closing read
  obtain ⟨ch, head, other⟩ := head_of_solid_word (· ∉ ['&', '|', ';', '\n']) (by decide +kernel) here
  exact ends_list_of_head head (Or.inr here) (by simpa using other)

theorem ends_list_of_paren {lines : Bool} (here : ")".toList <+: text) : EndsList lines text := by
  have head := head_of_start here (by decide)
  exact ends_list_of_head head (halts_of_head head (by decide)) (by decide)

theorem ends_list_of_break (head : text.head? = some '\n') : EndsList false text := by
  have different : ∀ {ch : Char}, ch ≠ '\n' → text.head? ≠ some ch := by
    intro ch other same
    exact other (Option.some.inj (same.symm.trans head))
  refine ⟨remains_of_head head, halts_of_head head (by decide), fun ch operator => different ?_,
    fun alone => different (by decide) alone.1, nofun⟩
  exact (by decide : ∀ ch ∈ ['&', '|'], ch ≠ '\n') ch operator

theorem ends_list_of_item_end {lines : Bool} (here : ";;".toList <+: text) : EndsList lines text := by
  have head := head_of_start here (by decide)
  have different : ∀ {ch : Char}, ch ≠ ';' → text.head? ≠ some ch := by
    intro ch other same
    exact other (Option.some.inj (same.symm.trans head))
  refine ⟨remains_of_head head, halts_of_head head (by decide), fun ch operator => different ?_,
    fun alone => ?_, fun _ => different (by decide)⟩
  · exact (by decide : ∀ ch ∈ ['&', '|'], ch ≠ ';') ch operator
  · obtain ⟨rest, rfl⟩ := here
    exact alone.2 rfl

theorem not_stuck_of_halts (halts : Halts c.rest) : ¬ Stuck c := by
  intro stuck
  obtain ⟨ch, head, quoting⟩ := (Option.any_eq_true _ _).mp stuck.quoting
  have listed : ch ∈ ['$', backtick, '\\', '"', '\''] := by simpa [isQuoting] using quoting
  rcases halts with sign | closing
  · rw [head] at sign
    have known := (by decide : ∀ ch ∈ ['\n', ')', ';', '&', '|'], isQuoting ch = false) ch (by simpa using sign)
    cases known.symm.trans quoting
  · obtain ⟨first, here, plain⟩ := head_of_solid_word (fun ch => !isQuoting ch) (by decide +kernel) closing
    cases here.symm.trans head
    simp [quoting] at plain

end Ends

section Repetitions

variable {α β : Type} {P : Cursor → Prop}

theorem items_closed_from {Q : Cursor → Prop} {item : Parser α} {other : Parser β} {shift : α → β}
    {values : List α}
    (each : ∀ e value f, Q e → item.Reads e value f → P f →
      other.Reads (closed e) (shift value) (closed f) ∧ P e)
    (passes : ∀ e value f, Q e → item.Reads e value f → Q f)
    (stops : item.Rejects d → other.Rejects (closed d)) (starts : Q c) (ends : P d)
    (items : Items (reading grammar) item c values d) :
    Items (reading grammar) other (closed c) (values.map shift) (closed d) ∧ P c := by
  induction items with
  | stop failed => exact ⟨.stop (stops failed), ends⟩
  | halt given stays =>
      obtain ⟨read, here⟩ := each _ _ _ starts given ends
      exact ⟨.halt read fun progress => stays (closed_left_lt.mp progress), here⟩
  | @more c e _ value _ given progress _ ih =>
      obtain ⟨others, later⟩ := ih stops (passes c value e starts given) ends
      obtain ⟨read, here⟩ := each c value e starts given later
      exact ⟨.more read (closed_left_lt.mpr progress) others, here⟩

theorem items_closed {item : Parser α} {other : Parser β} {shift : α → β} {values : List α}
    (each : ∀ e value f, e.rest <:+ c.rest → item.Reads e value f → P f →
      other.Reads (closed e) (shift value) (closed f) ∧ P e)
    (stops : item.Rejects d → other.Rejects (closed d)) (ends : P d)
    (items : Items (reading grammar) item c values d) :
    Items (reading grammar) other (closed c) (values.map shift) (closed d) ∧ P c :=
  items_closed_from each (fun _ _ _ suffix read => (reads_forward read).trans suffix) stops
    (List.suffix_refl _) ends items

def mapTurn (shift : α → β) : Turn α → Turn β
  | .more value => .more (shift value)
  | .last value => .last (shift value)
  | .stop => .stop

theorem turns_closed {turn : Parser (Turn α)} {other : Parser (Turn β)} {shift : α → β} {values : List α}
    (moves : ∀ e value f, turn.Reads e (.more value) f → f.left < e.left)
    (goes : ∀ e value f, e.rest <:+ c.rest → turn.Reads e (.more value) f → P f →
      other.Reads (closed e) (.more (shift value)) (closed f) ∧ P e)
    (ends : ∀ e next, e.rest <:+ c.rest → turn.Reads e next d → (∀ value, next ≠ .more value) →
      other.Reads (closed e) (mapTurn shift next) (closed d) ∧ P e)
    (turns : Turns (reading grammar) turn c values d) :
    Turns (reading grammar) other (closed c) (values.map shift) (closed d) ∧ P c := by
  induction turns with
  | stop given =>
      obtain ⟨read, here⟩ := ends _ _ (List.suffix_refl _) given nofun
      exact ⟨.stop read, here⟩
  | last given =>
      obtain ⟨read, here⟩ := ends _ _ (List.suffix_refl _) given nofun
      exact ⟨.last read, here⟩
  | halt given stays => exact absurd (moves _ _ _ given) stays
  | @more c e _ value _ given progress _ ih =>
      have behind : e.rest <:+ c.rest := reads_forward given
      obtain ⟨others, later⟩ := ih (fun f value g suffix => goes f value g (suffix.trans behind))
        (fun f next suffix => ends f next (suffix.trans behind))
      obtain ⟨read, here⟩ := goes c value e (List.suffix_refl _) given later
      exact ⟨.more read (closed_left_lt.mpr progress) others, here⟩

end Repetitions

section Choices

abbrev linkOperator : Parser Kind := (do operator "&&"; return .andIf) <|> (do operator "||"; return .orIf)

-- Further patterns that could be read at a place are not cut short, nor is one more behind them.
def PatternsWhole (c : Cursor) : Prop :=
  ∀ values d, Items (reading grammar) nextPattern c values d →
    ¬ Stuck d ∧ ∀ e, (loneOperator '|').Reads d () e → ¬ Stuck e

-- Further patterns do not come to the end of the text, where the parenthesis would stand behind them.
def PatternsLeave (c : Cursor) : Prop :=
  ∀ values d, Items (reading grammar) nextPattern c values d → d.rest ≠ []

abbrev choiceStart : Parser Node := do
  keyword "case"
  let subject ← call .word
  lineBreak
  keyword "in"
  lineBreak
  return subject

abbrev endedItem : Parser Node := do
  match ← caseItem with
  | .more item => return item
  | _ => fail

-- A choice that may go on with one more item: it has none, or the last one is ended by `;;`.
def OpenChoice (c d : Cursor) : Prop :=
  ∃ subject e items f, choiceStart.Reads c subject e ∧ Items (reading grammar) endedItem e items f ∧
    caseItem.Rejects f ∧ (keyword "esac").Reads f () d

abbrev functionHead : Parser (List Char) := do
  if reservedAhead (← look) then fail
  else
    let chars ← name
    blanks
    operator "("
    operator ")"
    lineBreak
    return chars

def BodyStarts (c d : Cursor) : Prop := c = d ∨ ∃ chars, functionHead.Reads c chars d

def ChoiceLeaves (c : Cursor) : Prop := ∀ d, OpenChoice c d → PatternsLeave d

def CommandLeaves (c : Cursor) : Prop := ∀ d, BodyStarts c d → ChoiceLeaves d

-- The places where the commands of a line start.
inductive CommandStarts : Cursor → Cursor → Prop
  | here {c : Cursor} : CommandStarts c c
  | bang {c d e : Cursor} (opened : (keyword "!").Reads c () d) (later : CommandStarts d e) :
      CommandStarts c e
  | stage {c d e f : Cursor} {node : Node} (command : (call .command).Reads c node d)
      (bar : (loneOperator '|').Reads d () e) (later : CommandStarts e.pastBreak f) : CommandStarts c f
  | link {c d e f : Cursor} {node : Node} {kind : Kind} (piped : pipeline.Reads c node d)
      (joined : linkOperator.Reads d kind e) (later : CommandStarts e.pastBreak f) : CommandStarts c f
  | term {c d e f : Cursor} {node : Node} {kind : Separator} (chain : (call .andOr).Reads c node d)
      (separated : (separator false).Reads d kind e) (later : CommandStarts e f) : CommandStarts c f

def LineLeaves (c : Cursor) : Prop := ∀ d, CommandStarts c d → CommandLeaves d

end Choices

section Carried

-- What may stand behind what a rule reads from one place to another.
def Behind : Rule → Cursor → Cursor → Prop
  | .word, _, d | .redirection, _, d => ¬ Stuck d
  | .operand, _, d => d.rest.head? = some '\x7d'
  | .command, c, d => Halts d.rest ∧ PatternsWhole d ∧ CommandLeaves c
  | .andOr, c, d => EndsChain d.rest ∧ (d.rest = [] → LineLeaves c)
  | .conditional, _, d => String.ofList (solidStart d.rest) = "fi"

-- What a rule reads from a place is read from there in the closed text too.
def Carried (rule : Rule) (c : Cursor) : Prop :=
  ∀ node d, (call rule).Reads c node d → Behind rule c d →
    (call rule).Reads (closed c) node.shifted (closed d)

-- A text that can be closed, all rules further on being carried over to the closed text.
structure Known (c : Cursor) : Prop where
  uncommented : '#' ∉ c.rest
  carried : ∀ rule e, e.rest <:+ c.rest → e.left < c.left → Carried rule e

theorem Known.behind (known : Known c) (behind : d.rest <:+ c.rest) : Known d where
  uncommented := uncommented_behind known.uncommented behind
  carried := by
    intro rule e suffix earlier
    have passed := Cursor.left_le_of_suffix d c behind
    exact known.carried rule e (suffix.trans behind) (Nat.lt_of_lt_of_le earlier passed)

theorem Known.past {α : Type} {p : Parser α} {value : α} (known : Known c) (read : p.Reads c value d) :
    Known d := known.behind (reads_forward read)

end Carried

end ShellLine.Closure
