import ShellLine.Proofs.Analysis.Unquote
import ShellLine.Proofs.Grammar.Alone
import ShellLine.Proofs.Grammar.Written

set_option autoImplicit false

namespace ShellLine.Quoting

open ShellLine.Parser Grammar

-- A text and the way it is quoted. Only a plain run depends on what it holds and what is around it.
inductive Piece
  | single (chars : List Char) (closed : '\'' ∉ chars)
  | double (chars : List Char)
  | escape (ch : Char) (sameLine : ch ≠ '\n')
  | plain (chars : List Char) (nonempty : chars ≠ [])
      (unbroken : ∀ ch ∈ chars, isWordBreak false ch = false)

namespace Piece

def text : Piece → List Char
  | single chars _ | double chars | plain chars _ _ => chars
  | escape ch _ => [ch]

def written : Piece → List Char
  | single chars _ => '\'' :: chars ++ ['\'']
  | double chars => '"' :: chars.flatMap writeDouble ++ ['"']
  | escape ch _ => ['\\', ch]
  | plain chars _ _ => chars

def isSingle : Piece → Bool
  | single .. => true
  | _ => false

def isPlain : Piece → Bool
  | plain .. => true
  | _ => false

-- Whether a word that starts with the piece would be a comment.
def opensComment : Piece → Bool
  | plain chars _ _ => chars.head? = some '#'
  | _ => false

end Piece

structure QuotedWord where
  first : Piece
  others : List Piece

namespace QuotedWord

def pieces (word : QuotedWord) : List Piece := word.first :: word.others

def text (word : QuotedWord) : List Char := word.pieces.flatMap Piece.text

def written (word : QuotedWord) : List Char := word.pieces.flatMap Piece.written

end QuotedWord

def writeLine (words : List QuotedWord) : List Char := [' '].intercalate (words.map QuotedWord.written)

def EndsWord (rest : List Char) : Prop := ∀ ch, rest.head? = some ch → ch = ' '

section Pieces

variable {rest : List Char}

theorem written_starts {piece : Piece} (quoted : piece.isPlain = false) (behind : List Char) :
    ∃ ch, (piece.written ++ behind).head? = some ch ∧ ch ∈ ['\'', '"', '\\'] := by
  cases piece with
  | single chars closed => exact ⟨'\'', rfl, by decide⟩
  | double chars => exact ⟨'"', rfl, by decide⟩
  | escape ch sameLine => exact ⟨'\\', rfl, by decide⟩
  | plain chars nonempty unbroken => cases quoted

theorem reads_piece (piece : Piece) (rest : List Char)
    (ends : piece.isPlain = true → ∀ ch, rest.head? = some ch → isWordBreak false ch = true) :
    ∃ part, (wordPart false).Reads (.start (piece.written ++ rest)) part (.start rest) ∧
      unquotePart? (.node part) = some piece.text := by
  cases piece with
  | single chars closed =>
      refine ⟨.leaf .singleQuote chars, ?_, rfl⟩
      simpa [Piece.written] using reads_single closed rest
  | double chars =>
      obtain ⟨part, read, text⟩ := reads_double chars rest
      refine ⟨part, ?_, text⟩
      simpa [Piece.written] using read
  | escape ch sameLine => exact ⟨.leaf .bareEscape [ch], reads_escape sameLine rest, rfl⟩
  | plain chars nonempty unbroken =>
      exact ⟨.leaf .unquotedLiteral chars, reads_plain nonempty unbroken (ends rfl), rfl⟩

theorem written_nonempty (piece : Piece) : piece.written ≠ [] := by
  cases piece with
  | plain chars nonempty unbroken => exact nonempty
  | single | double | escape => exact List.cons_ne_nil _ _

theorem rejects_part_at_end (ended : EndsWord rest) : (wordPart false).Rejects (.start rest) := by
  cases rest with
  | nil => simp [wordPart, unquotedLiteral]
  | cons ch others =>
      obtain rfl := ended ch rfl
      simp [wordPart, unquotedLiteral, isWordBreak, isDelimiter]

theorem reads_pending {pending text : List Char} {parts : List Node} {texts : List (List Char)}
    (unbroken : ∀ ch ∈ pending, isWordBreak false ch = false)
    (ends : ∀ ch, text.head? = some ch → isWordBreak false ch = true)
    (items : Items (reading grammar) (wordPart false) (.start text) parts (.start rest))
    (each : List.Forall₂ (fun part text => unquotePart? (.node part) = some text) parts texts) :
    ∃ parts' texts', Items (reading grammar) (wordPart false) (.start (pending ++ text)) parts'
        (.start rest) ∧
      List.Forall₂ (fun part text => unquotePart? (.node part) = some text) parts' texts' ∧
      texts'.flatten = pending ++ texts.flatten := by
  by_cases empty : pending = []
  · subst empty
    exact ⟨parts, texts, items, each, rfl⟩
  · refine ⟨.leaf .unquotedLiteral pending :: parts, pending :: texts, ?_, .cons rfl each, rfl⟩
    exact .more (reads_plain empty unbroken ends) (Cursor.left_lt_of_passed _ _ _ empty rfl) items

-- Plain runs that meet are one part, so one that was begun is carried along.
theorem reads_pieces (pieces : List Piece) (ended : EndsWord rest) (pending : List Char)
    (unbroken : ∀ ch ∈ pending, isWordBreak false ch = false) :
    ∃ parts texts, Items (reading grammar) (wordPart false)
        (.start (pending ++ (pieces.flatMap Piece.written ++ rest))) parts (.start rest) ∧
      List.Forall₂ (fun part text => unquotePart? (.node part) = some text) parts texts ∧
      texts.flatten = pending ++ pieces.flatMap Piece.text := by
  induction pieces generalizing pending with
  | nil =>
      have atEnd : Items (reading grammar) (wordPart false) (.start rest) [] (.start rest) :=
        .stop (rejects_part_at_end ended)
      refine reads_pending unbroken (fun ch head => ?_) atEnd .nil
      rw [ended ch head]
      rfl
  | cons piece others ih =>
      cases plain : piece.isPlain with
      | true =>
          cases piece with
          | single | double | escape => cases plain
          | plain chars nonempty unbroken' =>
              have joined : ∀ ch ∈ pending ++ chars, isWordBreak false ch = false := fun ch member =>
                (List.mem_append.mp member).elim (unbroken ch) (unbroken' ch)
              simpa [Piece.written, Piece.text] using ih (pending ++ chars) joined
      | false =>
          obtain ⟨parts, texts, items, each, whole⟩ := ih [] (by simp)
          obtain ⟨part, read, text⟩ := reads_piece piece
            (others.flatMap Piece.written ++ rest) (by simp [plain])
          have moves := Cursor.left_lt_of_passed
            (.start (piece.written ++ (others.flatMap Piece.written ++ rest)))
            (.start (others.flatMap Piece.written ++ rest)) piece.written
            (written_nonempty piece) rfl
          have starts : ∀ ch, (piece.written ++ (others.flatMap Piece.written ++ rest)).head? = some ch →
              isWordBreak false ch = true := by
            intro ch head
            obtain ⟨first, here, quote⟩ := written_starts plain (others.flatMap Piece.written ++ rest)
            obtain rfl := Option.some.inj (here.symm.trans head)
            exact (by decide : ∀ quote ∈ ['\'', '"', '\\'], isWordBreak false quote = true) _ quote
          have both := reads_pending unbroken starts (.more read moves items) (.cons text each)
          simpa [whole] using both

theorem digits_redirect_nothing (pieces : List Piece) (ended : EndsWord rest) :
    ∀ ch, ((pieces.flatMap Piece.written ++ rest).dropWhile Char.isDigit).head? = some ch →
      ch ≠ '<' ∧ ch ≠ '>' := by
  induction pieces with
  | nil =>
      intro ch head
      cases rest with
      | nil => cases head
      | cons first others =>
          obtain rfl := ended first rfl
          obtain rfl : ' ' = ch := by simpa [List.dropWhile_cons_of_neg] using head
          decide
  | cons piece others ih =>
      intro ch head
      rw [List.flatMap_cons, List.append_assoc] at head
      cases plain : piece.isPlain with
      | false =>
          obtain ⟨first, here, quote⟩ := written_starts plain (others.flatMap Piece.written ++ rest)
          obtain ⟨behind, whole⟩ := List.head?_eq_some_iff.mp here
          have noDigit : ∀ quote ∈ ['\'', '"', '\\'], quote.isDigit = false ∧ quote ≠ '<' ∧ quote ≠ '>' := by
            decide
          obtain ⟨digit, noInput, noOutput⟩ := noDigit first quote
          rw [whole, List.dropWhile_cons_of_neg (by simp [digit])] at head
          obtain rfl := Option.some.inj head
          exact ⟨noInput, noOutput⟩
      | true =>
          cases piece with
          | single | double | escape => cases plain
          | plain chars nonempty unbroken =>
              rw [Piece.written, List.dropWhile_append] at head
              split at head
              · exact ih ch head
              · rename_i remains
                rw [List.head?_append_of_ne_nil _ (by simpa using remains)] at head
                have member := (List.dropWhile_suffix Char.isDigit).subset (List.mem_of_head? head)
                have unbrokenHere := unbroken ch member
                constructor <;> rintro rfl <;> exact absurd unbrokenHere (by decide)

end Pieces

section Lines

variable {rest : List Char}

theorem reads_quoted_word (word : QuotedWord) (ended : EndsWord rest) :
    ∃ node, Grammar.word.Reads (.start (word.written ++ rest)) node (Cursor.start rest).pastBlanks ∧
      node.unquote? = some (String.ofList word.text) := by
  obtain ⟨parts, texts, items, each, whole⟩ := reads_pieces word.pieces ended [] (by simp)
  rw [List.nil_append] at items whole
  refine ⟨.ofNodes .word parts, ?_, ?_⟩
  · cases parts with
    | nil =>
        have same : word.pieces.flatMap Piece.written ++ rest = rest :=
          congrArg Cursor.rest (items_nil items)
        rw [List.append_left_eq_self, QuotedWord.pieces, List.flatMap_cons, List.append_eq_nil_iff] at same
        exact absurd same.1 (written_nonempty word.first)
    | cons first others =>
        simp only [Grammar.word, wordParts, Reads, gives_bind, gives_many]
        exact ⟨first :: others, .start rest, items, by simp⟩
  · rw [unquote_of_parts each, whole]
    rfl

theorem written_idle (word : QuotedWord) (noComment : word.first.opensComment = false)
    (rest : List Char) : layoutLength false false (word.written ++ rest) = 0 := by
  obtain ⟨first, others⟩ := word
  cases first with
  | single chars closed => rfl
  | double chars => rfl
  | escape ch sameLine =>
      by_contra blanks
      obtain ⟨behind, here | here | here | here⟩ := blanks_start blanks
      all_goals simp [QuotedWord.written, QuotedWord.pieces, Piece.written, sameLine] at here
  | plain chars nonempty unbroken =>
      obtain ⟨ch, more, rfl⟩ := List.exists_cons_of_ne_nil nonempty
      have plain := unbroken ch (List.mem_cons_self ..)
      by_contra blanks
      obtain ⟨behind, here | here | here | here⟩ := blanks_start blanks
      all_goals
        obtain ⟨rfl, -⟩ : ch = _ ∧ _ := by
          simpa [QuotedWord.written, QuotedWord.pieces, Piece.written] using here
        first
          | exact absurd plain (by decide)
          | simp [Piece.opensComment] at noComment

def writeArguments (words : List QuotedWord) : List Char := words.flatMap fun word => ' ' :: word.written

theorem write_line_cons (first : QuotedWord) (others : List QuotedWord) :
    writeLine (first :: others) = first.written ++ writeArguments others := by
  induction others generalizing first with
  | nil => simp [writeLine, writeArguments]
  | cons second more ih =>
      have rest := ih second
      simp only [writeLine, List.map_cons] at rest ⊢
      rw [List.intercalate_cons_cons, rest]
      simp [writeArguments]

theorem ends_word_arguments (words : List QuotedWord) : EndsWord (writeArguments words) := by
  intro ch head
  cases words with
  | nil => cases head
  | cons word others => exact (Option.some.inj head).symm

theorem past_blanks_argument (word : QuotedWord) (noComment : word.first.opensComment = false)
    (rest : List Char) :
    (Cursor.start (' ' :: (word.written ++ rest))).pastBlanks = .start (word.written ++ rest) := by
  have one : layoutLength false false (' ' :: (word.written ++ rest)) = 1 := by
    rw [layoutLength, written_idle word noComment rest]
  rw [Cursor.pastBlanks, Cursor.rest_start, one, Cursor.advance_start_one]

theorem reads_argument_word (word : QuotedWord) (ended : EndsWord rest) :
    ∃ node, argumentItem.Reads (.start (word.written ++ rest)) node (Cursor.start rest).pastBlanks ∧
      node.kind = .word ∧ node.unquote? = some (String.ofList word.text) := by
  obtain ⟨node, read, text⟩ := reads_quoted_word word ended
  refine ⟨node, ?_, word_kind read, text⟩
  rw [argumentItem, Reads, gives_or_else]
  refine Or.inr ⟨(rejects_call _ _).mpr ?_, (reads_call _ _ _ _).mpr read⟩
  exact rejects_redirection (digits_redirect_nothing word.pieces ended)

theorem reads_arguments (words : List QuotedWord)
    (noComment : ∀ word ∈ words, word.first.opensComment = false) :
    ∃ nodes, Items (reading grammar) argumentItem (Cursor.start (writeArguments words)).pastBlanks
        nodes (.start []) ∧
      (∀ node ∈ nodes, node.kind = .word) ∧
      nodes.mapM Node.unquote? = some (words.map fun word => String.ofList word.text) := by
  induction words with
  | nil =>
      refine ⟨[], .stop ?_, by simp, rfl⟩
      change argumentItem.Rejects (.start [])
      simp only [argumentItem, Rejects, fails_or_else]
      exact ⟨(rejects_call _ _).mpr (rejects_redirection (by simp)),
        (rejects_call _ _).mpr (rejects_word (rejects_part_at_end (by simp [EndsWord])))⟩
  | cons word others ih =>
      obtain ⟨first, later⟩ := List.forall_mem_cons.mp noComment
      obtain ⟨nodes, items, words, texts⟩ := ih later
      obtain ⟨node, read, isWord, text⟩ := reads_argument_word word (ends_word_arguments others)
      refine ⟨node :: nodes, ?_, List.forall_mem_cons.mpr ⟨isWord, words⟩, ?_⟩
      · have here : writeArguments (word :: others) = ' ' :: (word.written ++ writeArguments others) := rfl
        rw [here, past_blanks_argument word first]
        refine .more read ?_ items
        have moved : (Cursor.start (writeArguments others)).left <
            (Cursor.start (word.written ++ writeArguments others)).left := by
          refine Cursor.left_lt_of_passed _ _ word.written ?_ rfl
          simp [QuotedWord.written, QuotedWord.pieces, written_nonempty]
        exact Nat.lt_of_le_of_lt (past_blanks_left_le _) moved
      · simp [text, texts]

-- A word that starts with a single quote starts nothing but a simple command.
theorem reads_line (first : QuotedWord) (others : List QuotedWord)
    (quoted : first.first.isSingle = true)
    (noComment : ∀ word ∈ others, word.first.opensComment = false) :
    ∃ nodes, program.Reads (.start (writeLine (first :: others)))
        (.programOf (.ofNodes .simpleCommand nodes)) (.start []) ∧
      (∀ node ∈ nodes, node.kind = .word) ∧
      nodes.mapM Node.unquote? =
        some ((first :: others).map fun word => String.ofList word.text) := by
  obtain ⟨name, read, text⟩ := reads_quoted_word first (ends_word_arguments others)
  obtain ⟨arguments, items, words, texts⟩ := reads_arguments others noComment
  refine ⟨name :: arguments, ?_, List.forall_mem_cons.mpr ⟨word_kind read, words⟩, ?_⟩
  · rw [write_line_cons]
    obtain ⟨behind, here⟩ : ∃ behind, first.written ++ writeArguments others = '\'' :: behind := by
      obtain ⟨piece, more⟩ := first
      cases piece with
      | single chars closed => exact ⟨_, rfl⟩
      | double | escape | plain => cases quoted
    rw [here] at read ⊢
    have noRedirection : redirection.Rejects (.start ('\'' :: behind)) :=
      rejects_redirection (by simp)
    have noLead : leadItem.Rejects (.start ('\'' :: behind)) := by
      simp only [leadItem, Rejects, fails_or_else]
      exact ⟨(rejects_call _ _).mpr noRedirection, by simp [assignment, startsName]⟩
    have unreserved : reservedAhead ('\'' :: behind) = false := by
      simp [reservedAhead, reservedWords, startsReserved]
    have simple : simpleCommand.Reads (.start ('\'' :: behind))
        (.ofNodes .simpleCommand (name :: arguments)) (.start []) := by
      refine simple_command_of_parts (.stop noLead) ?_ items
      rw [commandWord, Reads, gives_look_bind, Cursor.rest_start, unreserved]
      exact (reads_call _ _ _ _).mpr read
    have noFunction : functionDefinition.Rejects (.start ('\'' :: behind)) :=
      rejects_function_definition rfl
    have noCompound : compoundCommand.Rejects (.start ('\'' :: behind)) := by
      simp [compoundCommand]
    have chain := command_is_chain (by simp [startsReserved])
      (simple_command_is_command noFunction noCompound simple) rfl
    exact chain_is_program rfl chain rfl
  · simp [text, texts]

end Lines

/-- Words that are written in quoted pieces, with a space between them, are read back as what they
stand for. -/
theorem quoted_line_round_trip (style : ErrorStyle) (first : QuotedWord) (others : List QuotedWord)
    (quoted : first.first.isSingle = true)
    (noComment : ∀ word ∈ others, word.first.opensComment = false) :
    ∃ command, parse { Config.unlimited with errorStyle := style }
        (String.ofList (writeLine (first :: others))) = .ok (.programOf command) ∧
      command.kind = .simpleCommand ∧ (Node.programOf command).features = [] ∧
      (Node.programOf command).literalArgv? =
        some ((first :: others).map fun word => String.ofList word.text) := by
  obtain ⟨nodes, read, words, texts⟩ := reads_line first others quoted noComment
  have plain : (Node.ofNodes .simpleCommand nodes).features = [] := by
    refine plain_of_nodes rfl fun node member => plain_of_unquote (words node member) ?_
    exact (map_m_is_some _ _).mp (by rw [texts]; rfl) node member
  refine ⟨.ofNodes .simpleCommand nodes, parse_of_reads style _ _ _ read rfl ?_, rfl, ?_, ?_⟩
  · exact no_here_document_of_plain ((Node.features_program_of _).trans plain)
  · rw [Node.features_program_of, plain]
  · rw [Node.literal_argv_program_of, Node.words_of_nodes .simpleCommand words]
    exact texts

-- A quoted word and one with an assignment's form, a descriptor's, a reserved word, a comment mark
-- behind a backslash, an empty text and a text over two lines.
def lookalikeName : QuotedWord :=
  ⟨.single ['i', ' '] (by decide), [.plain ['f', '#'] (by decide) (by decide)]⟩

def lookalikeArguments : List QuotedWord :=
  [⟨.plain ['x', '='] (by decide) (by decide), [.single ['\\'] (by decide)]⟩,
    ⟨.plain ['2'] (by decide) (by decide), [.escape '>' (by decide)]⟩,
    ⟨.plain ['f'] (by decide) (by decide), [.plain ['i'] (by decide) (by decide)]⟩,
    ⟨.escape '#' (by decide), []⟩, ⟨.single [] (by decide), []⟩, ⟨.double ['$', '\n', 'é'], []⟩]

theorem lookalikes_round_trip :
    lookalikeName.first.isSingle = true ∧
      (∀ word ∈ lookalikeArguments, word.first.opensComment = false) ∧
      ∃ command, parse { Config.unlimited with errorStyle := .context }
          "'i 'f# x='\\' 2\\> fi \\# '' \"\\$\né\"" = .ok (.programOf command) ∧
        command.kind = .simpleCommand ∧ (Node.programOf command).features = [] ∧
        (Node.programOf command).literalArgv? =
          some ["i f#", "x=\\", "2>", "fi", "#", "", "$\né"] := by
  have quoted : lookalikeName.first.isSingle = true := rfl
  have noComment : ∀ word ∈ lookalikeArguments, word.first.opensComment = false := by decide
  have written : String.ofList (writeLine (lookalikeName :: lookalikeArguments)) =
      "'i 'f# x='\\' 2\\> fi \\# '' \"\\$\né\"" := by decide +kernel
  obtain ⟨command, parsed, simple, plain, literal⟩ :=
    quoted_line_round_trip .context lookalikeName lookalikeArguments quoted noComment
  rw [written] at parsed
  exact ⟨quoted, noComment, command, parsed, simple, plain, literal⟩

end ShellLine.Quoting
