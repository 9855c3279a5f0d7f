import ShellLine.Proofs.Text.Rows
import ShellLine.Proofs.Tree.Merged
import ShellLine.Tree.Dump

set_option autoImplicit false

namespace ShellLine

def isMarkup (c : Char) : Bool := c ∈ ['<', '>', '[', ']']

def readEscape : List Char → Option (Char × List Char)
  | '&' :: 'a' :: 'm' :: 'p' :: ';' :: rest => some ('&', rest)
  | '&' :: 'l' :: 't' :: ';' :: rest => some ('<', rest)
  | '&' :: 'g' :: 't' :: ';' :: rest => some ('>', rest)
  | '&' :: '#' :: '9' :: '1' :: ';' :: rest => some ('[', rest)
  | '&' :: '#' :: '9' :: '3' :: ';' :: rest => some (']', rest)
  | c :: rest => some (c, rest)
  | [] => none

def EndsRow (rest : List Char) : Prop :=
  rest = [] ∨ (∃ more, rest = '<' :: '/' :: more) ∨ ∃ more, rest = ']' :: more

inductive RowStart
  | ending
  | node
  | text
  | list

def Forest.start : Forest → RowStart
  | nil => .ending
  | node _ _ _ _ => .node
  | text _ _ => .text
  | list _ _ => .list

def RowStart.ofMarkup : List Char → RowStart
  | [] => ending
  | c :: rest =>
      if c = '<' then if rest.head? = some '/' then ending else node
      else if c = ']' then ending
      else if c = '[' then list
      else text

section Escapes

variable {chars others rest more : List Char}

theorem read_escape (c : Char) (rest : List Char) : readEscape (escapeMarkup c ++ rest) = some (c, rest) := by
  rw [escapeMarkup.eq_def]
  split
  · rfl
  · rfl
  · rfl
  · rfl
  · rfl
  · rename_i plain _ _ _ _
    rw [List.singleton_append, readEscape] <;> exact fun _ same => absurd same plain

theorem escape_markup_head (c : Char) : ∃ first more, escapeMarkup c = first :: more ∧ isMarkup first = false := by
  rw [escapeMarkup.eq_def]
  split
  · exact ⟨_, _, rfl, rfl⟩
  · exact ⟨_, _, rfl, rfl⟩
  · exact ⟨_, _, rfl, rfl⟩
  · exact ⟨_, _, rfl, rfl⟩
  · exact ⟨_, _, rfl, rfl⟩
  · refine ⟨c, [], rfl, ?_⟩
    simp_all [isMarkup]

theorem escaped_text_injective (ends : ∀ c, rest.head? = some c → isMarkup c = true)
    (moreEnds : ∀ c, more.head? = some c → isMarkup c = true)
    (same : chars.flatMap escapeMarkup ++ rest = others.flatMap escapeMarkup ++ more) :
    chars = others ∧ rest = more := by
  have goesOn : ∀ (c : Char) (rest : List Char),
      ¬ ∀ first, (escapeMarkup c ++ rest).head? = some first → isMarkup first = true := by
    intro c rest markup
    obtain ⟨first, behind, escaped, plain⟩ := escape_markup_head c
    have head := markup first (by simp [escaped])
    exact Bool.noConfusion (plain.symm.trans head)
  exact Text.row_injective escapeMarkup (fun rest => ∀ c, rest.head? = some c → isMarkup c = true)
    (fun _ _ => Text.told_of_read read_escape) goesOn ends moreEnds same

end Escapes

theorem tag_plain (kind : Kind) :
    kind.tag.toList.head? ≠ some '/' ∧ ∀ c ∈ kind.tag.toList, decide (c ≠ '>') = true := by
  have every : ∀ k ∈ Kind.all, k.tag.toList.head? ≠ some '/' ∧
      ∀ c ∈ k.tag.toList, decide (c ≠ '>') = true := by decide +kernel
  exact every kind kind.all_complete

theorem opening_tag_name (kind : Kind) (rest : List Char) :
    (openingTag kind ++ rest).tail.takeWhile (fun c => decide (c ≠ '>')) = kind.tag.toList := by
  have plain := (tag_plain kind).2
  rw [openingTag, List.cons_append, List.tail_cons, List.append_assoc, List.takeWhile_append_of_pos plain]
  simp

theorem opening_tag_injective {kind other : Kind} {rest more : List Char}
    (same : openingTag kind ++ rest = openingTag other ++ more) : kind = other ∧ rest = more := by
  have tags := opening_tag_name kind rest
  rw [same, opening_tag_name, String.toList_inj] at tags
  obtain rfl := Kind.tag_injective other kind tags
  exact ⟨rfl, List.append_cancel_left same⟩

theorem start_of_tag (kind : Kind) (rest : List Char) : RowStart.ofMarkup (openingTag kind ++ rest) = .node := by
  have opens : (kind.tag.toList ++ ['>'] ++ rest).head? ≠ some '/' := by
    cases name : kind.tag.toList with
    | nil => simp
    | cons c others => simpa [name] using (tag_plain kind).1
  rw [openingTag, List.cons_append, RowStart.ofMarkup, if_pos rfl, if_neg opens]

theorem start_of_plain {c : Char} {rest : List Char} (plain : isMarkup c = false) :
    RowStart.ofMarkup (c :: rest) = .text := by
  simp_all [isMarkup, RowStart.ofMarkup]

theorem head_of_row_start {rest : List Char} (start : RowStart.ofMarkup rest ≠ .text) :
    ∀ c, rest.head? = some c → isMarkup c = true := by
  intro c head
  obtain ⟨others, rfl⟩ := List.head?_eq_some_iff.mp head
  exact Bool.not_eq_false _ ▸ fun plain => start (start_of_plain plain)

-- What a row starts with is seen where it is written, also if nothing is in it.
theorem start_of_markup {forest : Forest} {rest : List Char} (clean : forest.IsMerged) (ends : EndsRow rest) :
    RowStart.ofMarkup (forest.markup ++ rest) = forest.start := by
  cases forest with
  | nil => rcases ends with rfl | ⟨more, rfl⟩ | ⟨more, rfl⟩ <;> rfl
  | node kind mark contents others =>
      rw [Forest.markup, List.append_assoc]
      exact start_of_tag kind _
  | list items others => rfl
  | text chars others =>
      obtain ⟨c, more, rfl⟩ := List.exists_cons_of_ne_nil clean.1
      obtain ⟨first, behind, escaped, plain⟩ := escape_markup_head c
      rw [Forest.markup, List.flatMap_cons, escaped, List.append_assoc, List.append_assoc]
      exact start_of_plain plain

theorem start_eq {forest other : Forest} {rest more : List Char} (clean : forest.IsMerged)
    (otherClean : other.IsMerged) (ends : EndsRow rest) (moreEnds : EndsRow more)
    (same : forest.markup ++ rest = other.markup ++ more) : forest.start = other.start := by
  rw [← start_of_markup clean ends, same, start_of_markup otherClean moreEnds]

theorem markup_behind_text {forest : Forest} {rest : List Char} (clean : forest.IsMerged)
    (apart : forest.startsText = false) (ends : EndsRow rest) :
    ∀ c, (forest.markup ++ rest).head? = some c → isMarkup c = true := by
  refine head_of_row_start ?_
  rw [start_of_markup clean ends]
  cases forest <;> simp_all [Forest.start, Forest.startsText]

theorem ends_closing_tag (kind : Kind) (rest : List Char) : EndsRow (closingTag kind ++ rest) :=
  Or.inr (Or.inl ⟨_, rfl⟩)

theorem ends_list (rest : List Char) : EndsRow (']' :: rest) := Or.inr (Or.inr ⟨rest, rfl⟩)

theorem markup_injective {forest other : Forest} {rest more : List Char} (clean : forest.IsMerged)
    (otherClean : other.IsMerged) (ends : EndsRow rest) (moreEnds : EndsRow more)
    (same : forest.markup ++ rest = other.markup ++ more) : forest = other ∧ rest = more := by
  induction forest generalizing other rest more with
  | nil =>
      have starts := start_eq clean otherClean ends moreEnds same
      cases other with
      | nil => exact ⟨rfl, same⟩
      | node | text | list => cases starts
  | node kind mark contents others contentsSame othersSame =>
      have starts := start_eq clean otherClean ends moreEnds same
      cases other with
      | nil | text | list => cases starts
      | node otherKind otherMark otherContents otherOthers =>
          obtain ⟨rfl, contentsClean, othersClean⟩ := clean
          obtain ⟨rfl, otherContentsClean, otherOthersClean⟩ := otherClean
          simp only [Forest.markup, List.append_assoc] at same
          obtain ⟨rfl, inside⟩ := opening_tag_injective same
          obtain ⟨rfl, behind⟩ := contentsSame contentsClean otherContentsClean (ends_closing_tag kind _)
            (ends_closing_tag kind _) inside
          obtain ⟨rfl, rfl⟩ := othersSame othersClean otherOthersClean ends moreEnds
            (List.append_cancel_left behind)
          exact ⟨rfl, rfl⟩
  | text chars others othersSame =>
      have starts := start_eq clean otherClean ends moreEnds same
      cases other with
      | nil | node | list => cases starts
      | text otherChars otherOthers =>
          obtain ⟨_, apart, othersClean⟩ := clean
          obtain ⟨_, otherApart, otherOthersClean⟩ := otherClean
          simp only [Forest.markup, List.append_assoc] at same
          obtain ⟨rfl, behind⟩ := escaped_text_injective (markup_behind_text othersClean apart ends)
            (markup_behind_text otherOthersClean otherApart moreEnds) same
          obtain ⟨rfl, rfl⟩ := othersSame othersClean otherOthersClean ends moreEnds behind
          exact ⟨rfl, rfl⟩
  | list items others itemsSame othersSame =>
      have starts := start_eq clean otherClean ends moreEnds same
      cases other with
      | nil | node | text => cases starts
      | list otherItems otherOthers =>
          simp only [Forest.markup, List.cons_append, List.append_assoc, List.cons.injEq, true_and] at same
          obtain ⟨rfl, behind⟩ := itemsSame clean.1 otherClean.1 (ends_list _) (ends_list _) same
          obtain ⟨rfl, rfl⟩ := othersSame clean.2 otherClean.2 ends moreEnds (List.cons.inj behind).2
          exact ⟨rfl, rfl⟩

theorem markup_prepend_text (chars : List Char) (others : Forest) :
    (Forest.prependText chars others).markup = chars.flatMap escapeMarkup ++ others.markup := by
  cases others with
  | text more rest => rw [Forest.prependText, Forest.markup, Forest.markup, List.flatMap_append, List.append_assoc]
  | nil | node | list =>
      rw [Forest.prepend_text_of_apart chars rfl]
      split
      · rename_i empty
        rw [empty, List.flatMap_nil, List.nil_append]
      · rfl

theorem markup_merged (forest : Forest) : forest.merged.markup = forest.markup := by
  induction forest with
  | nil => rfl
  | node kind mark contents others contentsSame othersSame =>
      rw [Forest.merged, Forest.markup, contentsSame, othersSame, Forest.markup]
  | text chars others othersSame => rw [Forest.merged, markup_prepend_text, othersSame, Forest.markup]
  | list items others itemsSame othersSame =>
      rw [Forest.merged, Forest.markup, itemsSame, othersSame, Forest.markup]

theorem dump_eq_iff_merged_eq (a b : Node) : a.dump = b.dump ↔ a.merged = b.merged := by
  constructor
  · intro same
    have marked : a.markup = b.markup := String.ofList_injective same
    rw [Node.markup, Node.markup, ← markup_merged a.contents, ← markup_merged b.contents] at marked
    obtain ⟨kinds, behind⟩ := opening_tag_injective marked
    obtain ⟨contents, -⟩ := markup_injective (Forest.merged_is_merged _) (Forest.merged_is_merged _)
      (Or.inr (Or.inl ⟨_, rfl⟩)) (Or.inr (Or.inl ⟨_, rfl⟩)) behind
    rw [Node.merged, Node.merged, kinds, contents]
  · intro same
    obtain ⟨kinds, contents, -⟩ := Node.mk.inj same
    rw [Node.dump, Node.dump, Node.markup, Node.markup, kinds, ← markup_merged a.contents, contents,
      markup_merged b.contents]

end ShellLine
