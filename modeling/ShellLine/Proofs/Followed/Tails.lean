import ShellLine.Proofs.Closure.Ends

set_option autoImplicit false

namespace ShellLine.Followed

open ShellLine.Parser Grammar Closure

-- What may stand behind a text without going on with what ends there: nothing, or a newline.
def Apart (tail : List Char) : Prop := tail.head?.all (· = '\n') = true

-- The same place of a text in front of another tail.
def refollowed (old new : List Char) (c : Cursor) : Cursor :=
  .start (c.rest.take (c.rest.length - old.length) ++ new)

-- Where a command expansion is read in the text in front of one tail, no arithmetic expansion is read
-- up to a place in the other tail.
def Sheltered (text old new : List Char) : Prop :=
  ∀ c d e node other, c.rest <:+ text ++ old → ['$', '(', '('] <+: c.rest →
    commandExpansion.Reads c node d → old <:+ d.rest →
    arithmeticExpansion.Reads (refollowed old new c) other e → new <:+ e.rest

-- A text and two tails for it.
structure Tails where
  text : List Char
  old : List Char
  new : List Char
  oldApart : Apart old
  newApart : Apart new
  sheltered : Sheltered text old new
  shelteredBack : Sheltered text new old

namespace Tails

def swap (T : Tails) : Tails :=
  ⟨T.text, T.new, T.old, T.newApart, T.oldApart, T.shelteredBack, T.sheltered⟩

def Inside (T : Tails) (c : Cursor) : Prop := T.old <:+ c.rest

-- The same place in front of the new tail.
def there (T : Tails) (c : Cursor) : Cursor := refollowed T.old T.new c

def node (T : Tails) : Node → Node :=
  Node.moved fun mark => mark - Text.byteLength T.old + Text.byteLength T.new

def child (T : Tails) : Child → Child :=
  Child.moved fun mark => mark - Text.byteLength T.old + Text.byteLength T.new

end Tails

variable {T : Tails} {c d : Cursor} {text tail part : List Char}

section Places

theorem rest_there (whole : c.rest = text ++ T.old) : (T.there c).rest = text ++ T.new := by
  have length : c.rest.length - T.old.length = text.length := by
    rw [whole, List.length_append, Nat.add_sub_cancel]
  change c.rest.take (c.rest.length - T.old.length) ++ T.new = _
  rw [length, whole, List.take_left]

theorem text_of_inside (inside : T.Inside c) : ∃ text, c.rest = text ++ T.old := by
  obtain ⟨text, whole⟩ := inside
  exact ⟨text, whole.symm⟩

theorem inside_before (inside : T.Inside d) (behind : d.rest <:+ c.rest) : T.Inside c :=
  List.IsSuffix.trans inside behind

theorem inside_there (inside : T.Inside c) : T.swap.Inside (T.there c) := by
  obtain ⟨text, whole⟩ := text_of_inside inside
  exact ⟨text, (rest_there whole).symm⟩

theorem there_and_back (inside : T.Inside c) : T.swap.there (T.there c) = c := by
  obtain ⟨text, whole⟩ := text_of_inside inside
  have back : (T.swap.there (T.there c)).rest = text ++ T.old := rest_there (T := T.swap) (rest_there whole)
  exact Cursor.ext_rest _ _ (back.trans whole.symm)

theorem left_there (inside : T.Inside c) :
    (T.there c).left + Text.byteLength T.old = c.left + Text.byteLength T.new := by
  obtain ⟨text, whole⟩ := text_of_inside inside
  rw [(T.there c).left_eq, c.left_eq, rest_there whole, whole, Text.byte_length_append, Text.byte_length_append]
  omega

theorem tail_le_left (inside : T.Inside c) : Text.byteLength T.old ≤ c.left := by
  obtain ⟨text, whole⟩ := text_of_inside inside
  rw [c.left_eq, whole, Text.byte_length_append]
  exact Nat.le_add_left ..

theorem left_there_lt (before : T.Inside c) (behind : T.Inside d) :
    (T.there d).left < (T.there c).left ↔ d.left < c.left := by
  have first := left_there before
  have second := left_there behind
  omega

theorem suffix_there (inside : T.Inside d) (behind : d.rest <:+ c.rest) :
    (T.there d).rest <:+ (T.there c).rest := by
  obtain ⟨text, whole⟩ := text_of_inside inside
  obtain ⟨passed, same⟩ := behind
  rw [whole, ← List.append_assoc] at same
  rw [rest_there whole, rest_there same.symm, List.append_assoc]
  exact List.suffix_append ..

theorem passed_there (part : List Char) (inside : T.Inside d) (here : c.rest = part ++ d.rest) :
    (T.there c).rest = part ++ (T.there d).rest := by
  obtain ⟨text, whole⟩ := text_of_inside inside
  rw [whole, ← List.append_assoc] at here
  rw [rest_there whole, rest_there here, List.append_assoc]

theorem place_cases (inside : T.Inside c) : c.rest = T.old ∨
    ∃ ch text, c.rest = ch :: (text ++ T.old) ∧ (T.there c).rest = ch :: (text ++ T.new) := by
  obtain ⟨text, whole⟩ := text_of_inside inside
  cases text with
  | nil => exact Or.inl whole
  | cons ch others => exact Or.inr ⟨ch, others, whole, rest_there whole⟩

theorem head_there (inside : T.Inside c) (remains : c.rest ≠ T.old) :
    (T.there c).rest.head? = c.rest.head? := by
  obtain ⟨text, whole⟩ := text_of_inside inside
  rw [rest_there whole, whole]
  cases text with
  | nil => exact absurd whole remains
  | cons ch others => rfl

theorem remains_of_moved (moved : d.left < c.left) (inside : T.Inside d) : c.rest ≠ T.old := by
  intro same
  have bound := tail_le_left inside
  rw [← same, ← c.left_eq] at bound
  omega

theorem remains_before (inside : T.Inside d) (behind : d.rest <:+ c.rest) (remains : d.rest ≠ T.old) :
    c.rest ≠ T.old := by
  intro same
  exact remains (List.IsSuffix.eq_of_length_le (same ▸ behind) inside.length_le)

theorem count_within {text : List Char} {count : Nat} (within : count ≤ c.rest.length)
    (inside : T.Inside (c.advance count)) (whole : c.rest = text ++ T.old) : count ≤ text.length := by
  have shorter := inside.length_le
  rw [Cursor.rest_advance, List.length_drop] at shorter
  rw [whole, List.length_append] at shorter within
  omega

theorem there_advance {count : Nat} (within : count ≤ c.rest.length) (inside : T.Inside (c.advance count)) :
    T.there (c.advance count) = (T.there c).advance count := by
  obtain ⟨text, whole⟩ := text_of_inside (inside_before inside (c.advance_suffix count))
  have bound := count_within within inside whole
  have behind : (c.advance count).rest = text.drop count ++ T.old := by
    rw [Cursor.rest_advance, whole, List.drop_append_of_le_length bound]
  apply Cursor.ext_rest
  rw [rest_there behind, Cursor.rest_advance, rest_there whole, List.drop_append_of_le_length bound]

theorem long_there {count : Nat} (within : count ≤ c.rest.length) (inside : T.Inside (c.advance count)) :
    count ≤ (T.there c).rest.length := by
  obtain ⟨text, whole⟩ := text_of_inside (inside_before inside (c.advance_suffix count))
  rw [rest_there whole, List.length_append]
  exact Nat.le_add_right_of_le (count_within within inside whole)

end Places

section Nodes

@[simp] theorem node_of_nodes (kind : Kind) (nodes : List Node) :
    T.node (.ofNodes kind nodes) = .ofNodes kind (nodes.map T.node) := moved_of_nodes _ kind nodes

@[simp] theorem node_wrap (kind : Kind) (node : Node) : T.node (.wrap kind node) = .wrap kind (T.node node) :=
  moved_wrap _ kind node

@[simp] theorem node_leaf (kind : Kind) (chars : List Char) : T.node (.leaf kind chars) = .leaf kind chars :=
  moved_leaf _ kind chars

theorem node_without_here_document {node : Node} (absent : node.firstHereDocument? = none) : T.node node = node :=
  moved_without_here_document _ absent

end Nodes

section Local

-- What shows at the start of a text alone, whatever stands behind.
def Local (holds : List Char → Prop) : Prop :=
  ∀ text tail, Apart tail → (holds (text ++ tail) ↔ holds text)

theorem Local.there {holds : List Char → Prop} (shows : Local holds) (inside : T.Inside c) :
    holds (T.there c).rest ↔ holds c.rest := by
  obtain ⟨text, whole⟩ := text_of_inside inside
  rw [rest_there whole, whole, shows text _ T.newApart, shows text _ T.oldApart]

theorem Local.and {first second : List Char → Prop} (firstShows : Local first) (secondShows : Local second) :
    Local fun text => first text ∧ second text :=
  fun text tail apart => and_congr (firstShows text tail apart) (secondShows text tail apart)

theorem Local.not {holds : List Char → Prop} (shows : Local holds) : Local fun text => ¬ holds text :=
  fun text tail apart => not_congr (shows text tail apart)

theorem apart_cases (apart : Apart tail) : tail = [] ∨ ∃ others, tail = '\n' :: others := by
  cases tail with
  | nil => exact Or.inl rfl
  | cons ch others =>
      have newline : ch = '\n' := by simpa [Apart] using apart
      exact Or.inr ⟨others, by rw [newline]⟩

theorem first_is_local (holds : Option Char → Prop) (same : holds (some '\n') ↔ holds none) :
    Local fun text => holds text.head? := by
  intro text tail apart
  cases text with
  | nil =>
      rcases apart_cases apart with rfl | ⟨others, rfl⟩
      · rfl
      · exact same
  | cons first others => rfl

theorem head_is_local {ch : Char} (other : ch ≠ '\n') : Local fun text => text.head? = some ch :=
  first_is_local (· = some ch) (by simp [other.symm])

theorem head_any_is_local {accepts : Char → Bool} (stops : accepts '\n' = false) :
    Local fun text => text.head?.any accepts = true :=
  first_is_local (·.any accepts = true) (by simp [stops])

theorem head_all_is_local {accepts : Char → Bool} (passes : accepts '\n' = true) :
    Local fun text => text.head?.all accepts = true :=
  first_is_local (·.all accepts = true) (by simp [passes])

theorem prefix_is_local (noNewline : '\n' ∉ part) : Local fun text => part <+: text := by
  intro text tail apart
  induction part generalizing text with
  | nil => simp
  | cons ch others ih =>
      obtain ⟨different, later⟩ := not_or.mp (List.mem_cons.not.mp noNewline)
      cases text with
      | nil =>
          rcases apart_cases apart with rfl | ⟨more, rfl⟩
          · rfl
          · simp [List.cons_prefix_cons, Ne.symm different]
      | cons first more => simp only [List.cons_append, List.cons_prefix_cons, ih later more]

theorem take_while_apart {accepts : Char → Bool} (apart : Apart tail) (stops : accepts '\n' = false)
    (text : List Char) : (text ++ tail).takeWhile accepts = text.takeWhile accepts := by
  induction text with
  | nil =>
      rcases apart_cases apart with rfl | ⟨others, rfl⟩
      · rfl
      · simp [stops]
  | cons ch others ih => simp only [List.cons_append, List.takeWhile_cons, ih]

theorem drop_while_apart {accepts : Char → Bool} (apart : Apart tail) (stops : accepts '\n' = false)
    (text : List Char) : (text ++ tail).dropWhile accepts = text.dropWhile accepts ++ tail := by
  induction text with
  | nil =>
      rcases apart_cases apart with rfl | ⟨others, rfl⟩
      · rfl
      · simp [stops]
  | cons ch others ih =>
      simp only [List.cons_append, List.dropWhile_cons, ih]
      split <;> rfl

theorem take_while_is_local {accepts : Char → Bool} (stops : accepts '\n' = false) (chars : List Char) :
    Local fun text => text.takeWhile accepts = chars := by
  intro text tail apart
  beta_reduce
  rw [take_while_apart apart stops]

theorem solid_start_is_local (word : String) : Local fun text => String.ofList (solidStart text) = word := by
  intro text tail apart
  beta_reduce
  rw [solidStart, take_while_apart apart (by decide), solidStart]

theorem stands_alone_is_local {ch : Char} (other : ch ≠ '\n') : Local (standsAlone ch) := by
  intro text tail apart
  cases text with
  | nil =>
      rcases apart_cases apart with rfl | ⟨others, rfl⟩
      · rfl
      · simp [standsAlone, other.symm]
  | cons first others =>
      exact and_congr_right fun _ => not_congr (head_is_local other others tail apart)

theorem starts_reserved_is_local {word : String} (reserved : word ∈ reservedWords) :
    Local fun text => startsReserved word.toList text = true := by
  intro text tail apart
  have solid := reserved_words_solid word reserved
  exact (starts_reserved_iff solid).trans
    ((solid_start_is_local word text tail apart).trans (starts_reserved_iff solid).symm)

theorem reserved_ahead_is_local : Local fun text => reservedAhead text = true := by
  intro text tail apart
  beta_reduce
  rw [reserved_ahead_iff, reserved_ahead_iff, solidStart, take_while_apart apart (by decide), solidStart]

theorem halts_is_local : Local Halts := by
  intro text tail apart
  refine or_congr (head_all_is_local (by decide) text tail apart) ?_
  rw [solidStart, take_while_apart apart (by decide)]
  rfl

theorem inside_of_passed (inside : T.Inside c) (noNewline : '\n' ∉ part) (here : c.rest = part ++ d.rest) :
    T.Inside d := by
  obtain ⟨text, whole⟩ := text_of_inside inside
  have starts : part <+: text :=
    (prefix_is_local noNewline text T.old T.oldApart).mp ⟨d.rest, by rw [← here, whole]⟩
  obtain ⟨others, rfl⟩ := starts
  rw [whole, List.append_assoc] at here
  exact ⟨others, List.append_cancel_left here⟩

end Local

section Layout

-- Layout that ends in a text is the same in front of each tail, unless a backslash ends the text.
theorem layout_apart {old new : List Char} {lines comment : Bool} (oldApart : Apart old) (newApart : Apart new)
    (within : layoutLength lines comment (text ++ old) ≤ text.length)
    (whole : text.drop (layoutLength lines comment (text ++ old)) ≠ ['\\'])
    (remains : lines = true → text.drop (layoutLength lines comment (text ++ old)) ≠ []) :
    layoutLength lines comment (text ++ new) = layoutLength lines comment (text ++ old) := by
  fun_induction layoutLength lines comment text with
  | case1 comment =>
      have sameLine : lines = false := Bool.eq_false_iff.mpr fun between => remains between List.drop_nil
      have idle : ∀ {tail}, Apart tail → layoutLength lines comment tail = 0 := by
        intro tail apart
        rcases apart_cases apart with rfl | ⟨others, rfl⟩
        · rfl
        · simp [layoutLength, sameLine]
      rw [List.nil_append, List.nil_append, idle oldApart, idle newApart]
  | case2 _ rest between ih =>
      simp only [List.cons_append, layoutLength, if_pos between, List.length_cons, Nat.add_comm 1,
        List.drop_succ_cons] at within whole remains ⊢
      rw [ih (by omega) whole remains]
  | case3 _ rest single => simp only [List.cons_append, layoutLength, if_neg single]
  | case4 ch rest noNewline ih =>
      simp only [List.cons_append, comment_step noNewline, List.length_cons, List.drop_succ_cons]
        at within whole remains ⊢
      rw [ih (by omega) whole remains]
  | case5 rest ih | case6 rest ih | case7 rest ih =>
      simp only [List.cons_append, layoutLength, List.length_cons, Nat.add_comm 1,
        List.drop_succ_cons] at within whole remains ⊢
      rw [ih (by omega) whole remains]
  | case8 rest ih =>
      simp only [List.cons_append, layoutLength, List.length_cons, Nat.add_comm 2,
        List.drop_succ_cons] at within whole remains ⊢
      rw [ih (by omega) whole remains]
  | case9 text nonempty noNewline noSpace noTab noComment noEscape =>
      obtain ⟨first, rest, rfl⟩ := List.exists_cons_of_ne_nil nonempty
      cases rest with
      | cons second others => simp_all [layoutLength]
      | nil =>
          have other : first ≠ '\\' := by
            rintro rfl
            rcases apart_cases oldApart with rfl | ⟨others, rfl⟩
            · exact whole rfl
            · simp only [List.cons_append, List.nil_append, layoutLength, List.length_singleton] at within
              omega
          simp_all [layoutLength]

theorem stuck_at_backslash (here : c.rest = ['\\']) : Stuck c := by
  have behind : (c.advance 1).rest = [] := rest_skip_cons here
  refine ⟨by rw [here]; rfl, ?_⟩
  rw [wordPart, Rejects, fails_look_bind, here]
  simp [bareEscape, behind]

theorem layout_there (lines : Bool) (inside : T.Inside (c.advance (layoutLength lines false c.rest)))
    (free : ¬ Stuck (c.advance (layoutLength lines false c.rest)))
    (remains : lines = true → (c.advance (layoutLength lines false c.rest)).rest ≠ T.old) :
    layoutLength lines false (T.there c).rest = layoutLength lines false c.rest := by
  obtain ⟨text, whole⟩ := text_of_inside (inside_before inside (c.advance_suffix _))
  have bound : layoutLength lines false (text ++ T.old) ≤ text.length := by
    rw [← whole]
    exact count_within (layout_within lines false c.rest) inside whole
  have behind : (c.advance (layoutLength lines false c.rest)).rest =
      text.drop (layoutLength lines false (text ++ T.old)) ++ T.old := by
    rw [Cursor.rest_advance, whole, List.drop_append_of_le_length bound]
  rw [rest_there whole, whole]
  refine layout_apart T.oldApart T.newApart bound ?_ ?_
  · intro backslash
    rw [backslash] at behind
    rcases apart_cases T.oldApart with empty | ⟨others, newline⟩
    · exact free (stuck_at_backslash (by rw [behind, empty]; rfl))
    · have idle := layout_length_drop lines false c.rest
      rw [← Cursor.rest_advance, behind, newline] at idle
      simp [layoutLength] at idle
  · intro between empty
    rw [empty] at behind
    exact remains between behind

theorem past_blanks_there (inside : T.Inside c.pastBlanks) (free : ¬ Stuck c.pastBlanks) :
    (T.there c).pastBlanks = T.there c.pastBlanks := by
  rw [Cursor.pastBlanks, layout_there false inside free (by simp)]
  exact (there_advance (layout_within false false c.rest) inside).symm

theorem past_lines_there (inside : T.Inside c.pastLines) (free : ¬ Stuck c.pastLines)
    (remains : c.pastLines.rest ≠ T.old) : (T.there c).pastLines = T.there c.pastLines := by
  rw [Cursor.pastLines, layout_there true inside free fun _ => remains]
  exact (there_advance (layout_within true false c.rest) inside).symm

theorem past_break_there (inside : T.Inside c.pastBreak) (free : ¬ Stuck c.pastBreak)
    (remains : c.pastBreak.rest ≠ T.old) : (T.there c).pastBreak = T.there c.pastBreak := by
  simp only [Cursor.pastBreak] at inside free remains ⊢
  by_cases newline : c.rest.head? = some '\n'
  · rw [if_pos newline] at inside free remains
    have behind : c.pastLines.rest <:+ c.rest := c.advance_suffix _
    have before := remains_before inside behind remains
    rw [head_there (inside_before inside behind) before, if_pos newline, if_pos newline,
      past_lines_there inside free remains]
  · rw [if_neg newline] at inside free remains
    rw [head_there inside remains, if_neg newline, if_neg newline]

end Layout

end ShellLine.Followed
