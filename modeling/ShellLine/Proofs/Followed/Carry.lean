import ShellLine.Proofs.Followed.Tails

set_option autoImplicit false

namespace ShellLine.Followed

open ShellLine.Parser Grammar Closure

section Conditions

-- What may hold at a place of the text: no part of a word is cut short there, and more of the text
-- follows if lines are passed over.
def Tails.Open (T : Tails) (lines : Bool) (c : Cursor) : Prop :=
  ¬ Stuck c ∧ (lines = true → c.rest ≠ T.old)

-- What one parser reads up to a place of the text where `Q` holds, another parser reads in front of
-- the new tail, and in front of what is read `P` holds.
def Tails.Carry (T : Tails) {α β : Type} (P Q : Cursor → Prop) (p : Parser α) (q : Parser β) (f : α → β)
    (c : Cursor) : Prop :=
  ∀ value d, p.Reads c value d → T.Inside d → Q d → q.Reads (T.there c) (f value) (T.there d) ∧ P c

-- Where one parser fails, another fails in front of the new tail.
def Tails.Miss (T : Tails) {α β : Type} (Q : Cursor → Prop) (p : Parser α) (q : Parser β) (c : Cursor) : Prop :=
  p.Rejects c → T.Inside c → Q c → q.Rejects (T.there c)

end Conditions

variable {T : Tails} {α α' β β' : Type} {P Q R S U : Cursor → Prop} {p : Parser α} {p' : Parser α'}
  {f : α → α'} {g : β → β'} {c : Cursor}

section Combinators

theorem Tails.Carry.start (carry : T.Carry P Q p p' f c)
    (starts : ∀ value d, p.Reads c value d → T.Inside d → Q d → P c → U c) : T.Carry U Q p p' f c :=
  fun value d read inside ends =>
    have both := carry value d read inside ends
    ⟨both.1, starts value d read inside ends both.2⟩

theorem Tails.Carry.finish (carry : T.Carry P Q p p' f c) (ends : ∀ d, U d → Q d) : T.Carry P U p p' f c :=
  fun value d read inside here => carry value d read inside (ends d here)

theorem Tails.Carry.within (carry : T.Carry P (fun d => Q d ∧ T.Inside d) p p' f c) : T.Carry P Q p p' f c :=
  fun value d read inside ends => carry value d read inside ⟨ends, inside⟩

theorem carry_pure {a : α} {b : α'} (same : f a = b) : T.Carry Q Q (pure a) (pure b) f c := by
  intro value d read _ ends
  obtain ⟨rfl, rfl⟩ := (gives_pure _ _ _ _).mp read
  rw [same]
  exact ⟨reads_pure _ _, ends⟩

theorem carry_fail : T.Carry P Q (fail : Parser α) (fail : Parser α') f c :=
  fun value d read _ _ => absurd read (gives_fail c d value)

theorem carry_bind {next : α → Parser β} {next' : α' → Parser β'} (first : T.Carry P R p p' f c)
    (link : ∀ d, S d → R d)
    (later : ∀ a d, p.Reads c a d → T.Carry S Q (next a) (next' (f a)) g d) :
    T.Carry P Q (p >>= next) (p' >>= next') g c := by
  intro value e read inside ends
  obtain ⟨a, d, before, behind⟩ := (gives_bind _ _ _ _ _).mp read
  obtain ⟨readBehind, here⟩ := later a d before value e behind inside ends
  obtain ⟨readBefore, starts⟩ := first a d before (inside_before inside (reads_forward behind)) (link d here)
  exact ⟨reads_bind readBefore readBehind, starts⟩

theorem carry_then {next : α → Parser β} {next' : α' → Parser β'} (first : T.Carry P S p p' f c)
    (later : ∀ a d, p.Reads c a d → T.Carry S Q (next a) (next' (f a)) g d) :
    T.Carry P Q (p >>= next) (p' >>= next') g c := carry_bind first (fun _ here => here) later

theorem carry_atomic (inner : T.Carry P Q p p' f c) : T.Carry P Q (atomic p) (atomic p') f c := by
  intro value d read inside ends
  rw [Reads, gives_atomic] at read ⊢
  exact inner value d read inside ends

theorem carry_nested (inner : T.Carry P Q p p' f c) : T.Carry P Q (nested p) (nested p') f c := inner

theorem carry_or_else {q : Parser α} {q' : Parser α'} (first : T.Carry P Q p p' f c) (miss : T.Miss U p p' c)
    (second : T.Carry U Q q q' f c) (weaken : U c → P c) : T.Carry P Q (p <|> q) (p' <|> q') f c := by
  intro value d read inside ends
  rcases (gives_or_else _ _ _ _ _).mp read with found | ⟨missing, found⟩
  · obtain ⟨readThere, here⟩ := first value d found inside ends
    exact ⟨reads_first readThere, here⟩
  · obtain ⟨readThere, here⟩ := second value d found inside ends
    have rejected := miss missing (inside_before inside (reads_forward found)) here
    exact ⟨reads_second rejected readThere, weaken here⟩

theorem carry_attempt_bind {next : Option α → Parser β} {next' : Option α' → Parser β'}
    (first : T.Carry P R p p' f c) (link : ∀ d, S d → R d)
    (found : ∀ a d, p.Reads c a d → T.Carry S Q (next (some a)) (next' (some (f a))) g d)
    (miss : T.Miss U p p' c) (weaken : U c → P c)
    (missed : p.Rejects c → T.Carry U Q (next none) (next' none) g c) :
    T.Carry P Q (attempt p >>= next) (attempt p' >>= next') g c := by
  intro value e read inside ends
  rcases (gives_attempt_bind _ _ _ _ _).mp read with ⟨a, d, before, behind⟩ | ⟨rejected, behind⟩
  · obtain ⟨readBehind, here⟩ := found a d before value e behind inside ends
    obtain ⟨readBefore, starts⟩ := first a d before (inside_before inside (reads_forward behind)) (link d here)
    exact ⟨reads_bind (reads_tried readBefore) readBehind, starts⟩
  · obtain ⟨readBehind, here⟩ := missed rejected value e behind inside ends
    have rejectedThere := miss rejected (inside_before inside (reads_forward behind)) here
    exact ⟨reads_bind (reads_missed rejectedThere) readBehind, weaken here⟩

theorem carry_attempt (first : T.Carry P Q p p' f c) (miss : T.Miss Q p p' c) (weaken : Q c → P c) :
    T.Carry P Q (attempt p) (attempt p') (Option.map f) c := by
  intro value d read inside ends
  rcases (gives_attempt _ _ _ _).mp read with ⟨a, rfl, given⟩ | ⟨rfl, rejected, rfl⟩
  · obtain ⟨readThere, here⟩ := first a d given inside ends
    exact ⟨reads_tried readThere, here⟩
  · exact ⟨reads_missed (miss rejected inside ends), weaken ends⟩

theorem carry_optional (first : T.Carry P Q p p' f c) (miss : T.Miss Q p p' c) (weaken : Q c → P c) :
    T.Carry P Q (optional p) (optional p') id c :=
  carry_then (carry_attempt first miss weaken) fun _ _ _ => carry_pure rfl

theorem carry_look {next : List Char → Parser β} {next' : List Char → Parser β'}
    (later : T.Inside c → T.Carry P Q (next c.rest) (next' (T.there c).rest) g c) :
    T.Carry P Q (look >>= next) (look >>= next') g c := by
  intro value d read inside ends
  have before := inside_before inside (reads_forward read)
  rw [Reads, gives_look_bind] at read ⊢
  exact later before value d read inside ends

theorem carry_place {next : Nat → Parser β} {next' : Nat → Parser β'}
    (later : T.Inside c → T.Carry P Q (next c.left) (next' (T.there c).left) g c) :
    T.Carry P Q (place >>= next) (place >>= next') g c := by
  intro value d read inside ends
  have before := inside_before inside (reads_forward read)
  rw [Reads, gives_place_bind] at read ⊢
  exact later before value d read inside ends

theorem miss_bind {next : α → Parser β} {next' : α' → Parser β'} (first : T.Miss Q p p' c)
    (through : ∀ a d, p.Reads c a d → (next a).Rejects d → T.Inside c → Q c →
      (p' >>= next').Rejects (T.there c)) : T.Miss Q (p >>= next) (p' >>= next') c := by
  intro rejected inside here
  rcases (fails_bind _ _ _).mp rejected with missing | ⟨a, d, read, missing⟩
  · exact (fails_bind _ _ _).mpr (Or.inl (first missing inside here))
  · exact through a d read missing inside here

theorem miss_atomic (inner : T.Miss Q p p' c) : T.Miss Q (atomic p) (atomic p') c := by
  intro rejected inside here
  rw [Rejects, fails_atomic] at rejected ⊢
  exact inner rejected inside here

theorem miss_or_else {q : Parser α} {q' : Parser α'} (first : T.Miss Q p p' c) (second : T.Miss Q q q' c) :
    T.Miss Q (p <|> q) (p' <|> q') c := by
  intro rejected inside here
  obtain ⟨missing, missingToo⟩ := (fails_or_else _ _ _).mp rejected
  exact (fails_or_else _ _ _).mpr ⟨first missing inside here, second missingToo inside here⟩

end Combinators

section Repetitions

variable {d : Cursor}

theorem items_there {values : List α} {more : List α'} {last : Cursor} (moves : p.Moves)
    (each : ∀ e, e.rest <:+ c.rest → T.Carry P P p p' f e)
    (items : Items (reading grammar) p c values d) (inside : T.Inside d) (ends : P d)
    (others : Items (reading grammar) p' (T.there d) more last) :
    Items (reading grammar) p' (T.there c) (values.map f ++ more) last ∧ P c := by
  induction items with
  | stop _ => exact ⟨others, ends⟩
  | halt given stays => exact absurd (moves _ _ _ given) stays
  | @more c e d value values given progress later ih =>
      have behind : e.rest <:+ c.rest := reads_forward given
      have atNext : T.Inside e := inside_before inside (reads_forward ((gives_many _ _ _ _).mpr later))
      obtain ⟨itemsThere, here⟩ := ih (fun f suffix => each f (suffix.trans behind)) inside ends others
      obtain ⟨read, starts⟩ := each c (List.suffix_refl _) value e given atNext here
      exact ⟨.more read ((left_there_lt (inside_before atNext behind) atNext).mpr progress) itemsThere, starts⟩

-- Where items come to an end, no other is read.
theorem carry_many (moves : p.Moves) (each : ∀ e, e.rest <:+ c.rest → T.Carry P P p p' f e)
    (stops : ∀ d, d.rest <:+ c.rest → T.Miss Q p p' d) (weaken : ∀ d, Q d → P d) :
    T.Carry P Q (many p) (many p') (List.map f) c := by
  intro values d read inside ends
  have items := (gives_many _ _ _ _).mp read
  have rejected : p'.Rejects (T.there d) :=
    stops d (reads_forward read) (items_stop moves items) inside ends
  obtain ⟨itemsThere, starts⟩ := items_there moves each items inside (weaken d ends) (.stop rejected)
  rw [List.append_nil] at itemsThere
  exact ⟨reads_many itemsThere, starts⟩

theorem carry_rounds {turn : Parser (Turn α)} {turn' : Parser (Turn α')}
    (moves : ∀ e value d, turn.Reads e (.more value) d → d.left < e.left)
    (goes : ∀ e value d, e.rest <:+ c.rest → turn.Reads e (.more value) d → T.Inside d → P d →
      turn'.Reads (T.there e) (.more (f value)) (T.there d) ∧ P e)
    (ends : ∀ e next d, e.rest <:+ c.rest → turn.Reads e next d → (∀ value, next ≠ .more value) →
      T.Inside d → Q d → turn'.Reads (T.there e) (mapTurn f next) (T.there d) ∧ P e) :
    T.Carry P Q (rounds turn) (rounds turn') (List.map f) c := by
  intro values d read inside here
  rw [Reads, gives_rounds] at read ⊢
  induction read with
  | stop given =>
      obtain ⟨read, starts⟩ := ends _ _ _ (List.suffix_refl _) given (by simp) inside here
      exact ⟨.stop read, starts⟩
  | last given =>
      obtain ⟨read, starts⟩ := ends _ _ _ (List.suffix_refl _) given (by simp) inside here
      exact ⟨.last read, starts⟩
  | halt given stays => exact absurd (moves _ _ _ given) stays
  | @more c e d value values given progress others ih =>
      have behind : e.rest <:+ c.rest := reads_forward given
      have atNext : T.Inside e := inside_before inside (reads_forward ((gives_rounds _ _ _ _).mpr others))
      obtain ⟨othersThere, later⟩ := ih (fun f value d suffix => goes f value d (suffix.trans behind))
        (fun f next d suffix => ends f next d (suffix.trans behind)) inside here
      obtain ⟨read, starts⟩ := goes c value e (List.suffix_refl _) given atNext later
      exact ⟨.more read ((left_there_lt (inside_before atNext behind) atNext).mpr progress) othersThere, starts⟩

end Repetitions

section Tokens

variable {word : String} {ch : Char}

theorem open_of_moves {value : α} {d : Cursor} (free : ¬ Stuck c) (moves : p.Moves) (read : p.Reads c value d)
    (inside : T.Inside d) : T.Open true c :=
  ⟨free, fun _ => remains_of_moved (moves c value d read) inside⟩

theorem carry_skip {count : Nat} (within : count ≤ c.rest.length) :
    T.Carry (fun _ => True) (fun _ => True) (skip count) (skip count) id c := by
  intro _ d read inside _
  obtain rfl := (gives_skip _ _ _ _).mp read
  exact ⟨(gives_skip _ _ _ _).mpr (there_advance within inside).symm, trivial⟩

theorem carry_blanks : T.Carry (fun c => ¬ Stuck c) (fun d => ¬ Stuck d) blanks blanks id c := by
  intro _ d read inside free
  obtain rfl := (gives_blanks _ _ _).mp read
  refine ⟨(gives_blanks _ _ _).mpr (past_blanks_there inside free), fun stuck => free ?_⟩
  rwa [past_blanks_of_stuck stuck]

theorem carry_line_break : T.Carry (T.Open true) (T.Open true) lineBreak lineBreak id c := by
  intro _ d read inside ⟨free, remains⟩
  have behind := reads_forward read
  obtain rfl := (gives_line_break _ _ _).mp read
  refine ⟨(gives_line_break _ _ _).mpr (past_break_there inside free (remains rfl)), fun stuck => free ?_, ?_⟩
  · rwa [past_break_of_stuck stuck]
  · exact fun _ => remains_before inside behind (remains rfl)

theorem carry_newlines : T.Carry (T.Open true) (T.Open true) newlines newlines id c := by
  intro _ d read inside ⟨free, remains⟩
  have behind := reads_forward read
  obtain ⟨newline, rfl⟩ := (gives_newlines _ _ _).mp read
  have before := remains_before inside behind (remains rfl)
  refine ⟨(gives_newlines _ _ _).mpr ⟨?_, past_lines_there inside free (remains rfl)⟩, ?_, fun _ => before⟩
  · rw [head_there (inside_before inside behind) before, newline]
  · exact not_stuck_of_head newline (by decide)

theorem miss_newlines : T.Miss (fun c => c.rest ≠ T.old) newlines newlines c := by
  intro rejected inside remains
  rw [Rejects, fails_newlines] at rejected ⊢
  rwa [head_there inside remains]

theorem carry_literal (noNewline : '\n' ∉ word.toList) :
    T.Carry (fun _ => True) (fun _ => True) (literal word) (literal word) id c := by
  intro _ d read inside _
  have behind := reads_forward read
  obtain ⟨here, rfl⟩ := (gives_literal _ _ _ _).mp read
  have within := here.length_le
  rw [String.length_toList] at within
  refine ⟨(gives_literal _ _ _ _).mpr ⟨?_, (there_advance within inside).symm⟩, trivial⟩
  exact ((prefix_is_local noNewline).there (inside_before inside behind)).mpr here

theorem miss_literal (noNewline : '\n' ∉ word.toList) :
    T.Miss (fun _ => True) (literal word) (literal word) c := by
  intro rejected inside _
  rw [Rejects, fails_literal] at rejected ⊢
  exact ((prefix_is_local noNewline).there inside).not.mpr rejected

theorem carry_operator (plain : isPlainStart word.toList = true) (noNewline : '\n' ∉ word.toList) :
    T.Carry (T.Open true) (fun d => ¬ Stuck d) (operator word) (operator word) id c := by
  have nonempty : word.toList ≠ [] := by
    rintro empty
    rw [empty] at plain
    cases plain
  refine (carry_bind (carry_literal noNewline) (fun _ _ => trivial) fun _ _ _ => carry_blanks).start ?_
  intro _ d read inside _ _
  exact open_of_moves (not_stuck_of_operator plain read) (operator_text_moves nonempty) read inside

theorem miss_operator (noNewline : '\n' ∉ word.toList) :
    T.Miss (fun _ => True) (operator word) (operator word) c := by
  intro rejected inside _
  rw [Rejects, fails_operator] at rejected ⊢
  exact ((prefix_is_local noNewline).there inside).not.mpr rejected

theorem carry_lone (other : ch ≠ '\n') (plain : isQuoting ch = false) :
    T.Carry (T.Open true) (fun d => ¬ Stuck d) (loneOperator ch) (loneOperator ch) id c := by
  intro _ d read inside free
  have solid := open_of_moves (not_stuck_of_head ((gives_lone_operator _ _ _ _).mp read).1.1 plain)
    (lone_operator_moves ch) read inside
  obtain ⟨alone, rfl⟩ := (gives_lone_operator _ _ _ _).mp read
  have within : 1 ≤ c.rest.length := List.length_pos_iff.mpr (ne_nil_of_head alone.1)
  have behind : (c.advance 1).pastBlanks.rest <:+ (c.advance 1).rest := Cursor.advance_suffix _ _
  have atSign := inside_before inside (behind.trans (c.advance_suffix 1))
  refine ⟨(gives_lone_operator _ _ _ _).mpr ⟨((stands_alone_is_local other).there atSign).mpr alone, ?_⟩, solid⟩
  rw [← there_advance within (inside_before inside behind)]
  exact past_blanks_there inside free

theorem miss_lone (other : ch ≠ '\n') :
    T.Miss (fun _ => True) (loneOperator ch) (loneOperator ch) c := by
  intro rejected inside _
  rw [Rejects, fails_lone_operator] at rejected ⊢
  exact ((stands_alone_is_local other).there inside).not.mpr rejected

theorem reserved_words_start_plain : ∀ word ∈ reservedWords,
    word.toList ≠ [] ∧ isPlainStart word.toList = true := by decide +kernel

theorem carry_keyword (reserved : word ∈ reservedWords) :
    T.Carry (T.Open true) (fun d => ¬ Stuck d) (keyword word) (keyword word) id c := by
  intro _ d read inside free
  obtain ⟨nonempty, plain⟩ := reserved_words_start_plain word reserved
  have solid := open_of_moves (not_stuck_of_keyword plain read) (keyword_text_moves nonempty) read inside
  obtain ⟨starts, rfl⟩ := (gives_keyword _ _ _ _).mp read
  have within := (starts_of_starts_reserved _ _ starts).length_le
  rw [String.length_toList] at within
  have behind : (c.advance word.length).pastBlanks.rest <:+ (c.advance word.length).rest :=
    Cursor.advance_suffix _ _
  have atWord := inside_before inside (behind.trans (c.advance_suffix _))
  refine ⟨(gives_keyword _ _ _ _).mpr ⟨((starts_reserved_is_local reserved).there atWord).mpr starts, ?_⟩, solid⟩
  rw [← there_advance within (inside_before inside behind)]
  exact past_blanks_there inside free

theorem miss_keyword (reserved : word ∈ reservedWords) :
    T.Miss (fun _ => True) (keyword word) (keyword word) c := by
  intro rejected inside _
  rw [Rejects, fails_keyword, Bool.eq_false_iff] at rejected ⊢
  exact ((starts_reserved_is_local reserved).there inside).not.mpr rejected

theorem carry_take_while {accepts : Char → Bool} (stops : accepts '\n' = false) :
    T.Carry (fun _ => True) (fun _ => True) (takeWhile accepts) (takeWhile accepts) id c := by
  intro chars d read inside _
  have behind := reads_forward read
  obtain ⟨rfl, rfl⟩ := (gives_take_while _ _ _ _).mp read
  have same := ((take_while_is_local stops _).there (inside_before inside behind)).mpr rfl
  refine ⟨(gives_take_while _ _ _ _).mpr ⟨same, ?_⟩, trivial⟩
  rw [same]
  exact (there_advance (take_while_within accepts c.rest) inside).symm

theorem name_moves : name.Moves := moves_of_advances name_advances

theorem carry_name : T.Carry (T.Open true) (fun _ => True) name name id c := by
  intro chars d read inside _
  have behind := inside_before inside (reads_forward read)
  have moved := name_moves c chars d read
  obtain ⟨starts, rest⟩ := (gives_name _ _ _).mp read
  obtain ⟨run, -⟩ := carry_take_while (T := T) (by decide) chars d ((gives_take_while _ _ _ _).mpr rest) inside
    trivial
  refine ⟨(gives_name _ _ _).mpr ⟨?_, (gives_take_while _ _ _ _).mp run⟩, ?_, fun _ => remains_of_moved moved inside⟩
  · exact ((head_any_is_local (by decide)).there behind).mpr starts
  · obtain ⟨first, head, starts⟩ := (Option.any_eq_true _ _).mp starts
    exact not_stuck_of_head head (not_quoting_of_continues (continues_of_starts first starts))

theorem miss_name : T.Miss (fun _ => True) name name c := by
  intro rejected inside _
  rw [Rejects, fails_name, Bool.eq_false_iff] at rejected ⊢
  exact ((head_any_is_local (by decide)).there inside).not.mpr rejected

theorem miss_literal_kind {kind : Kind} (noNewline : '\n' ∉ word.toList) :
    T.Miss (fun _ => True) (do literal word; return kind) (do literal word; return kind) c :=
  miss_bind (miss_literal noNewline) fun _ d _ made _ _ => absurd made (fails_pure _ d)

theorem carry_literal_among {operators : List (String × Kind)} (noNewline : ∀ pair ∈ operators, '\n' ∉ pair.1.toList) :
    T.Carry (fun _ => True) (fun _ => True) (literalAmong operators) (literalAmong operators) id c := by
  induction operators with
  | nil => exact carry_fail
  | cons first others ih =>
      obtain ⟨here, later⟩ := List.forall_mem_cons.mp noNewline
      refine carry_or_else ?_ (miss_literal_kind here) (ih later) (fun here => here)
      exact carry_bind (carry_literal here) (fun _ _ => trivial) fun _ _ _ => carry_pure rfl

theorem miss_literal_among {operators : List (String × Kind)} (noNewline : ∀ pair ∈ operators, '\n' ∉ pair.1.toList) :
    T.Miss (fun _ => True) (literalAmong operators) (literalAmong operators) c := by
  induction operators with
  | nil => exact fun _ _ _ => fails_fail _
  | cons first others ih =>
      obtain ⟨here, later⟩ := List.forall_mem_cons.mp noNewline
      exact miss_or_else (miss_literal_kind here) (ih later)

end Tokens

end ShellLine.Followed
