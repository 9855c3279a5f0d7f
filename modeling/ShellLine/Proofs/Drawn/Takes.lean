import ShellLine.Proofs.Reading.MayEnd

set_option autoImplicit false

namespace ShellLine

def Replies.Forward (replies : Replies) : Prop := ∀ rule c node d, replies rule c node d → d.rest <:+ c.rest

-- A text that is a whole, or what is left of it.
def TakenFrom (exact : Bool) (taken whole : List Char) : Prop := taken.Sublist whole ∧ (exact = true → taken = whole)

inductive Strung {α : Type} (R : List Char → α → Prop) : List Char → List α → Prop
  | nil : Strung R [] []
  | cons {front rear : List Char} {value : α} {values : List α} :
      R front value → Strung R rear values → Strung R (front ++ rear) (value :: values)

inductive Gathered {α : Type} (T : List Char → Turn α → Prop) : List Char → List α → Prop
  | stop {taken : List Char} : T taken .stop → Gathered T taken []
  | last {taken : List Char} {value : α} : T taken (.last value) → Gathered T taken [value]
  | more {front rear : List Char} {value : α} {values : List α} :
      T front (.more value) → Gathered T rear values → Gathered T (front ++ rear) (value :: values)

def Tried {α : Type} (R : List Char → α → Prop) (taken : List Char) : Option α → Prop
  | some value => R taken value
  | none => taken = []

def ItemTurn {α : Type} (R : List Char → α → Prop) (taken : List Char) : Turn α → Prop
  | .more value | .last value => R taken value
  | .stop => taken = []

section Texts

variable {exact : Bool} {part middle whole : List Char} {α : Type} {R Q : List Char → α → Prop}

theorem taken_refl (exact : Bool) (whole : List Char) : TakenFrom exact whole whole :=
  ⟨List.Sublist.refl whole, fun _ => rfl⟩

theorem taken_trans (first : TakenFrom exact part middle) (second : TakenFrom exact middle whole) :
    TakenFrom exact part whole :=
  ⟨first.1.trans second.1, fun same => (first.2 same).trans (second.2 same)⟩

theorem taken_behind (front : List Char) (taken : TakenFrom exact part whole) :
    TakenFrom exact (front ++ part) (front ++ whole) :=
  ⟨taken.1.append_left front, fun same => congrArg (front ++ ·) (taken.2 same)⟩

theorem strung_single {taken : List Char} {value : α} (here : R taken value) : Strung R taken [value] :=
  List.append_nil taken ▸ .cons here .nil

theorem strung_append {front rear : List Char} {values others : List α} (first : Strung R front values)
    (second : Strung R rear others) : Strung R (front ++ rear) (values ++ others) := by
  induction first with
  | nil => exact second
  | cons here _ ih => exact List.append_assoc _ _ _ ▸ .cons here ih

theorem strung_of_tried {taken : List Char} {tried : Option α} (known : Tried R taken tried) :
    Strung R taken tried.toList := by
  cases tried with
  | none =>
      obtain rfl : taken = [] := known
      exact .nil
  | some value => exact strung_single known

theorem strung_of_gathered {taken : List Char} {values : List α} (turns : Gathered (ItemTurn R) taken values) :
    Strung R taken values := by
  induction turns with
  | stop stops =>
      cases stops
      exact .nil
  | last here => exact strung_single here
  | more here _ ih => exact .cons here ih

end Texts

namespace Parser

-- Whatever the parser gives at a place is what a relation says of a text taken from what it passed.
def Takes (replies : Replies) (exact : Bool) {α : Type} (p : Parser α) (c : Cursor)
    (R : List Char → α → Prop) : Prop :=
  ∀ a d, p.MayEnd replies c (some (a, d)) → ∃ taken, TakenFrom exact (taken ++ d.rest) c.rest ∧ R taken a

theorem laps_forward {α : Type} {turn : Cursor → Turn α → Cursor → Prop} {c d : Cursor} {values : List α}
    (forward : ∀ {c next d}, turn c next d → d.rest <:+ c.rest) (laps : Laps turn c values d) :
    d.rest <:+ c.rest := by
  induction laps with
  | stop given | last given => exact forward given
  | more given _ ih => exact ih.trans (forward given)

theorem may_end_forward {replies : Replies} (forward : replies.Forward) {α : Type} (p : Parser α) :
    ∀ {c a d}, p.MayEnd replies c (some (a, d)) → d.rest <:+ c.rest := by
  induction p with
  | succeed | look | place =>
      rintro c a d ends
      cases ends
      exact List.suffix_refl _
  | fail =>
      rintro c a d ends
      cases ends
  | expected =>
      rintro c a d ends
      cases ends
      exact List.suffix_refl _
  | skip count =>
      rintro c a d ends
      cases ends
      exact c.advance_suffix count
  | andThen first next firstForward nextForward =>
      rintro c b e (⟨-, impossible⟩ | ⟨a, d, ends, later⟩)
      · cases impossible
      · exact (nextForward a later).trans (firstForward ends)
  | attempt inner ih =>
      rintro c a d (⟨b, e, ends, same⟩ | ⟨-, same⟩)
      · cases same
        exact ih ends
      · cases same
        exact List.suffix_refl _
  | nested inner ih =>
      rintro c a d (impossible | ends)
      · cases impossible
      · exact ih ends
  | rounds turn ih =>
      intro c values d ends
      exact laps_forward ih (ends values d rfl)
  | call rule => exact fun ends => forward rule _ _ _ (ends _ _ rfl)

section Combinators

variable {replies : Replies} {exact : Bool} {α β : Type} {c : Cursor} {p q : Parser α}
  {R : List Char → α → Prop}

theorem takes_pure {a : α} (holds : R [] a) : (pure a : Parser α).Takes replies exact c R := by
  rintro b d ends
  cases ends
  exact ⟨[], taken_refl exact _, holds⟩

theorem takes_return {front : List Char} {a : α} (holds : R front a) :
    (pure a : Parser α).Takes replies exact c fun rear b => R (front ++ rear) b :=
  takes_pure ((List.append_nil front).symm ▸ holds)

theorem takes_fail : (fail : Parser α).Takes replies exact c R := by
  rintro a d ends
  cases ends

theorem takes_refuse (e : Expected) : (refuse e : Parser α).Takes replies exact c R := by
  intro a d ends
  cases may_end_refuse ends

theorem takes_mono {Q : List Char → α → Prop} (takes : p.Takes replies exact c R)
    (weaker : ∀ taken a, R taken a → Q taken a) : p.Takes replies exact c Q := by
  intro a d ends
  obtain ⟨taken, kept, holds⟩ := takes a d ends
  exact ⟨taken, kept, weaker taken a holds⟩

-- Of what is passed over exactly, some may be dropped.
theorem takes_loosely {Q : List Char → α → Prop} (takes : p.Takes replies true c R)
    (less : ∀ passed a, R passed a → ∃ taken, taken.Sublist passed ∧ Q taken a) :
    p.Takes replies false c Q := by
  intro a d ends
  obtain ⟨passed, whole, holds⟩ := takes a d ends
  obtain ⟨taken, dropped, known⟩ := less passed a holds
  exact ⟨taken, ⟨(dropped.append_right d.rest).trans whole.1, fun impossible => by cases impossible⟩, known⟩

theorem takes_bind {next : α → Parser β} {Q : List Char → β → Prop} (first : p.Takes replies exact c R)
    (later : ∀ front a d, R front a → TakenFrom exact (front ++ d.rest) c.rest →
      (next a).Takes replies exact d fun rear b => Q (front ++ rear) b) :
    (p >>= next).Takes replies exact c Q := by
  intro b e ends
  obtain ⟨a, d, given, behind⟩ := may_end_bind ends
  obtain ⟨front, kept, here⟩ := first a d given
  obtain ⟨rear, keptBehind, holds⟩ := later front a d here kept b e behind
  refine ⟨front ++ rear, ?_, holds⟩
  rw [List.append_assoc]
  exact taken_trans (taken_behind front keptBehind) kept

theorem takes_look_bind {next : List Char → Parser β} {Q : List Char → β → Prop}
    (later : (next c.rest).Takes replies exact c Q) : (look >>= next).Takes replies exact c Q := by
  intro b e ends
  obtain ⟨text, d, looked, behind⟩ := may_end_bind ends
  cases looked
  exact later b e behind

theorem takes_or_else (first : p.Takes replies exact c R) (second : q.Takes replies exact c R) :
    (p <|> q).Takes replies exact c R := by
  intro a d ends
  rcases may_end_or_else ends with given | ⟨-, given⟩
  · exact first a d given
  · exact second a d given

theorem takes_attempt (inner : p.Takes replies exact c R) : (attempt p).Takes replies exact c (Tried R) := by
  rintro tried d (⟨a, e, given, same⟩ | ⟨-, same⟩)
  · cases same
    exact inner a d given
  · cases same
    exact ⟨[], taken_refl exact _, rfl⟩

theorem takes_atomic (inner : p.Takes replies exact c R) : (atomic p).Takes replies exact c R :=
  fun a d ends => inner a d (may_end_atomic ends)

theorem takes_nested (inner : p.Takes replies exact c R) : (nested p).Takes replies exact c R := by
  rintro a d (impossible | ends)
  · cases impossible
  · exact inner a d ends

theorem takes_rounds {turn : Parser (Turn α)} {T : List Char → Turn α → Prop}
    (each : ∀ d, turn.Takes replies exact d T) : (rounds turn).Takes replies exact c (Gathered T) := by
  intro values d ends
  have laps := ends values d rfl
  clear ends
  induction laps with
  | stop given =>
      obtain ⟨taken, kept, holds⟩ := each _ _ _ given
      exact ⟨taken, kept, .stop holds⟩
  | last given =>
      obtain ⟨taken, kept, holds⟩ := each _ _ _ given
      exact ⟨taken, kept, .last holds⟩
  | more given _ ih =>
      obtain ⟨front, kept, holds⟩ := each _ _ _ given
      obtain ⟨rear, keptBehind, others⟩ := ih
      refine ⟨front ++ rear, ?_, .more holds others⟩
      rw [List.append_assoc]
      exact taken_trans (taken_behind front keptBehind) kept

theorem takes_many {item : Parser α} (each : ∀ d, item.Takes replies exact d R) :
    (many item).Takes replies exact c (Strung R) := by
  refine takes_mono (takes_rounds fun d => ?_) fun _ _ turns => strung_of_gathered turns
  refine takes_bind (takes_attempt (each d)) fun front tried e known _ => ?_
  cases tried with
  | none => exact takes_return known
  | some value => exact takes_return known

theorem takes_after (forward : replies.Forward) {next : α → Parser β} {Q : List Char → β → Prop}
    (later : ∀ a d, (next a).Takes replies false d Q) : (p >>= next).Takes replies false c Q := by
  intro b e ends
  obtain ⟨a, d, given, behind⟩ := may_end_bind ends
  obtain ⟨taken, kept, holds⟩ := later a d b e behind
  have passed := (may_end_forward forward p given).sublist
  exact ⟨taken, ⟨kept.1.trans passed, fun impossible => by cases impossible⟩, holds⟩

end Combinators

end Parser

end ShellLine
