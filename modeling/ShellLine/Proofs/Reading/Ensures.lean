import ShellLine.Proofs.Reading.MayGive

set_option autoImplicit false

namespace ShellLine.Parser

-- Every value that may be given in a text within the levels that are left has a property.
def Ensures (answers : Answers) (text : List Char) (room : Room) {α : Type} (p : Parser α)
    (R : α → Prop) : Prop :=
  ∀ c a d, c.rest <:+ text → p.MayGive answers room c a d → R a

variable {answers : Answers} {text : List Char} {room : Room} {α β : Type}

theorem ensures_pure {a : α} {R : α → Prop} (holds : R a) :
    (pure a : Parser α).Ensures answers text room R := by
  rintro c b d - ⟨rfl, -⟩
  exact holds

theorem ensures_fail (R : α → Prop) : (fail : Parser α).Ensures answers text room R :=
  fun _ _ _ _ given => given.elim

theorem ensures_refuse (e : Expected) (R : α → Prop) :
    (refuse e : Parser α).Ensures answers text room R :=
  fun _ _ _ _ given => (may_give_refuse e _ _ _ given).elim

theorem ensures_attempt {p : Parser α} {R : α → Prop} (inner : p.Ensures answers text room R) :
    (attempt p).Ensures answers text room fun tried => ∀ a, tried = some a → R a := by
  rintro c tried d within (⟨a, rfl, given⟩ | ⟨rfl, -⟩) b found
  · cases found
    exact inner c a d within given
  · cases found

theorem ensures_or_else {p q : Parser α} {R : α → Prop} (first : p.Ensures answers text room R)
    (second : q.Ensures answers text room R) : (p <|> q).Ensures answers text room R :=
  fun c a d within given => ((may_give_or_else p q c d a).mp given).elim (first c a d within)
    (second c a d within)

theorem ensures_atomic {p : Parser α} {R : α → Prop} (inner : p.Ensures answers text room R) :
    (atomic p).Ensures answers text room R :=
  fun c a d within given => inner c a d within ((may_give_atomic p c d a).mp given)

theorem ensures_nested {p : Parser α} {R : α → Prop}
    (inner : ∀ less : Room, less.map (· + 1) = room → p.Ensures answers text less R) :
    (nested p).Ensures answers text room R :=
  fun c a d within ⟨less, opens, given⟩ => inner less opens c a d within given

variable (forward : answers.Forward)

include forward

theorem ensures_bind {p : Parser α} {next : α → Parser β} {Q : α → Prop} {R : β → Prop}
    (first : p.Ensures answers text room Q) (later : ∀ a, Q a → (next a).Ensures answers text room R) :
    (p >>= next).Ensures answers text room R :=
  fun c b e within ⟨a, d, given, after⟩ => later a (first c a d within given) d b e
    ((may_give_forward forward p given).trans within) after

theorem ensures_after {p : Parser α} {next : α → Parser β} {R : β → Prop}
    (later : ∀ a, (next a).Ensures answers text room R) : (p >>= next).Ensures answers text room R :=
  ensures_bind forward (Q := fun _ => True) (fun _ _ _ _ _ => trivial) fun a _ => later a

theorem ensures_rounds {turn : Parser (Turn α)} {R : α → Prop}
    (each : turn.Ensures answers text room (TurnHolds R)) :
    (rounds turn).Ensures answers text room fun values => ∀ value ∈ values, R value :=
  fun _ _ _ within turns => rounds_holds (may_give_forward forward turn) each turns within

theorem ensures_many {item : Parser α} {R : α → Prop} (each : item.Ensures answers text room R) :
    (many item).Ensures answers text room fun values => ∀ value ∈ values, R value := by
  refine ensures_rounds forward (ensures_bind forward (ensures_attempt each) fun tried known => ?_)
  cases tried with
  | some value => exact ensures_pure (known value rfl)
  | none => exact ensures_pure trivial

end ShellLine.Parser
