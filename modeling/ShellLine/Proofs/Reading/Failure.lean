import ShellLine.Parsing.Parser

set_option autoImplicit false

namespace ShellLine

abbrev Note := Cursor × Expected

namespace Failure

-- Records that tell the same: the place and the set of what was expected there.
structure Agrees (a b : Failure) : Prop where
  cursor : a.cursor = b.cursor
  expected : ∀ e, e ∈ a.expected ↔ e ∈ b.expected

-- A note that is left of the record or already in it adds nothing.
def Covers (failure : Failure) (n : Note) : Prop :=
  failure.cursor.left < n.1.left ∨ (failure.cursor.left = n.1.left ∧ n.2 ∈ failure.expected)

def absorb (failure : Failure) (notes : List Note) : Failure :=
  notes.foldl (fun record n => record.note n.1 n.2) failure

theorem agrees_refl (a : Failure) : a.Agrees a := ⟨rfl, fun _ => Iff.rfl⟩

theorem agrees_symm {a b : Failure} (same : a.Agrees b) : b.Agrees a :=
  ⟨same.cursor.symm, fun e => (same.expected e).symm⟩

theorem agrees_trans {a b c : Failure} (first : a.Agrees b) (second : b.Agrees c) : a.Agrees c :=
  ⟨first.cursor.trans second.cursor, fun e => (first.expected e).trans (second.expected e)⟩

theorem covers_of_agrees {a b : Failure} (same : a.Agrees b) (n : Note) (covered : a.Covers n) :
    b.Covers n := by
  rw [Covers] at covered ⊢
  rw [← same.cursor, ← same.expected]
  exact covered

theorem note_agrees {a b : Failure} (same : a.Agrees b) (cursor : Cursor) (e : Expected) :
    (a.note cursor e).Agrees (b.note cursor e) := by
  simp only [note]
  rw [same.cursor]
  by_cases right : b.cursor.left < cursor.left
  · simpa only [if_pos right] using same
  · by_cases left : cursor.left < b.cursor.left
    · simpa only [if_neg right, if_pos left] using agrees_refl _
    · simp only [if_neg right, if_neg left]
      exact ⟨rfl, fun f => by simp only [List.mem_cons, same.expected]⟩

theorem note_covers_self (a : Failure) (cursor : Cursor) (e : Expected) :
    (a.note cursor e).Covers (cursor, e) := by
  rw [note, Covers]
  by_cases right : a.cursor.left < cursor.left
  · simp only [if_pos right]
    exact Or.inl right
  · by_cases left : cursor.left < a.cursor.left
    · simp [if_neg right, if_pos left]
    · have level : a.cursor.left = cursor.left := by omega
      simp [level]

theorem note_covers (a : Failure) (cursor : Cursor) (e : Expected) (n : Note)
    (covered : a.Covers n) : (a.note cursor e).Covers n := by
  rw [note, Covers]
  rw [Covers] at covered
  by_cases right : a.cursor.left < cursor.left
  · simpa only [if_pos right] using covered
  · by_cases left : cursor.left < a.cursor.left
    · simp only [if_neg right, if_pos left]
      exact Or.inl (by omega)
    · simp only [if_neg right, if_neg left]
      exact covered.imp_right fun here => ⟨here.1, List.mem_cons_of_mem _ here.2⟩

theorem note_of_covers (a : Failure) (cursor : Cursor) (e : Expected)
    (covered : a.Covers (cursor, e)) : (a.note cursor e).Agrees a := by
  rw [note]
  rcases covered with right | ⟨level, known⟩
  · simpa only [if_pos right] using agrees_refl a
  · dsimp only at level known
    have notRight : ¬ a.cursor.left < cursor.left := by omega
    have notLeft : ¬ cursor.left < a.cursor.left := by omega
    simp only [if_neg notRight, if_neg notLeft]
    refine ⟨rfl, fun f => ?_⟩
    simp only [List.mem_cons, or_iff_right_iff_imp]
    rintro rfl
    exact known

theorem absorb_append (a : Failure) (first second : List Note) :
    a.absorb (first ++ second) = (a.absorb first).absorb second := List.foldl_append

theorem absorb_agrees {a b : Failure} (same : a.Agrees b) (notes : List Note) :
    (a.absorb notes).Agrees (b.absorb notes) := by
  induction notes generalizing a b with
  | nil => exact same
  | cons n others ih => exact ih (note_agrees same n.1 n.2)

theorem absorb_covers (a : Failure) (notes : List Note) (n : Note) (covered : a.Covers n) :
    (a.absorb notes).Covers n := by
  induction notes generalizing a with
  | nil => exact covered
  | cons m others ih => exact ih (a.note m.1 m.2) (note_covers a m.1 m.2 n covered)

theorem absorb_covers_mem (a : Failure) (notes : List Note) (n : Note) (taken : n ∈ notes) :
    (a.absorb notes).Covers n := by
  induction notes generalizing a with
  | nil => cases taken
  | cons m others ih =>
      rcases List.mem_cons.mp taken with rfl | later
      · exact absorb_covers _ others n (note_covers_self a n.1 n.2)
      · exact ih (a.note m.1 m.2) later

-- Notes that a record covers can be taken again without changing what it tells.
theorem absorb_of_covers (a : Failure) (notes : List Note) (covered : ∀ n ∈ notes, a.Covers n) :
    (a.absorb notes).Agrees a := by
  induction notes with
  | nil => exact agrees_refl a
  | cons n others ih =>
      have first := note_of_covers a n.1 n.2 (covered n (List.mem_cons_self ..))
      have rest := ih fun m later => covered m (List.mem_cons_of_mem _ later)
      exact agrees_trans (absorb_agrees first others) rest

theorem note_left_le (a : Failure) (c : Cursor) (e : Expected) : (a.note c e).cursor.left ≤ c.left := by
  rw [note]
  split
  · exact Nat.le_of_lt ‹_›
  · split
    · exact Nat.le_refl _
    · exact Nat.le_of_not_lt ‹_›

theorem note_of_right {a : Failure} {c : Cursor} (right : c.left < a.cursor.left) (e : Expected) :
    a.note c e = ⟨c, [e]⟩ := by
  rw [note, if_neg (Nat.lt_asymm right), if_pos right]

theorem note_of_further (a : Failure) {c d : Cursor} (e f : Expected) (further : c.left < d.left) :
    (a.note c e).note d f = a.note c e ∧ (a.note d f).note c e = a.note c e := by
  constructor
  · rw [note, if_pos (Nat.lt_of_le_of_lt (note_left_le a c e) further)]
  · by_cases reached : a.cursor.left < d.left
    · have ignored : a.note d f = a := by rw [note, if_pos reached]
      rw [ignored]
    · have moved : (a.note d f).cursor.left = d.left := by
        rw [note, if_neg reached]
        split
        · rfl
        · exact Nat.le_antisymm (Nat.le_of_not_lt ‹_›) (Nat.le_of_not_lt reached)
      rw [note_of_right (moved ▸ further), note_of_right (Nat.lt_of_lt_of_le further (Nat.le_of_not_lt reached))]

theorem note_comm (a : Failure) {c d : Cursor} (e f : Expected) (same : c.left = d.left → c = d) :
    ((a.note c e).note d f).Agrees ((a.note d f).note c e) := by
  rcases Nat.lt_trichotomy c.left d.left with further | level | back
  · rw [(note_of_further a e f further).1, (note_of_further a e f further).2]
    exact agrees_refl _
  · obtain rfl := same level
    by_cases right : a.cursor.left < c.left
    · simpa only [note, if_pos right] using agrees_refl a
    · by_cases left : c.left < a.cursor.left
      · simp only [note, if_neg right, if_pos left, Nat.lt_irrefl, if_false]
        exact ⟨rfl, fun x => by simp [or_comm]⟩
      · simp only [note, if_neg right, if_neg left]
        exact ⟨rfl, fun x => by simp [or_left_comm]⟩
  · rw [(note_of_further a f e back).1, (note_of_further a f e back).2]
    exact agrees_refl _

theorem absorb_note {text : List Char} {notes : List Note} (a : Failure) {c : Cursor} (e : Expected)
    (within : c.rest <:+ text) (placed : ∀ n ∈ notes, n.1.rest <:+ text) :
    ((a.note c e).absorb notes).Agrees ((a.absorb notes).note c e) := by
  induction notes generalizing a with
  | nil => exact agrees_refl _
  | cons n others ih =>
      obtain ⟨here, later⟩ := List.forall_mem_cons.mp placed
      have swapped := note_comm a e n.2 fun same => Cursor.eq_of_left text c n.1 within here same
      exact agrees_trans (absorb_agrees swapped others) (ih _ later)

theorem note_empty {c d : Cursor} (e : Expected) (behind : d.rest <:+ c.rest) :
    (⟨c, []⟩ : Failure).note d e = ⟨d, [e]⟩ := by
  rcases Nat.lt_or_eq_of_le (Cursor.left_le_of_suffix d c behind) with right | stays
  · exact note_of_right right e
  · obtain rfl := Cursor.eq_of_left c.rest d c behind (List.suffix_refl _) stays
    simp only [note, Nat.lt_irrefl, if_false]

theorem absorb_empty {c d : Cursor} {notes : List Note} (some : notes ≠ []) (behind : d.rest <:+ c.rest)
    (placed : ∀ n ∈ notes, n.1.rest <:+ d.rest) :
    (⟨c, []⟩ : Failure).absorb notes = (⟨d, []⟩ : Failure).absorb notes := by
  obtain ⟨n, others, rfl⟩ := List.exists_cons_of_ne_nil some
  have here := placed n List.mem_cons_self
  change ((⟨c, []⟩ : Failure).note n.1 n.2).absorb others = ((⟨d, []⟩ : Failure).note n.1 n.2).absorb others
  rw [note_empty n.2 (here.trans behind), note_empty n.2 here]

end Failure

end ShellLine
