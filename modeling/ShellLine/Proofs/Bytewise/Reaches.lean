import Mathlib.Data.List.TakeWhile
import ShellLine.Proofs.Bytewise.Refines

set_option autoImplicit false

namespace ShellLine.Bytewise

open Text Program

-- From one place in a text a program gives a value and leads to another place, and nothing else
-- changes.
def Reaches (input : String) (limit : Nat) {α : Type} (b : Program α) (c : Cursor) (a : α) (d : Cursor) : Prop :=
  ∀ level s e, Matches input s e → e.cursor = c → ∃ trail,
    Runs input.toList limit b level s trail (.gave a { s with pos := offsetOf input d.left }) ∧ trail.Safe input

section Reaches

variable {input : String} {limit : Nat} {α β : Type} {b : Program α} {c d e : Cursor} {a : α}

theorem reaches_still (trail : State → Trail)
    (runs : ∀ level s e, Matches input s e → e.cursor = c → Runs input.toList limit b level s (trail s) (.gave a s))
    (safe : ∀ s e, Matches input s e → e.cursor = c → (trail s).Safe input) : Reaches input limit b c a c := by
  rintro level s e sent rfl
  refine ⟨trail s, ?_, safe s e sent rfl⟩
  rw [← sent.pos]
  exact runs level s e sent rfl

theorem reaches_give (a : α) : Reaches input limit (.give a) c a c :=
  reaches_still (fun _ => []) (fun _ _ _ _ _ => runs_give a) fun _ _ _ _ => safe_nil

theorem reaches_bind {next : α → Program β} {value : β} (first : Reaches input limit b c a d)
    (within : d.rest <:+ input.toList) (later : Reaches input limit (next a) d value e) :
    Reaches input limit (b >>= next) c value e := by
  rintro level s f sent rfl
  obtain ⟨trail, ran, safe⟩ := first level s f sent rfl
  obtain ⟨trailLater, ranLater, safeLater⟩ := later level _ _ (sent.moved within) rfl
  exact ⟨_, runs_and_then ran ranLater, safe_append safe safeLater⟩

theorem reaches_peek_at (front : List Char) {more : List Char} (whole : c.rest = front ++ more) :
    Reaches input limit (peekAt (byteLength front)) c (lead more) c := by
  refine reaches_still (fun _ => []) ?_ fun _ _ _ _ => safe_nil
  rintro level s e sent rfl
  have byte : (bytes input.toList)[s.pos + byteLength front]?.map Char.ofUInt8 = lead more := by
    rw [sent.pos, byte_ahead sent.sound.cursor, whole, byte_behind]
  rw [← byte]
  exact runs_and_then (runs_act (.peek (byteLength front))) (runs_give _)

theorem reaches_peek : Reaches input limit peek c (lead c.rest) c := reaches_peek_at [] rfl

theorem reaches_take_out {level : Nat} {s : State} {action : Action (List Char)} {start : Cursor} {passed : List Char}
    (within : start.rest <:+ input.toList) (whole : start.rest = passed ++ d.rest)
    (same : action.perform input.toList s = takeOut input.toList (offsetOf input start.left) (offsetOf input d.left) s) :
    ∃ trail, Runs input.toList limit (.act action) level s trail (.gave passed s) ∧ trail.Safe input := by
  have took : action.perform input.toList s =
      ([.slices (offsetOf input start.left) (offsetOf input d.left)], .gave passed s) := by
    rw [same, takeOut, slice_of_places within whole]
  have ran : Runs input.toList limit (.act action) level s _ _ := runs_act action
  rw [took] at ran
  exact ⟨_, ran, safe_single ⟨start, d, within, ⟨passed, whole.symm⟩, rfl, rfl⟩⟩

theorem reaches_slice {start : Cursor} {passed : List Char} (within : start.rest <:+ input.toList)
    (whole : start.rest = passed ++ d.rest) :
    Reaches input limit (.act (.slice (offsetOf input start.left) (offsetOf input d.left))) c passed c := by
  rintro level s e sent rfl
  rw [← sent.pos]
  exact reaches_take_out within whole rfl

theorem reaches_rest : Reaches input limit rest c c.rest c := by
  rintro level s e sent rfl
  rw [← sent.pos]
  refine reaches_take_out (d := .start []) sent.sound.cursor (List.append_nil _).symm ?_
  rw [Action.perform, sent.pos]
  exact congrArg (takeOut _ _ · s) (offset_of_end input).symm

theorem reaches_position : Reaches input limit position c (offsetOf input c.left) c := by
  refine reaches_still (fun s => [.saves s.pos]) ?_ ?_
  · rintro level s e sent rfl
    exact sent.pos ▸ runs_act _
  · rintro s e sent rfl
    exact safe_single (safe_saves sent)

theorem reaches_length : Reaches input limit (.act .length) c (bytes input.toList).length c :=
  reaches_still (fun _ => []) (fun _ _ _ _ _ => runs_act _) fun _ _ _ _ => safe_nil

theorem reaches_move_to (within : d.rest <:+ input.toList) : Reaches input limit (moveTo (offsetOf input d.left)) c () d := by
  rintro level s e sent rfl
  exact ⟨_, runs_act _, safe_stands (sent.moved within)⟩

theorem reaches_advance {passed : List Char} (within : c.rest <:+ input.toList) (whole : c.rest = passed ++ d.rest) :
    Reaches input limit (advance (byteLength passed)) c () d := by
  have behind : d.rest <:+ c.rest := ⟨passed, whole.symm⟩
  refine reaches_bind reaches_position within ?_
  rw [← offset_after within whole]
  exact reaches_move_to (behind.trans within)

theorem reaches_slice_from {start : Cursor} {passed : List Char} (within : start.rest <:+ input.toList)
    (whole : start.rest = passed ++ c.rest) :
    Reaches input limit (sliceFrom (offsetOf input start.left)) c passed c := by
  have behind : c.rest <:+ start.rest := ⟨passed, whole.symm⟩
  exact reaches_bind reaches_position (behind.trans within) (reaches_slice within whole)

section Scan

theorem scan_bytes_past (accepts : Char → Bool) (start : Nat) (passed others : List UInt8) (s : State)
    (inside : ∀ b ∈ passed, accepts (.ofUInt8 b) = true)
    (ends : ∀ b, others.head? = some b → accepts (.ofUInt8 b) = false) :
    ∃ trail, scanBytes (fun b => accepts (.ofUInt8 b)) start (passed ++ others) s =
        (trail ++ [.stands { s with pos := s.pos + passed.length }], .gave () { s with pos := s.pos + passed.length }) ∧
      ∀ m ∈ trail, ∃ pos, m = .scans start { s with pos := pos } ∧ s.pos ≤ pos ∧ pos < s.pos + passed.length := by
  induction passed generalizing s with
  | nil =>
      refine ⟨[], ?_, nofun⟩
      cases others with
      | nil => rfl
      | cons b others =>
          rw [List.nil_append, scanBytes, if_neg (by simp [ends b rfl])]
          rfl
  | cons b passed ih =>
      obtain ⟨trail, same, scans⟩ :=
        ih { s with pos := s.pos + 1 } (fun b member => inside b (List.mem_cons_of_mem _ member))
      have further : s.pos + 1 + passed.length = s.pos + (passed.length + 1) := by omega
      refine ⟨.scans start s :: trail, ?_, List.forall_mem_cons.mpr ⟨⟨s.pos, rfl, by simp, by simp⟩, fun m member => ?_⟩⟩
      · rw [List.cons_append, scanBytes, if_pos (inside b (List.mem_cons_self ..)), same]
        simp only [List.length_cons, further, List.cons_append]
      · obtain ⟨pos, rfl, started, before⟩ := scans m member
        exact ⟨pos, rfl, Nat.le_of_succ_le started, by simpa [further] using before⟩

-- A scan may stop inside no character, as the bytes of one are taken all or none.
theorem reaches_scan_while {accepts : Char → Bool} (coarse : Coarse accepts) (within : c.rest <:+ input.toList) :
    Reaches input limit (scanWhile accepts) c () (c.advance (c.rest.takeWhile accepts).length) := by
  rintro level s e sent rfl
  generalize taken : e.cursor.rest.takeWhile accepts = passed
  generalize dropped : e.cursor.rest.dropWhile accepts = others
  have whole : e.cursor.rest = passed ++ others := by rw [← taken, ← dropped, List.takeWhile_append_dropWhile]
  have place : (e.cursor.advance passed.length).rest = others := by
    rw [Cursor.rest_advance, whole, List.drop_left]
  have inside : ∀ b ∈ bytes passed, accepts (.ofUInt8 b) = true := by
    intro b member
    obtain ⟨ch, among, byte⟩ := List.mem_flatMap.mp member
    rw [alike_accepts coarse (byte_alike byte)]
    rw [← taken] at among
    exact List.mem_takeWhile_imp among
  have ends : ∀ b, (bytes others).head? = some b → accepts (.ofUInt8 b) = false := by
    intro b first
    cases others with
    | nil => cases first
    | cons ch others =>
        obtain ⟨byte, more, start⟩ := exists_first_byte ch
        obtain rfl : byte = b := by simpa [bytes, start] using first
        rw [alike_accepts coarse (byte_alike (start ▸ List.mem_cons_self ..))]
        have stopped := List.head?_dropWhile_not accepts e.cursor.rest
        rw [dropped] at stopped
        exact stopped
  obtain ⟨trail, same, scans⟩ := scan_bytes_past accepts s.pos (bytes passed) (bytes others) s inside ends
  have moved : s.pos + (bytes passed).length = offsetOf input (e.cursor.advance passed.length).left := by
    rw [bytes_length, sent.pos, offset_after within (whole.trans (congrArg (passed ++ ·) place.symm))]
  have behind : (e.cursor.advance passed.length).rest <:+ input.toList :=
    (e.cursor.advance_suffix _).trans within
  have ahead : (bytes input.toList).drop s.pos = bytes passed ++ bytes others := by
    rw [sent.pos, bytes_from within, whole, bytes_append]
  have ran : Runs input.toList limit (scanWhile accepts) level s _ _ := runs_scan _
  rw [ahead, same, moved] at ran
  refine ⟨_, ran, safe_append (fun m member => ?_) (safe_stands (sent.moved behind))⟩
  obtain ⟨pos, rfl, started, before⟩ := scans m member
  refine ⟨⟨e, sent⟩, started, Nat.lt_of_lt_of_le before ?_⟩
  rw [moved, ← offset_of_end input, offsetOf, offsetOf]
  omega

end Scan

section Rounds

variable {turn : Program (Turn α)} {values : List α}

theorem reaches_stop (first : Reaches input limit turn c .stop d) : Reaches input limit (.rounds turn) c [] d := by
  intro level s e sent from_
  obtain ⟨trail, ran, safe⟩ := first level s e sent from_
  exact ⟨trail, runs_turn ran rfl, safe⟩

theorem reaches_more (first : Reaches input limit turn c (.more a) d) (within : d.rest <:+ input.toList)
    (later : Reaches input limit (.rounds turn) d values e) : Reaches input limit (.rounds turn) c (a :: values) e := by
  intro level s f sent from_
  obtain ⟨trail, ran, safe⟩ := first level s f sent from_
  obtain ⟨trailLater, ranLater, safeLater⟩ := later level _ _ (sent.moved within) rfl
  exact ⟨_, runs_more ran ranLater, safe_append safe safeLater⟩

end Rounds
end Reaches

end ShellLine.Bytewise
