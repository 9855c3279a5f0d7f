import ShellLine.Proofs.Bytewise.Places
import ShellLine.Proofs.Running.Runs

set_option autoImplicit false

namespace ShellLine.Bytewise

open Text

def entryAt (input : String) (entry : Entry) : Option (Node × Nat) :=
  entry.map fun (node, d) => (node, offsetOf input d.left)

-- What is kept for a rule: where it starts, and if it gave a node where that ends.
def Recalls (input : String) (rule : Rule) (start : Nat) (entry : Option (Node × Nat)) : Prop :=
  ∃ d, d.rest <:+ input.toList ∧ offsetOf input d.left = start ∧
    ∀ node stop, entry = some (node, stop) → ∃ e, attained none rule d node e ∧ offsetOf input e.left = stop

-- A state on the bytes of a text and one on its characters that stand for each other.
structure Matches (input : String) (s : State) (c : ShellLine.State) : Prop where
  sound : c.Sound input.toList
  pos : s.pos = offsetOf input c.cursor.left
  failPos : s.failPos = offsetOf input c.failure.cursor.left
  expected : s.expected = c.failure.expected.reverse
  deep : s.tooDeep = c.tooDeep
  kept : ∀ rule d, rule.isKept = true → d.rest <:+ input.toList →
    s.memo.lookup (rule, offsetOf input d.left) = c.table[rule.height d]?.map (entryAt input)
  recalls : ∀ {rule start entry}, ((rule, start), entry) ∈ s.memo → Recalls input rule start entry

variable {input : String} {s : State} {c : ShellLine.State}

theorem matches_start (input : String) : Matches input .start (.start input.toList) := by
  have here : (0 : Nat) = offsetOf input (Cursor.start input.toList).left := (Nat.sub_self _).symm
  refine ⟨start_sound input.toList, here, here, rfl, rfl, fun rule d _ _ => ?_, nofun⟩
  simp [State.start, ShellLine.State.start]

theorem offset_lt_iff {c d : Cursor} (within : d.left ≤ byteLength input.toList) (other : c.left ≤ byteLength input.toList) :
    offsetOf input c.left < offsetOf input d.left ↔ d.left < c.left := by
  rw [offsetOf, offsetOf]
  omega

theorem offset_inj {c d : Cursor} (within : c.rest <:+ input.toList) (other : d.rest <:+ input.toList) :
    offsetOf input c.left = offsetOf input d.left ↔ c = d := by
  refine ⟨fun same => ?_, congrArg _ ∘ congrArg _⟩
  have bound := (boundary_of_place within).1
  have otherBound := (boundary_of_place other).1
  rw [offsetOf, offsetOf] at same
  exact Cursor.eq_of_left input.toList c d within other (by omega)

namespace Matches

theorem moved (sent : Matches input s c) {d : Cursor} (within : d.rest <:+ input.toList) :
    Matches input { s with pos := offsetOf input d.left } { c with cursor := d } :=
  ⟨sound_moved sent.sound within, rfl, sent.failPos, sent.expected, sent.deep, sent.kept, sent.recalls⟩

theorem tooDeep (sent : Matches input s c) :
    Matches input { s with tooDeep := true } { c with tooDeep := true } :=
  ⟨⟨sent.sound.cursor, sent.sound.failure, sent.sound.table⟩, sent.pos, sent.failPos, sent.expected, rfl,
    sent.kept, sent.recalls⟩

theorem noted (sent : Matches input s c) (e : Expected) : Matches input (s.fail e) (c.note e) := by
  have here := (boundary_of_place sent.sound.cursor).1
  have there := (boundary_of_place sent.sound.failure).1
  have sound := sound_note sent.sound e
  have before : s.pos < s.failPos ↔ c.failure.cursor.left < c.cursor.left := by
    rw [sent.pos, sent.failPos, offset_lt_iff there here]
  have behind : s.failPos < s.pos ↔ c.cursor.left < c.failure.cursor.left := by
    rw [sent.pos, sent.failPos, offset_lt_iff here there]
  rw [State.fail]
  simp only [ShellLine.State.note, Failure.note] at sound ⊢
  simp only [before, behind]
  split
  · exact sent
  · rename_i notBefore
    rw [if_neg notBefore] at sound
    split
    · rename_i further
      rw [if_pos further] at sound
      exact ⟨sound, sent.pos, sent.pos, rfl, sent.deep, sent.kept, sent.recalls⟩
    · rename_i level
      rw [if_neg level] at sound
      refine ⟨sound, sent.pos, sent.failPos, ?_, sent.deep, sent.kept, sent.recalls⟩
      rw [sent.expected, List.reverse_cons]

end Matches

section Memo

variable {limit : Nat} {rule : Rule} {t : State} {d : ShellLine.State}

theorem kept_matches (sent : Matches input s c) (isKept : rule.isKept = true) :
    s.kept? rule = (Mode.kept? ⟨true, limit⟩ rule c).map (entryAt input) := by
  have table : Mode.kept? ⟨true, limit⟩ rule c = c.table[rule.height c.cursor]? := if_pos isKept
  rw [State.kept?, sent.pos, sent.kept rule c.cursor isKept sent.sound.cursor, table]

theorem keep_matches (sent : Matches input s c) (isKept : rule.isKept = true) (after : Matches input t d)
    (entry : Entry) (sound : ({ d with table := d.table.insert (rule.height c.cursor) entry } : ShellLine.State).Sound input.toList)
    (given : ∀ node e, entry = some (node, e) → attained none rule c.cursor node e) :
    Matches input (t.keep rule s.pos (entryAt input entry))
      { d with table := d.table.insert (rule.height c.cursor) entry } := by
  refine ⟨sound, after.pos, after.failPos, after.expected, after.deep, fun other e otherKept within => ?_,
    fun {other start kept} member => ?_⟩
  · rw [State.keep, List.lookup_cons, Std.TreeMap.getElem?_insert, sent.pos]
    by_cases same : rule = other ∧ c.cursor = e
    · obtain ⟨rfl, rfl⟩ := same
      simp
    · have apart : ((other, offsetOf input e.left) == (rule, offsetOf input c.cursor.left)) = false := by
        refine beq_eq_false_iff_ne.mpr fun equal => same ?_
        obtain ⟨rfl, level⟩ := Prod.mk.inj equal
        exact ⟨rfl, ((offset_inj within sent.sound.cursor).mp level).symm⟩
      have elsewhere : ¬ compare (rule.height c.cursor) (other.height e) = .eq := fun equal =>
        same (height_injective sent.sound.cursor within (Nat.compare_eq_eq.mp equal))
      rw [apart, if_neg elsewhere]
      exact after.kept other e otherKept within
  · rcases List.mem_cons.mp member with equal | before
    · obtain ⟨same, rfl⟩ := Prod.mk.inj equal
      obtain ⟨rfl, rfl⟩ := Prod.mk.inj same
      refine ⟨c.cursor, sent.sound.cursor, sent.pos.symm, fun node stop found => ?_⟩
      obtain ⟨pair, told, same⟩ := Option.map_eq_some_iff.mp found
      obtain ⟨rfl, rfl⟩ := Prod.mk.inj same
      exact ⟨pair.2, given pair.1 pair.2 told, rfl⟩
    · exact after.recalls before

end Memo

end ShellLine.Bytewise
