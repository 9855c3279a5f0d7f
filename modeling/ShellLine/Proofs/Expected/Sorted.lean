import ShellLine.Parsing.Expected

set_option autoImplicit false

namespace ShellLine

namespace Expected

theorem key_injective (a b : Expected) (same : a.key = b.key) : a = b := by
  have chars_injective : ∀ s t : List Char, s.map Char.toNat = t.map Char.toNat → s = t := by
    intro s t equal
    exact (List.map_inj_right fun _ _ => Char.toNat_inj.mp).mp equal
  cases a with
  | endOfInput => cases b <;> first | rfl | cases same
  | literal text =>
      cases b with
      | literal other =>
          have equal := chars_injective _ _ (List.cons.inj same).2
          rw [String.toList_inj.mp equal]
      | token shape => cases same
      | endOfInput => cases same
  | token shape =>
      cases b with
      | token other =>
          have equal := chars_injective _ _ (List.cons.inj same).2
          have different : shape.description.toList = other.description.toList → shape = other := by
            cases shape <;> cases other <;> decide
          rw [different equal]
      | literal text => cases same
      | endOfInput => cases same

theorem mem_insert (e f : Expected) (others : List Expected) :
    f ∈ insert e others ↔ f = e ∨ f ∈ others := by
  induction others with
  | nil => simp [insert]
  | cons g others ih =>
      rw [insert]
      by_cases same : e = g
      · subst same
        simp
      · by_cases before : e.key < g.key
        · simp [same, before]
        · simp only [if_neg same, if_neg before, List.mem_cons, ih]
          exact or_left_comm

theorem mem_sorted (e : Expected) (expected : List Expected) :
    e ∈ sorted expected ↔ e ∈ expected := by
  induction expected with
  | nil => rfl
  | cons f others ih => rw [sorted, mem_insert, ih, List.mem_cons]

theorem insert_in_order (e : Expected) (others : List Expected)
    (ordered : others.Pairwise fun a b => a.key < b.key) :
    (insert e others).Pairwise fun a b => a.key < b.key := by
  induction others with
  | nil => exact List.pairwise_singleton _ _
  | cons f others ih =>
      obtain ⟨first, rest⟩ := List.pairwise_cons.mp ordered
      rw [insert]
      by_cases same : e = f
      · simpa only [if_pos same] using ordered
      · by_cases before : e.key < f.key
        · simp only [if_neg same, if_pos before]
          refine List.pairwise_cons.mpr ⟨fun g later => ?_, ordered⟩
          rcases List.mem_cons.mp later with rfl | later
          · exact before
          · exact List.lt_trans before (first g later)
        · simp only [if_neg same, if_neg before]
          refine List.pairwise_cons.mpr ⟨fun g later => ?_, ih rest⟩
          rcases (mem_insert e g others).mp later with rfl | later
          · rcases List.le_iff_lt_or_eq.mp (List.not_lt.mp before) with after | equal
            · exact after
            · exact absurd (key_injective f g equal).symm same
          · exact first g later

theorem sorted_in_order (expected : List Expected) :
    (sorted expected).Pairwise fun a b => a.key < b.key := by
  induction expected with
  | nil => exact List.Pairwise.nil
  | cons e others ih => exact insert_in_order e (sorted others) ih

theorem sorted_distinct (expected : List Expected) : (sorted expected).Nodup := by
  apply (sorted_in_order expected).imp
  rintro e f before rfl
  exact List.lt_irrefl _ before

theorem sorted_congr (a b : List Expected) (same : ∀ e, e ∈ a ↔ e ∈ b) : sorted a = sorted b := by
  have permuted : (sorted a).Perm (sorted b) := by
    apply (List.perm_ext_iff_of_nodup (sorted_distinct a) (sorted_distinct b)).mpr
    intro e
    rw [mem_sorted, mem_sorted]
    exact same e
  refine permuted.eq_of_pairwise ?_ (sorted_in_order a) (sorted_in_order b)
  intro e f _ _ before after
  exact absurd (List.lt_trans before after) (List.lt_irrefl _)

end Expected

end ShellLine
