import Mathlib.Data.List.Forall2
import ShellLine.Analysis.Argv
import ShellLine.Proofs.Tree.Descendants

set_option autoImplicit false

namespace ShellLine

theorem map_m_eq_some {α β : Type} (f : α → Option β) (xs : List α) (ys : List β) :
    xs.mapM f = some ys ↔ List.Forall₂ (fun x y => f x = some y) xs ys := by
  induction xs generalizing ys with
  | nil => cases ys <;> simp
  | cons x others ih =>
      cases ys with
      | nil =>
          rw [List.mapM_cons]
          cases f x <;> cases others.mapM f <;> simp
      | cons y rest =>
          simp only [List.mapM_cons, List.forall₂_cons, ← ih]
          cases f x <;> cases others.mapM f <;> simp

theorem map_m_is_some {α β : Type} (f : α → Option β) (xs : List α) :
    (xs.mapM f).isSome ↔ ∀ x ∈ xs, (f x).isSome := by
  induction xs with
  | nil => simp
  | cons x others ih =>
      simp only [List.mapM_cons, List.forall_mem_cons, ← ih]
      cases f x <;> cases others.mapM f <;> simp

theorem contents_of_sole_text {node : Node} {chars : List Char}
    (sole : node.soleText? = some chars) : node.contents = .text chars .nil := by
  rw [Node.soleText?] at sole
  generalize node.contents = contents at sole ⊢
  cases contents with
  | text only others => cases others <;> simp_all [Forest.soleText?]
  | nil => simp [Forest.soleText?] at sole
  | node => simp [Forest.soleText?] at sole
  | list => simp [Forest.soleText?] at sole

theorem plain_of_sole_text {node : Node} (sole : node.soleText?.isSome)
    (plain : node.kind.feature? = none) : ∀ inner ∈ node.descendants, inner.kind.feature? = none := by
  obtain ⟨chars, found⟩ := Option.isSome_iff_exists.mp sole
  have empty : node.contents.descendants = [] := by
    rw [contents_of_sole_text found]
    rfl
  intro inner member
  rw [node_descendants, empty, List.mem_singleton] at member
  rw [member]
  exact plain

theorem plain_of_unquote_double {children : List Child} (done : (unquoteDouble? children).isSome) :
    ∀ child ∈ children, ∀ inner ∈ child.descendants, inner.kind.feature? = none := by
  induction children with
  | nil => simp
  | cons child others ih =>
      cases child with
      | list items => simp [unquoteDouble?] at done
      | text chars =>
          have rest : (unquoteDouble? others).isSome := by
            simpa [unquoteDouble?] using done
          simpa [Child.descendants] using ih rest
      | node inner =>
          by_cases escape : inner.kind = .doubleQuotedEscape
          · rw [unquoteDouble?, if_pos escape] at done
            have sole : inner.soleText?.isSome := by
              cases text : inner.soleText? <;> simp_all
            have rest : (unquoteDouble? others).isSome := by
              cases unquoted : unquoteDouble? others <;> cases text : inner.soleText? <;> simp_all
            refine List.forall_mem_cons.mpr ⟨?_, ih rest⟩
            exact plain_of_sole_text sole (by rw [escape]; rfl)
          · simp [unquoteDouble?, escape] at done

theorem plain_of_unquote_part {child : Child} (done : (unquotePart? child).isSome) :
    ∀ inner ∈ child.descendants, inner.kind.feature? = none := by
  cases child with
  | text chars => simp [unquotePart?] at done
  | list items => simp [unquotePart?] at done
  | node part =>
      unfold unquotePart? at done
      dsimp only at done
      split at done
      · rename_i kind
        exact plain_of_sole_text done (by rw [kind]; rfl)
      · rename_i kind
        exact plain_of_sole_text done (by rw [kind]; rfl)
      · rename_i kind
        exact plain_of_sole_text done (by rw [kind]; rfl)
      · rename_i kind
        intro inner member
        rcases (mem_descendants part inner).mp member with rfl | ⟨child, here, below⟩
        · rw [kind]
          rfl
        · exact plain_of_unquote_double done child here inner below
      · cases done

theorem unquote_is_some (word : Node) :
    word.unquote?.isSome ↔ ∀ child ∈ word.contents.toList, (unquotePart? child).isSome := by
  rw [← map_m_is_some]
  rw [Node.unquote?]
  cases word.contents.toList.mapM unquotePart? <;> simp

theorem unquote_of_parts {parts : List Node} {texts : List (List Char)}
    (each : List.Forall₂ (fun part text => unquotePart? (.node part) = some text) parts texts) :
    (Node.ofNodes .word parts).unquote? = some (String.ofList texts.flatten) := by
  have found : (parts.map Child.node).mapM unquotePart? = some texts :=
    (map_m_eq_some _ _ _).mpr (List.forall₂_map_left_iff.mpr each)
  simp [Node.unquote?, Node.contents_of_nodes, found]

theorem plain_of_unquote {word : Node} (kind : word.kind = .word) (done : word.unquote?.isSome) :
    word.features = [] := by
  rw [features_eq_nil]
  intro inner member
  rcases (mem_descendants word inner).mp member with rfl | ⟨child, here, below⟩
  · rw [kind]
    rfl
  · exact plain_of_unquote_part ((unquote_is_some word).mp done child here) inner below

end ShellLine
