import ShellLine.Proofs.Tree.Descendants

set_option autoImplicit false

namespace ShellLine

def Child.row : Child → Forest
  | .node inner => inner.contents
  | .text _ => .nil
  | .list items => items

def Child.at? : Child → List Nat → Option Child
  | child, [] => some child
  | child, i :: path => child.row.toList[i]?.bind fun below => below.at? path

def Child.visit? : Child → Option Visit
  | .node inner => some (.node inner)
  | .text chars => some (.text chars)
  | .list _ => none

def Child.visitAt? (child : Child) (path : List Nat) : Option Visit := (child.at? path).bind visit?

-- At a place a node or a text stands, and every node above it is walked.
structure Child.Reaches (walks : List Nat → Bool) (child : Child) (path : List Nat) : Prop where
  visited : child.visitAt? path ≠ none
  walked : ∀ outer inner, outer <+: path → outer ≠ path → child.at? outer = some (.node inner) → walks outer = true

-- A record of visits, each with whether a node was walked then, is of some places one after the other.
def Child.Records (walks : List Nat → Bool) (child : Child) (places : List (List Nat)) (visits : List (Visit × Bool)) :
    Prop :=
  visits.map (fun visit => (some visit.1, visit.2)) = places.map fun path => (child.visitAt? path, walks path)

-- A record is of the places that can be reached through the nodes that were walked, in the order of
-- their paths: what stands above is before what stands below, and what stands left is before what
-- stands right.
def Child.VisitedInOrder (walks : List Nat → Bool) (child : Child) (visits : List (Visit × Bool)) : Prop :=
  ∃ places : List (List Nat), places.Pairwise (· < ·) ∧ (∀ path, path ∈ places ↔ child.Reaches walks path) ∧
    child.Records walks places visits

-- A visitor has a state. At a node it may change it before it decides whether to walk the node and
-- after that.
structure Visitor (σ : Type) where
  enter : Node → σ → Bool × σ
  leave : Node → σ → σ
  text : List Char → σ → σ

-- The walk of a row: each node and each text is visited in turn, those inside of lists in their place.
def Forest.walkBy {σ : Type} (visitNode : Node → σ → σ) (visitText : List Char → σ → σ) : Forest → σ → σ
  | nil, s => s
  | node kind mark contents others, s => others.walkBy visitNode visitText (visitNode ⟨kind, contents, mark⟩ s)
  | text chars others, s => others.walkBy visitNode visitText (visitText chars s)
  | list items others, s => others.walkBy visitNode visitText (items.walkBy visitNode visitText s)

namespace Visitor

variable {σ : Type} (visitor : Visitor σ)

def tourRow : Forest → σ → List (Visit × Bool) × σ
  | .nil, s => ([], s)
  | .node kind mark contents others, s =>
      let entered := visitor.enter ⟨kind, contents, mark⟩ s
      let below := if entered.1 then tourRow contents entered.2 else ([], entered.2)
      let later := tourRow others (visitor.leave ⟨kind, contents, mark⟩ below.2)
      ((.node ⟨kind, contents, mark⟩, entered.1) :: (below.1 ++ later.1), later.2)
  | .text chars others, s =>
      let later := tourRow others (visitor.text chars s)
      ((.text chars, false) :: later.1, later.2)
  | .list items others, s =>
      let below := tourRow items s
      let later := tourRow others below.2
      (below.1 ++ later.1, later.2)

def tour : Child → σ → List (Visit × Bool) × σ
  | .node inner, s =>
      let entered := visitor.enter inner s
      let below := if entered.1 then visitor.tourRow inner.contents entered.2 else ([], entered.2)
      ((.node inner, entered.1) :: below.1, visitor.leave inner below.2)
  | .text chars, s => ([(.text chars, false)], visitor.text chars s)
  | .list items, s => visitor.tourRow items s

theorem tour_cons (child : Child) (others : Forest) (s : σ) :
    visitor.tourRow (.cons child others) s =
      ((visitor.tour child s).1 ++ (visitor.tourRow others (visitor.tour child s).2).1,
        (visitor.tourRow others (visitor.tour child s).2).2) := by
  cases child <;> rfl

def visit (child : Child) (kept : List (Visit × Bool) × σ) : List (Visit × Bool) × σ :=
  (kept.1 ++ (visitor.tour child kept.2).1, (visitor.tour child kept.2).2)

-- The visitor of a walk that enters some nodes.
def entering (enters : Node → Bool) : Visitor Unit := ⟨fun inner s => (enters inner, s), fun _ s => s, fun _ s => s⟩

end Visitor

def Visit.handTo {σ : Type} (visitNode : Node → σ → σ) (visitText : List Char → σ → σ) : Visit → σ → σ
  | node inner => visitNode inner
  | text chars => visitText chars

def Visit.isWalked (enters : Node → Bool) : Visit → Bool
  | node inner => enters inner
  | text _ => false

def Child.entersAt (enters : Node → Bool) (child : Child) (path : List Nat) : Bool :=
  (child.visitAt? path).any (Visit.isWalked enters)

def Child.walk (enters : Node → Bool) : Child → List Visit
  | .node inner => inner.walk enters
  | .text chars => [.text chars]
  | .list items => items.walk enters

theorem walk_cons (enters : Node → Bool) (child : Child) (others : Forest) :
    (Forest.cons child others).walk enters = child.walk enters ++ others.walk enters := by
  cases child <;> rfl

def nextChild : List Nat → List Nat
  | [] => []
  | i :: path => (i + 1) :: path

def Forest.places (walks : List Nat → Bool) : Forest → List (List Nat)
  | nil => []
  | node _ _ contents others =>
      [0] :: ((if walks [0] then contents.places fun path => walks (0 :: path) else []).map (0 :: ·) ++
        (others.places fun path => walks (nextChild path)).map nextChild)
  | text _ others => [0] :: (others.places fun path => walks (nextChild path)).map nextChild
  | list items others =>
      (items.places fun path => walks (0 :: path)).map (0 :: ·) ++
        (others.places fun path => walks (nextChild path)).map nextChild

def Child.places (walks : List Nat → Bool) : Child → List (List Nat)
  | .node inner => [] :: if walks [] then inner.contents.places walks else []
  | .text _ => [[]]
  | .list items => items.places walks

section Paths

variable {walks : List Nat → Bool} {child : Child} {others : Forest} {i : Nat} {path : List Nat}

-- Over a tree an induction goes from a row to the row of its first child and to the others.
theorem row_induction {P : Forest → Prop} (nil : P .nil)
    (cons : ∀ child others, P child.row → P others → P (.cons child others)) (forest : Forest) : P forest := by
  induction forest with
  | nil => exact nil
  | node kind mark contents others inside later => exact cons (.node ⟨kind, contents, mark⟩) others inside later
  | text chars others later => exact cons (.text chars) others nil later
  | list items others inside later => exact cons (.list items) others inside later

theorem at_cons (child : Child) (i : Nat) (path : List Nat) :
    child.at? (i :: path) = child.row.toList[i]?.bind fun below => below.at? path := rfl

theorem visit_at_first (child : Child) (others : Forest) (path : List Nat) :
    (Child.list (.cons child others)).visitAt? (0 :: path) = child.visitAt? path := by
  rw [Child.visitAt?, at_cons, Child.row, Forest.to_list_cons]
  rfl

theorem visit_at_next (child : Child) (others : Forest) (path : List Nat) :
    (Child.list (.cons child others)).visitAt? (nextChild path) = (Child.list others).visitAt? path := by
  cases path with
  | nil => rfl
  | cons i path =>
      rw [nextChild, Child.visitAt?, at_cons, Child.row, Forest.to_list_cons]
      rfl

theorem visit_at_node {inner : Node} :
    child.visitAt? path = some (.node inner) ↔ child.at? path = some (.node inner) := by
  rw [Child.visitAt?]
  constructor
  · cases child.at? path with
    | none =>
        intro missing
        cases missing
    | some found =>
        intro shown
        cases found <;> cases shown
        rfl
  · intro there
    rw [there]
    rfl

theorem reaches_nil : child.Reaches walks [] ↔ child.visit? ≠ none := by
  refine ⟨fun reached => reached.visited, fun visited => ⟨visited, fun outer _ before further => ?_⟩⟩
  exact absurd (List.prefix_nil.mp before) further

theorem reaches_cons : child.Reaches walks (i :: path) ↔
    (∀ inner, child = .node inner → walks [] = true) ∧
      ∃ below, child.row.toList[i]? = some below ∧ below.Reaches (fun path => walks (i :: path)) path := by
  constructor
  · rintro ⟨visited, walked⟩
    rw [Child.visitAt?, at_cons] at visited
    cases here : child.row.toList[i]? with
    | none => simp [here] at visited
    | some below =>
        rw [here] at visited
        refine ⟨fun inner same => ?_, below, rfl, visited, fun outer inner before further there => ?_⟩
        · exact walked [] inner List.nil_prefix (List.cons_ne_nil _ _).symm (congrArg some same)
        · refine walked (i :: outer) inner ((List.prefix_cons_inj i).mpr before) ?_ ?_
          · exact fun same => further (List.cons.inj same).2
          · rw [at_cons, here]
            exact there
  · rintro ⟨walked, below, here, visited, later⟩
    refine ⟨by rwa [Child.visitAt?, at_cons, here], fun outer inner before further there => ?_⟩
    cases outer with
    | nil => exact walked inner (Option.some.inj there)
    | cons j outer =>
        obtain ⟨rfl, inside⟩ := List.cons_prefix_cons.mp before
        rw [at_cons, here] at there
        exact later outer inner inside (fun same => further (congrArg (j :: ·) same)) there

theorem reaches_in_list {items : Forest} : (Child.list items).Reaches walks (i :: path) ↔
    ∃ below, items.toList[i]? = some below ∧ below.Reaches (fun path => walks (i :: path)) path := by
  refine reaches_cons.trans (and_iff_right fun inner same => ?_)
  cases same

theorem not_reaches_list (items : Forest) : ¬ (Child.list items).Reaches walks [] :=
  fun reached => reaches_nil.mp reached rfl

theorem reaches_first : (Child.list (.cons child others)).Reaches walks (0 :: path) ↔
    child.Reaches (fun path => walks (0 :: path)) path := by
  rw [reaches_in_list, Forest.to_list_cons]
  simp

theorem reaches_next : (Child.list (.cons child others)).Reaches walks ((i + 1) :: path) ↔
    (Child.list others).Reaches (fun path => walks (nextChild path)) (i :: path) := by
  rw [reaches_in_list, reaches_in_list, Forest.to_list_cons, List.getElem?_cons_succ]
  rfl

end Paths

section Places

variable {walks : List Nat → Bool} {child : Child} {path : List Nat}

theorem places_cons (child : Child) (others : Forest) : (Forest.cons child others).places walks =
    (child.places fun path => walks (0 :: path)).map (0 :: ·) ++
      (others.places fun path => walks (nextChild path)).map nextChild := by
  cases child <;> rfl

theorem mem_places_of_child
    (below : ∀ path, path ∈ child.row.places walks ↔ (Child.list child.row).Reaches walks path) :
    path ∈ child.places walks ↔ child.Reaches walks path := by
  cases child with
  | list items => exact below path
  | text chars => cases path <;> simp [Child.places, reaches_nil, reaches_cons, Child.visit?, Child.row, Forest.toList]
  | node inner =>
      rw [Child.row] at below
      cases path with
      | nil => simp [Child.places, reaches_nil, Child.visit?]
      | cons i path =>
          rw [reaches_cons, Child.row, ← reaches_in_list, ← below]
          cases walked : walks [] <;> simp [Child.places, walked]

theorem mem_places (forest : Forest) (walks : List Nat → Bool) (path : List Nat) :
    path ∈ forest.places walks ↔ (Child.list forest).Reaches walks path := by
  induction forest using row_induction generalizing walks path with
  | nil => cases path <;> simp [Forest.places, reaches_nil, reaches_in_list, Child.visit?, Forest.toList]
  | cons child others below later =>
      rw [places_cons, List.mem_append, List.mem_map, List.mem_map]
      simp only [mem_places_of_child (below _), later]
      constructor
      · rintro (⟨inside, reached, rfl⟩ | ⟨place, reached, rfl⟩)
        · exact reaches_first.mpr reached
        · cases place with
          | nil => exact absurd reached (not_reaches_list others)
          | cons i inside => exact reaches_next.mpr reached
      · intro reached
        rcases path with - | ⟨- | i, inside⟩
        · exact absurd reached (not_reaches_list _)
        · exact Or.inl ⟨inside, reaches_first.mp reached, rfl⟩
        · exact Or.inr ⟨i :: inside, reaches_next.mp reached, rfl⟩

theorem next_child_lt {a b : List Nat} (before : a < b) : nextChild a < nextChild b := by
  cases a with
  | nil =>
      cases b with
      | nil => exact before
      | cons => exact List.nil_lt_cons _ _
  | cons i a =>
      cases b with
      | nil => cases before
      | cons j b =>
          rw [nextChild, nextChild, List.cons_lt_cons_iff]
          exact (List.cons_lt_cons_iff.mp before).imp Nat.succ_lt_succ fun same => ⟨congrArg _ same.1, same.2⟩

theorem child_places_in_order (below : (child.row.places walks).Pairwise (· < ·)) :
    (child.places walks).Pairwise (· < ·) := by
  cases child with
  | list items => exact below
  | text chars => exact List.pairwise_singleton _ _
  | node inner =>
      rw [Child.places]
      refine List.pairwise_cons.mpr ⟨fun path member => ?_, by split <;> simp_all [Child.row]⟩
      split at member
      · cases path with
        | nil => exact absurd ((mem_places inner.contents walks []).mp member) (not_reaches_list _)
        | cons => exact List.nil_lt_cons _ _
      · cases member

theorem places_in_order (forest : Forest) (walks : List Nat → Bool) : (forest.places walks).Pairwise (· < ·) := by
  induction forest using row_induction generalizing walks with
  | nil => exact List.Pairwise.nil
  | cons child others below later =>
      rw [places_cons, List.pairwise_append, List.pairwise_map, List.pairwise_map]
      refine ⟨(child_places_in_order (below _)).imp fun before => ?_, (later _).imp next_child_lt,
        fun a first b second => ?_⟩
      · exact List.cons_lt_cons_iff.mpr (Or.inr ⟨rfl, before⟩)
      · obtain ⟨inside, -, rfl⟩ := List.mem_map.mp first
        obtain ⟨place, member, rfl⟩ := List.mem_map.mp second
        cases place with
        | nil => exact absurd ((mem_places others _ []).mp member) (not_reaches_list others)
        | cons i place => exact List.cons_lt_cons_iff.mpr (Or.inl (Nat.succ_pos i))

end Places

section Tours

variable {σ : Type} {visitor : Visitor σ} {child : Child}

theorem child_tour_recorded (below : ∀ (s : σ) (walked : Bool), ∃ walks, walks [] = walked ∧
      (Child.list child.row).Records walks (child.row.places walks) (visitor.tourRow child.row s).1) (s : σ) :
    ∃ walks, child.Records walks (child.places walks) (visitor.tour child s).1 := by
  cases child with
  | list items => exact (below s false).imp fun _ => And.right
  | text chars => exact ⟨fun _ => false, rfl⟩
  | node inner =>
      obtain ⟨walks, here, recorded⟩ := below (visitor.enter inner s).2 (visitor.enter inner s).1
      -- Paths that go on from a node lead to the same places as from the list of its contents.
      have same : ∀ path ∈ inner.contents.places walks,
          ((Child.list inner.contents).visitAt? path, walks path) = ((Child.node inner).visitAt? path, walks path) := by
        intro path member
        cases path with
        | nil => exact absurd ((mem_places inner.contents walks []).mp member) (not_reaches_list _)
        | cons => rfl
      rw [Child.row, Child.Records, List.map_congr_left same] at recorded
      refine ⟨walks, ?_⟩
      rw [Child.Records, Visitor.tour, Child.places, here, List.map_cons, List.map_cons, here]
      refine congrArg (_ :: ·) ?_
      split
      · exact recorded
      · rfl

theorem tour_recorded (forest : Forest) (s : σ) (walked : Bool) : ∃ walks, walks [] = walked ∧
    (Child.list forest).Records walks (forest.places walks) (visitor.tourRow forest s).1 := by
  induction forest using row_induction generalizing s walked with
  | nil => exact ⟨fun _ => walked, rfl, rfl⟩
  | cons child others below later =>
      obtain ⟨first, recorded⟩ := child_tour_recorded below s
      obtain ⟨next, here, laterRecorded⟩ := later (visitor.tour child s).2 walked
      let walks : List Nat → Bool
        | [] => walked
        | 0 :: path => first path
        | (i + 1) :: path => next (i :: path)
      have behind : (fun path => walks (nextChild path)) = next := by
        funext path
        cases path with
        | nil => exact here.symm
        | cons => rfl
      have atFirst : (fun path => ((Child.list (.cons child others)).visitAt? path, walks path)) ∘ (0 :: ·) =
          fun path => (child.visitAt? path, first path) :=
        funext fun path => Prod.ext (visit_at_first child others path) rfl
      have atNext : (fun path => ((Child.list (.cons child others)).visitAt? path, walks path)) ∘ nextChild =
          fun path => ((Child.list others).visitAt? path, next path) :=
        funext fun path => Prod.ext (visit_at_next child others path) (congrFun behind path)
      refine ⟨walks, rfl, ?_⟩
      rw [Child.Records, places_cons, behind, Visitor.tour_cons, List.map_append, List.map_append, List.map_map,
        List.map_map, atFirst, atNext, recorded, laterRecorded]

theorem tour_in_order (visitor : Visitor σ) (root : Node) (s : σ) :
    ∃ walks, (Child.node root).VisitedInOrder walks (visitor.tour (.node root) s).1 := by
  obtain ⟨walks, recorded⟩ : ∃ walks, (Child.node root).Records walks _ (visitor.tour (.node root) s).1 :=
    child_tour_recorded (tour_recorded root.contents) s
  exact ⟨walks, _, child_places_in_order (places_in_order root.contents walks),
    fun _ => mem_places_of_child (mem_places root.contents walks), recorded⟩

theorem tour_by_hands (visitor : Visitor σ) (forest : Forest) (kept : List (Visit × Bool) × σ) :
    forest.walkBy (fun inner => visitor.visit (.node inner)) (fun chars => visitor.visit (.text chars)) kept =
      (kept.1 ++ (visitor.tourRow forest kept.2).1, (visitor.tourRow forest kept.2).2) := by
  induction forest generalizing kept with
  | nil => rw [Forest.walkBy, Visitor.tourRow, List.append_nil]
  | node kind mark contents others _ ih =>
      rw [Forest.walkBy, ih, Visitor.visit, List.append_assoc]
      rfl
  | text chars others ih =>
      rw [Forest.walkBy, ih, Visitor.visit, List.append_assoc]
      rfl
  | list items others itemsIh othersIh =>
      rw [Forest.walkBy, othersIh, itemsIh, List.append_assoc]
      rfl

theorem child_tour_entering {enters : Node → Bool} (below : ∀ s, ((Visitor.entering enters).tourRow child.row s).1 =
      (child.row.walk enters).map fun visit => (visit, visit.isWalked enters)) (s : Unit) :
    ((Visitor.entering enters).tour child s).1 =
      (child.walk enters).map fun visit => (visit, visit.isWalked enters) := by
  cases child with
  | list items => exact below s
  | text chars => rfl
  | node inner =>
      rw [Child.walk, Node.walk, List.map_cons]
      refine congrArg ((Visit.node inner, enters inner) :: ·) ?_
      change (ite (enters inner = true) _ _ : List (Visit × Bool) × Unit).1 = _
      split
      · exact below ()
      · rfl

theorem row_tour_entering (enters : Node → Bool) (forest : Forest) (s : Unit) :
    ((Visitor.entering enters).tourRow forest s).1 =
      (forest.walk enters).map fun visit => (visit, visit.isWalked enters) := by
  induction forest using row_induction generalizing s with
  | nil => rfl
  | cons child others below later =>
      rw [Visitor.tour_cons, walk_cons, List.map_append, child_tour_entering below, later]

end Tours

section Choices

variable {enters : Node → Bool} {walks : List Nat → Bool} {child : Child} {outer path : List Nat} {inner : Node}

theorem reaches_node (there : child.at? path = some (.node inner))
    (walked : ∀ outer inner, outer <+: path → outer ≠ path → child.at? outer = some (.node inner) →
      walks outer = true) : child.Reaches walks path :=
  ⟨by simp [visit_at_node.mpr there], walked⟩

-- Where it was decided as was chosen beforehand, what is reached is what the choice lets through.
theorem reaches_by_choice {choice : List Nat → Bool}
    (agree : ∀ path, child.Reaches walks path → walks path = choice path) :
    child.Reaches walks path ↔ child.Reaches choice path := by
  constructor
  · rintro ⟨visited, walked⟩
    refine ⟨visited, fun outer inner before further there => ?_⟩
    rw [← agree outer (reaches_node there fun above upper higher short => walked above upper (higher.trans before) ?_)]
    · exact walked outer inner before further there
    · rintro rfl
      exact short (higher.eq_of_length_le before.length_le)
  · rintro ⟨visited, chosen⟩
    refine ⟨visited, fun outer => ?_⟩
    -- The nodes above a place are reached one after the other from the top.
    induction length : outer.length using Nat.strongRecOn generalizing outer with
    | ind n above =>
        intro inner before further there
        subst length
        have reached : child.Reaches walks outer := by
          refine reaches_node there fun upper node higher short => ?_
          have shorter : upper.length < outer.length :=
            Nat.lt_of_le_of_ne higher.length_le fun same => short (higher.eq_of_length same)
          refine above _ shorter upper rfl node (higher.trans before) ?_
          rintro rfl
          exact short (higher.eq_of_length_le before.length_le)
        rw [agree outer reached]
        exact chosen outer inner before further there

theorem visited_by_choice {visits : List (Visit × Bool)} (visited : child.VisitedInOrder walks visits)
    (chosen : ∀ visit ∈ visits, visit.2 = visit.1.isWalked enters) :
    child.VisitedInOrder (child.entersAt enters) visits := by
  obtain ⟨places, ordered, reached, recorded⟩ := visited
  have agree : ∀ path ∈ places, walks path = child.entersAt enters path := by
    intro path member
    have shown : (child.visitAt? path, walks path) ∈ visits.map fun visit => (some visit.1, visit.2) :=
      recorded ▸ List.mem_map_of_mem member
    obtain ⟨visit, among, same⟩ := List.mem_map.mp shown
    obtain ⟨there, walked⟩ := Prod.mk.inj same
    rw [Child.entersAt, ← there, ← walked, chosen visit among]
    rfl
  refine ⟨places, ordered, fun path => ?_, ?_⟩
  · rw [reached, reaches_by_choice fun path here => agree path ((reached path).mpr here)]
  · rw [Child.Records, recorded]
    exact List.map_congr_left fun path member => Prod.ext rfl (agree path member)

theorem walk_in_order (enters : Node → Bool) (root : Node) :
    (Child.node root).VisitedInOrder ((Child.node root).entersAt enters)
      ((root.walk enters).map fun visit => (visit, visit.isWalked enters)) := by
  obtain ⟨walks, visited⟩ := tour_in_order (Visitor.entering enters) root ()
  rw [child_tour_entering (row_tour_entering enters root.contents), Child.walk] at visited
  refine visited_by_choice visited fun visit member => ?_
  obtain ⟨inner, -, rfl⟩ := List.mem_map.mp member
  rfl

theorem mem_descendants_iff_at {root : Node} :
    inner ∈ root.descendants ↔ ∃ path, (Child.node root).at? path = some (.node inner) := by
  obtain ⟨places, -, reached, recorded⟩ := walk_in_order (fun _ => true) root
  have walked : inner ∈ root.descendants ↔ .node inner ∈ root.walk fun _ => true := by
    rw [Node.descendants, List.mem_filterMap]
    constructor
    · rintro ⟨_ | _, member, same⟩ <;> cases same
      exact member
    · exact fun member => ⟨_, member, rfl⟩
  have shown := congrArg (List.map Prod.fst) recorded
  rw [List.map_map, List.map_map, List.map_map] at shown
  have placed : some (Visit.node inner) ∈ (root.walk fun _ => true).map some ↔
      ∃ path ∈ places, (Child.node root).visitAt? path = some (.node inner) := by
    rw [← List.mem_map]
    exact iff_of_eq (congrArg (some (Visit.node inner) ∈ ·) shown)
  rw [walked]
  constructor
  · intro member
    obtain ⟨path, -, there⟩ := placed.mp (List.mem_map_of_mem member)
    exact ⟨path, visit_at_node.mp there⟩
  · rintro ⟨path, there⟩
    have here : path ∈ places := by
      refine (reached path).mpr (reaches_node there fun outer upper _ _ above => ?_)
      rw [Child.entersAt, visit_at_node.mpr above]
      rfl
    simpa using placed.mpr ⟨path, here, visit_at_node.mpr there⟩

end Choices

section Handing

variable {σ : Type} {visitNode : Node → σ → σ} {visitText : List Char → σ → σ}

def Forest.handed : Forest → List Visit
  | nil => []
  | node kind mark contents others => .node ⟨kind, contents, mark⟩ :: others.handed
  | text chars others => .text chars :: others.handed
  | list items others => items.handed ++ others.handed

theorem walk_by_hands (forest : Forest) (s : σ) : forest.walkBy visitNode visitText s =
    forest.handed.foldl (fun state visit => visit.handTo visitNode visitText state) s := by
  induction forest generalizing s with
  | nil => rfl
  | node kind mark contents others _ ih => exact ih _
  | text chars others ih => exact ih _
  | list items others itemsIh othersIh => rw [Forest.walkBy, Forest.handed, List.foldl_append, itemsIh, othersIh]

theorem handed_nodes (forest : Forest) : forest.handed.filterMap Visit.node? = forest.nodes := by
  induction forest with
  | nil => rfl
  | node kind mark contents others _ ih => exact congrArg (_ :: ·) ih
  | text chars others ih => exact ih
  | list items others itemsIh othersIh =>
      rw [Forest.handed, List.filterMap_append, itemsIh, othersIh, Forest.nodes]

end Handing

theorem features_in_order (root : Node) : root.features.Pairwise fun a b => a.ctorIdx < b.ctorIdx :=
  List.Pairwise.filter _ (by decide)

/-- A walk over a tree comes to each place of a node or a text once, in the order of the paths, unless it leaves
aside a node above that place; and so does every visitor, whatever its state decides, for when it walks a node it
visits what the contents hand over, and the nodes among that are the children in order. The features of a tree
are in the order of their declaration, and each of them is that of a node at some place. -/
theorem visits_in_order (root : Node) :
    (∀ enters : Node → Bool, (Child.node root).VisitedInOrder ((Child.node root).entersAt enters)
      ((root.walk enters).map fun visit => (visit, visit.isWalked enters))) ∧
      (∀ (σ : Type) (visitor : Visitor σ),
        (∀ s, ∃ walks, (Child.node root).VisitedInOrder walks (visitor.tour (.node root) s).1) ∧
          ∀ kept, root.contents.walkBy (fun inner => visitor.visit (.node inner))
              (fun chars => visitor.visit (.text chars)) kept =
            (kept.1 ++ (visitor.tourRow root.contents kept.2).1, (visitor.tourRow root.contents kept.2).2)) ∧
      (∃ handed : List Visit, handed.filterMap Visit.node? = root.children ∧
        ∀ (σ : Type) (visitNode : Node → σ → σ) (visitText : List Char → σ → σ) (s : σ),
          root.contents.walkBy visitNode visitText s =
            handed.foldl (fun state visit => visit.handTo visitNode visitText state) s) ∧
      root.features.Pairwise (fun a b => a.ctorIdx < b.ctorIdx) ∧
      ∀ feature, feature ∈ root.features ↔
        ∃ path inner, (Child.node root).at? path = some (.node inner) ∧ inner.kind.feature? = some feature := by
  refine ⟨fun enters => walk_in_order enters root, fun σ visitor => ⟨fun s => tour_in_order visitor root s, ?hands⟩,
    ⟨_, handed_nodes root.contents, fun _ _ _ => walk_by_hands root.contents⟩, features_in_order root, ?features⟩
  case hands => exact tour_by_hands visitor root.contents
  case features =>
    intro feature
    rw [mem_features]
    constructor
    · rintro ⟨inner, below, implied⟩
      exact (mem_descendants_iff_at.mp below).imp fun path there => ⟨inner, there, implied⟩
    · rintro ⟨path, inner, there, implied⟩
      exact ⟨inner, mem_descendants_iff_at.mpr ⟨path, there⟩, implied⟩

-- In a list of patterns the node that the walk leaves aside hides what is below it and nothing else.
example :
    let word (chars : List Char) := Node.wrap .word (.leaf .singleQuote chars)
    let tree : Node := ⟨.caseItem, .list (.list (.node .word none (.node .stringLength none .nil .nil) .nil)
      (.text ['|'] .nil)) (.node .bang none (word ['a']).contents .nil), none⟩
    (tree.walk fun inner => inner.kind ≠ .word).map (fun visit => visit.node?.map Node.kind) =
        [some .caseItem, some .word, none, some .bang, some .singleQuote, none] ∧
      tree.features = [.pipeline, .compound, .exoticExpansion] := by
  decide +kernel

end ShellLine
