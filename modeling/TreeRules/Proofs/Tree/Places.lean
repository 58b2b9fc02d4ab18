import Mathlib.Tactic.Common
import TreeRules.Tree.Walk

/-! # The places of a tree

The walk without a range lists every node with the nodes above it. It holds the root and with every
place its children, and nothing else, so what passes from the root down to the children holds of
every place. Descents and climbs do not leave the tree.
-/
namespace TreeRules

namespace Tree

/-! ## From the root down -/

/-- The root comes first. -/
theorem places_eq_cons (tree : Tree) : ∃ rest, tree.places = ⟨tree, []⟩ :: rest := by
  cases tree
  rw [places, walkFrom, if_pos rfl]
  exact ⟨_, rfl⟩

theorem root_mem_places (tree : Tree) : ⟨tree, []⟩ ∈ tree.places := by
  obtain ⟨rest, hrest⟩ := tree.places_eq_cons
  rw [hrest]
  exact List.mem_cons_self

theorem mem_walkEach_of_mem {above : List Tree} {tree : Tree} {trees : List Tree}
    (h : tree ∈ trees) {place : Place} (hplace : place ∈ tree.walkFrom (fun _ => true) above) :
    place ∈ walkEach (fun _ => true) above trees := by
  induction trees with
  | nil => cases h
  | cons first rest ih =>
    rw [walkEach, List.mem_append]
    rcases List.mem_cons.1 h with rfl | h
    · exact .inl hplace
    · exact .inr (ih h)

mutual

theorem child_mem_walkFrom {above : List Tree} {place child : Place} (tree : Tree)
    (h : place ∈ tree.walkFrom (fun _ => true) above) (hchild : child ∈ place.children) :
    child ∈ tree.walkFrom (fun _ => true) above := by
  match tree with
  | .node label children =>
    rw [walkFrom, if_pos rfl] at h ⊢
    refine List.mem_cons_of_mem _ ?_
    rcases List.mem_cons.1 h with rfl | h
    · obtain ⟨node, hnode, rfl⟩ := List.mem_map.1 hchild
      refine mem_walkEach_of_mem hnode ?_
      cases node
      rw [walkFrom, if_pos rfl]
      exact List.mem_cons_self
    · exact child_mem_walkEach children h hchild

theorem child_mem_walkEach {above : List Tree} {place child : Place} (trees : List Tree)
    (h : place ∈ walkEach (fun _ => true) above trees) (hchild : child ∈ place.children) :
    child ∈ walkEach (fun _ => true) above trees := by
  match trees with
  | [] => cases h
  | tree :: rest =>
    rw [walkEach, List.mem_append] at h ⊢
    rcases h with h | h
    · exact .inl (child_mem_walkFrom tree h hchild)
    · exact .inr (child_mem_walkEach rest h hchild)

end

theorem child_mem_places {tree : Tree} {place child : Place} (h : place ∈ tree.places)
    (hchild : child ∈ place.children) : child ∈ tree.places := child_mem_walkFrom tree h hchild

mutual

theorem walkFrom_induction {P : Place → Prop}
    (hchild : ∀ place, P place → ∀ child ∈ place.children, P child) {above : List Tree}
    (tree : Tree) (h : P ⟨tree, above⟩) :
    ∀ place ∈ tree.walkFrom (fun _ => true) above, P place := by
  match tree with
  | .node label children =>
    rw [walkFrom, if_pos rfl]
    refine List.forall_mem_cons.2 ⟨h, walkEach_induction hchild children fun node hnode => ?_⟩
    exact hchild _ h _ (List.mem_map_of_mem hnode)

theorem walkEach_induction {P : Place → Prop}
    (hchild : ∀ place, P place → ∀ child ∈ place.children, P child) {above : List Tree}
    (trees : List Tree) (h : ∀ tree ∈ trees, P ⟨tree, above⟩) :
    ∀ place ∈ walkEach (fun _ => true) above trees, P place := by
  match trees with
  | [] => exact nofun
  | tree :: rest =>
    obtain ⟨htree, hrest⟩ := List.forall_mem_cons.1 h
    rw [walkEach]
    intro place hplace
    rcases List.mem_append.1 hplace with hplace | hplace
    · exact walkFrom_induction hchild tree htree place hplace
    · exact walkEach_induction hchild rest hrest place hplace

end

/-- What holds of the root and passes from every place to its children holds of all places. -/
theorem places_induction {tree : Tree} {P : Place → Prop} (hroot : P ⟨tree, []⟩)
    (hchild : ∀ place ∈ tree.places, P place → ∀ child ∈ place.children, P child) :
    ∀ place ∈ tree.places, P place := by
  have hboth : ∀ place ∈ tree.places, place ∈ tree.places ∧ P place := by
    refine walkFrom_induction ?_ tree ⟨tree.root_mem_places, hroot⟩
    rintro place ⟨hplace, hp⟩ child hc
    exact ⟨child_mem_places hplace hc, hchild place hplace hp child hc⟩
  exact fun place hplace => (hboth place hplace).2

/-- The parent of a place is a place of the tree and has it among its children. -/
theorem parent_mem_places {tree : Tree} {place parent : Place} (h : place ∈ tree.places)
    (hparent : place.parent? = some parent) :
    parent ∈ tree.places ∧ place ∈ parent.children := by
  have hall : ∀ place ∈ tree.places, ∀ parent, place.parent? = some parent →
      parent ∈ tree.places ∧ place ∈ parent.children := by
    refine places_induction nofun ?_
    intro above habove _ child hchild parent hparent
    obtain ⟨node, hnode, rfl⟩ := List.mem_map.1 hchild
    cases hparent
    exact ⟨habove, hchild⟩
  exact hall place h parent hparent

/-- The nodes above a place are nodes of the tree. -/
theorem exists_place_of_mem_above {tree : Tree} {place : Place} (h : place ∈ tree.places)
    {node : Tree} (hnode : node ∈ place.above) : ∃ higher ∈ tree.places, higher.node = node := by
  have hall : ∀ place ∈ tree.places, ∀ node ∈ place.above, ∃ higher ∈ tree.places,
      higher.node = node := by
    refine places_induction nofun ?_
    intro parent hparent ih child hchild node hnode
    obtain ⟨_, -, rfl⟩ := List.mem_map.1 hchild
    rcases List.mem_cons.1 hnode with rfl | hnode
    · exact ⟨parent, hparent, rfl⟩
    · exact ih node hnode
  exact hall place h node hnode

/-! ## Visits in line -/

theorem walkEach_eq_flatMap (keep : Tree → Bool) (above trees : List Tree) :
    walkEach keep above trees = trees.flatMap (walkFrom keep above) := by
  induction trees with
  | nil => rw [walkEach, List.flatMap_nil]
  | cons tree rest ih => rw [walkEach, List.flatMap_cons, ih]

theorem flatMap_walkFrom_children (keep : Tree → Bool) (place : Place) :
    place.children.flatMap (fun child => child.node.walkFrom keep child.above) =
      walkEach keep (place.node :: place.above) place.node.children := by
  rw [walkEach_eq_flatMap, Place.children, List.flatMap_map]

/-- The places in line are visited one after the other, each with all that is kept below it. -/
theorem visit_eq_flatMap (keep : Tree → Bool) (waiting : List Place) :
    visit keep waiting = waiting.flatMap fun place => place.node.walkFrom keep place.above := by
  induction waiting using visit.induct keep with
  | case1 => rw [visit, List.flatMap_nil]
  | case2 place waiting hkeep ih =>
    rw [visit, if_pos hkeep, ih, List.flatMap_append, flatMap_walkFrom_children, List.flatMap_cons]
    obtain ⟨⟨label, children⟩, above⟩ := place
    rw [walkFrom, if_pos hkeep]
    rfl
  | case3 place waiting hkeep ih =>
    rw [visit, if_neg hkeep, ih, List.flatMap_cons]
    obtain ⟨⟨label, children⟩, above⟩ := place
    rw [walkFrom, if_neg hkeep, List.nil_append]

/-- The walk through all of a tree visits its places in pre-order. -/
theorem walk_none (tree : Tree) : tree.walk none = tree.places := by
  rw [walk, visit_eq_flatMap, List.flatMap_singleton, places]

/-! ## Descents and climbs -/

theorem descendFrom_eq (byte : Int) (above : List Tree) (tree : Tree) :
    tree.descendFrom byte above =
      (descendInto byte (tree :: above) tree.children).getD ⟨tree, above⟩ := by
  cases tree
  rw [descendFrom]
  rfl

mutual

theorem descendFrom_mem (byte : Int) (above : List Tree) (tree : Tree) :
    tree.descendFrom byte above ∈ tree.walkFrom (fun _ => true) above := by
  match tree with
  | .node label children =>
    rw [descendFrom, walkFrom, if_pos rfl]
    cases hinto : descendInto byte (.node label children :: above) children with
    | none => exact List.mem_cons_self
    | some place => exact List.mem_cons_of_mem _ (descendInto_mem byte _ children place hinto)

theorem descendInto_mem (byte : Int) (above : List Tree) (trees : List Tree) (place : Place)
    (h : descendInto byte above trees = some place) :
    place ∈ walkEach (fun _ => true) above trees := by
  match trees with
  | [] => simp [descendInto] at h
  | tree :: rest =>
    rw [descendInto] at h
    rw [walkEach, List.mem_append]
    split at h
    · exact .inr (descendInto_mem byte above rest place h)
    · split at h
      · cases h
      · cases h
        exact .inl (descendFrom_mem byte above tree)

end

theorem descend_mem_places (tree : Tree) (byte : Int) : tree.descend byte ∈ tree.places :=
  descendFrom_mem byte [] tree

theorem climb_mem_places {tree : Tree} {place : Place} (h : place ∈ tree.places) (byte : Int) :
    place.climb byte ∈ tree.places := by
  obtain ⟨node, above⟩ := place
  induction above generalizing node with
  | nil => exact h
  | cons parent above ih =>
    cases above with
    | nil => exact h
    | cons next above =>
      rw [Place.climb, Place.climbFrom]
      split
      · exact ih parent (parent_mem_places h rfl).1
      · exact h

/-- A climb that moves ends at a node that starts at the byte. -/
theorem start_climb (place : Place) (byte : Int) :
    (place.climb byte).start = place.start ∨ ((place.climb byte).start : Int) = byte := by
  obtain ⟨node, above⟩ := place
  induction above generalizing node with
  | nil => exact .inl rfl
  | cons parent above ih =>
    cases above with
    | nil => exact .inl rfl
    | cons next above =>
      rw [Place.climb, Place.climbFrom]
      split
      next hstart =>
        rcases ih parent with hsame | hbyte
        · exact .inr ((congrArg Nat.cast hsame).trans hstart)
        · exact .inr hbyte
      next => exact .inl rfl

/-! ## Orderly trees -/

/-- No node is empty, and children lie inside their parents. -/
structure Orderly (tree : Tree) : Prop where
  filled : ∀ place ∈ tree.places, place.start < place.stop
  nested : ∀ place ∈ tree.places, ∀ child ∈ place.children,
    place.start ≤ child.start ∧ child.stop ≤ place.stop

theorem Orderly.parent_start_le {tree : Tree} (h : tree.Orderly) {place parent : Place}
    (hplace : place ∈ tree.places) (hparent : place.parent? = some parent) :
    parent.start ≤ place.start := by
  obtain ⟨hmem, hchild⟩ := parent_mem_places hplace hparent
  exact (h.nested parent hmem place hchild).1

end Tree

end TreeRules
