import Mathlib.Data.List.Infix
import Mathlib.Tactic.Common
import TreeRules.Proofs.Tree.Places

/-! # The walk through a range

A node is found from the root by the numbers of the children on the way down to it. In the order of
words, these paths list a node before what is below it, and what is below a child before what is
below the next one. The walk through all of a tree comes by the nodes in that order. The walk
through a range leaves out what is below a node that does not touch it. Where children lie inside
their parents nothing there touches the range, so only nodes that do not are left out.
-/
namespace TreeRules

namespace Place

/-- The place that is reached by going down to the children with the given numbers. -/
def follow? (place : Place) : List Nat → Option Place
  | [] => some place
  | number :: path => place.children[number]?.bind (·.follow? path)

theorem follow?_cons {node : Tree} {above : List Tree} {number : Nat} {child : Tree}
    (h : node.children[number]? = some child) (path : List Nat) :
    (⟨node, above⟩ : Place).follow? (number :: path) =
      (⟨child, node :: above⟩ : Place).follow? path := by
  simp [follow?, children, h]

end Place

namespace Tree

open Place

/-! ## Paths -/

mutual

/-- The paths from a node to all that is below it and to itself. -/
def paths : Tree → List (List Nat)
  | .node _ children => [] :: pathsFrom 0 children

/-- The paths from a node through some of its children, from a number on. -/
def pathsFrom (number : Nat) : List Tree → List (List Nat)
  | [] => []
  | tree :: rest => tree.paths.map (number :: ·) ++ pathsFrom (number + 1) rest

end

theorem mem_pathsFrom_iff {number : Nat} {trees : List Tree} {path : List Nat} :
    path ∈ pathsFrom number trees ↔ ∃ place tree below,
      trees[place]? = some tree ∧ below ∈ tree.paths ∧ path = (number + place) :: below := by
  induction trees generalizing number with
  | nil => simp [pathsFrom]
  | cons tree rest ih =>
    rw [pathsFrom, List.mem_append, List.mem_map, ih]
    constructor
    · rintro (⟨below, hbelow, rfl⟩ | ⟨place, next, below, hnext, hbelow, rfl⟩)
      · exact ⟨0, tree, below, rfl, hbelow, rfl⟩
      · exact ⟨place + 1, next, below, hnext, hbelow, by rw [Nat.add_right_comm, Nat.add_assoc]⟩
    · rintro ⟨place, next, below, hnext, hbelow, rfl⟩
      cases place with
      | zero =>
        cases hnext
        exact .inl ⟨below, hbelow, rfl⟩
      | succ place =>
        exact .inr ⟨place, next, below, hnext, hbelow, by rw [Nat.add_right_comm, Nat.add_assoc]⟩

-- Below one child the paths increase with what follows its number, and the numbers of later
-- children are greater.
mutual

theorem paths_increasing (tree : Tree) : tree.paths.Pairwise (· < ·) := by
  match tree with
  | .node label children =>
    rw [paths]
    refine List.pairwise_cons.2 ⟨?_, pathsFrom_increasing 0 children⟩
    intro path hpath
    obtain ⟨_, _, below, -, -, rfl⟩ := mem_pathsFrom_iff.1 hpath
    exact List.nil_lt_cons _ below

theorem pathsFrom_increasing (number : Nat) (trees : List Tree) :
    (pathsFrom number trees).Pairwise (· < ·) := by
  match trees with
  | [] =>
    rw [pathsFrom]
    exact List.Pairwise.nil
  | tree :: rest =>
    rw [pathsFrom]
    refine List.pairwise_append.2 ⟨?_, pathsFrom_increasing (number + 1) rest, ?_⟩
    · refine List.pairwise_map.2 ((paths_increasing tree).imp ?_)
      intro path later hlt
      exact List.cons_lt_cons_iff.2 (.inr ⟨rfl, hlt⟩)
    · intro path hpath later hlater
      obtain ⟨below, -, rfl⟩ := List.mem_map.1 hpath
      obtain ⟨place, _, _, -, -, rfl⟩ := mem_pathsFrom_iff.1 hlater
      exact List.cons_lt_cons_iff.2 (.inl (by omega))

end

-- The walk and the list of paths are made alike, so each path leads to the place that stands where
-- it stands.
mutual

theorem follow?_paths (above : List Tree) (tree : Tree) :
    tree.paths.map (follow? ⟨tree, above⟩) =
      (tree.walkFrom (fun _ => true) above).map some := by
  match tree with
  | .node label children =>
    rw [paths, walkFrom, if_pos rfl, List.map_cons, List.map_cons]
    exact congrArg _ (follow?_pathsFrom above (.node label children) [] children rfl)

theorem follow?_pathsFrom (above : List Tree) (node : Tree) (front trees : List Tree)
    (h : node.children = front ++ trees) :
    (pathsFrom front.length trees).map (follow? ⟨node, above⟩) =
      (walkEach (fun _ => true) (node :: above) trees).map some := by
  match trees with
  | [] => rw [pathsFrom, walkEach, List.map_nil, List.map_nil]
  | tree :: rest =>
    have hchild : node.children[front.length]? = some tree := by simp [h]
    have hrest := follow?_pathsFrom above node (front ++ [tree]) rest (by simp [h])
    rw [List.length_append, List.length_singleton] at hrest
    rw [pathsFrom, walkEach, List.map_append, List.map_append, hrest, List.map_map,
      ← follow?_paths (node :: above) tree]
    refine congrArg (· ++ _) (List.map_congr_left fun path _ => ?_)
    exact follow?_cons hchild path

end

theorem mem_paths_of_follow? {tree : Tree} {above : List Tree} {path : List Nat} {place : Place}
    (h : (⟨tree, above⟩ : Place).follow? path = some place) : path ∈ tree.paths := by
  induction path generalizing tree above with
  | nil =>
    cases tree
    rw [paths]
    exact List.mem_cons_self
  | cons number path ih =>
    obtain ⟨child, hchild, hfollow⟩ := Option.bind_eq_some_iff.1 h
    rw [Place.children, List.getElem?_map] at hchild
    obtain ⟨node, hnode, rfl⟩ := Option.map_eq_some_iff.1 hchild
    cases tree with
    | node label children =>
      rw [paths]
      refine List.mem_cons_of_mem _ (mem_pathsFrom_iff.2 ⟨number, node, path, hnode, ?_, ?_⟩)
      · exact ih hfollow
      · rw [Nat.zero_add]

/-- Places are those of a whole tree, each once and in pre-order: the paths to them increase, and
are all the paths that lead to a node of the tree. -/
def PreOrder (tree : Tree) (places : List Place) : Prop :=
  ∃ paths : List (List Nat), paths.Pairwise (· < ·) ∧
    (∀ path, path ∈ paths ↔ ((⟨tree, []⟩ : Place).follow? path).isSome) ∧
    paths.map (follow? ⟨tree, []⟩) = places.map some

theorem preOrder_places (tree : Tree) : tree.PreOrder tree.places := by
  have hplaces := follow?_paths [] tree
  refine ⟨tree.paths, tree.paths_increasing, ?_, hplaces⟩
  intro path
  constructor
  · intro hpath
    have hmem : follow? ⟨tree, []⟩ path ∈ tree.places.map some :=
      hplaces ▸ List.mem_map_of_mem hpath
    obtain ⟨place, -, hplace⟩ := List.mem_map.1 hmem
    rw [← hplace]
    rfl
  · intro hsome
    obtain ⟨place, hplace⟩ := Option.isSome_iff_exists.1 hsome
    exact mem_paths_of_follow? hplace

/-! ## Leaving out parts of the tree -/

theorem filter_walkFrom_eq_nil {keep : Tree → Bool} {above : List Tree} {tree : Tree}
    (h : ∀ place ∈ tree.walkFrom (fun _ => true) above, ∀ child ∈ place.children,
      keep child.node = true → keep place.node = true)
    (hroot : keep tree ≠ true) :
    (tree.walkFrom (fun _ => true) above).filter (fun place => keep place.node) = [] := by
  have hself : (⟨tree, above⟩ : Place) ∈ tree.walkFrom (fun _ => true) above := by
    cases tree
    rw [walkFrom, if_pos rfl]
    exact List.mem_cons_self
  have hnone : ∀ place ∈ tree.walkFrom (fun _ => true) above,
      place ∈ tree.walkFrom (fun _ => true) above ∧ keep place.node ≠ true := by
    refine walkFrom_induction ?_ tree ⟨hself, hroot⟩
    rintro place ⟨hplace, hleft⟩ child hchild
    refine ⟨child_mem_walkFrom tree hplace hchild, ?_⟩
    exact fun hkeep => hleft (h place hplace child hchild hkeep)
  exact List.filter_eq_nil_iff.2 fun place hplace => (hnone place hplace).2

-- If a node is left out, so would be all that is below it; the walk saves itself the way.
mutual

/-- Where a node is kept with any of its children, leaving out whole subtrees only leaves out what
is not kept. -/
theorem walkFrom_eq_filter {keep : Tree → Bool} {above : List Tree} (tree : Tree)
    (h : ∀ place ∈ tree.walkFrom (fun _ => true) above, ∀ child ∈ place.children,
      keep child.node = true → keep place.node = true) :
    tree.walkFrom keep above =
      (tree.walkFrom (fun _ => true) above).filter fun place => keep place.node := by
  match tree with
  | .node label children =>
    by_cases hkeep : keep (.node label children) = true
    · rw [walkFrom, if_pos rfl] at h
      rw [walkFrom, if_pos hkeep, walkFrom, if_pos rfl, List.filter_cons, if_pos hkeep]
      refine congrArg _ (walkEach_eq_filter children ?_)
      exact fun place hplace => h place (List.mem_cons_of_mem _ hplace)
    · rw [filter_walkFrom_eq_nil h hkeep, walkFrom, if_neg hkeep]

theorem walkEach_eq_filter {keep : Tree → Bool} {above : List Tree} (trees : List Tree)
    (h : ∀ place ∈ walkEach (fun _ => true) above trees, ∀ child ∈ place.children,
      keep child.node = true → keep place.node = true) :
    walkEach keep above trees =
      (walkEach (fun _ => true) above trees).filter fun place => keep place.node := by
  match trees with
  | [] => rw [walkEach, walkEach, List.filter_nil]
  | tree :: rest =>
    rw [walkEach] at h
    rw [walkEach, walkEach, List.filter_append]
    refine congrArg₂ _ (walkFrom_eq_filter tree ?_) (walkEach_eq_filter rest ?_)
    · exact fun place hplace => h place (List.mem_append_left _ hplace)
    · exact fun place hplace => h place (List.mem_append_right _ hplace)

end

/-! ## Ranges -/

/-- Children lie inside their parents. -/
def Nested (tree : Tree) : Prop :=
  ∀ place ∈ tree.places, ∀ child ∈ place.children,
    place.start ≤ child.start ∧ child.stop ≤ place.stop

instance (tree : Tree) : Decidable tree.Nested :=
  inferInstanceAs (Decidable (∀ place ∈ tree.places, ∀ child ∈ place.children,
    place.start ≤ child.start ∧ child.stop ≤ place.stop))

theorem touches_iff {start stop : Int} {tree : Tree} :
    tree.touches start stop = true ↔ start ≤ tree.stop ∧ (tree.start : Int) ≤ stop := by
  simp [touches]

/-- What touches a range makes its parent touch it. -/
theorem Nested.touches_parent {tree : Tree} (h : tree.Nested) {start stop : Int}
    {place child : Place} (hplace : place ∈ tree.places) (hchild : child ∈ place.children)
    (htouches : child.node.touches start stop = true) : place.node.touches start stop = true := by
  obtain ⟨hstart, hstop⟩ := h place hplace child hchild
  obtain ⟨hbefore, hafter⟩ := touches_iff.1 htouches
  change place.node.start ≤ child.node.start at hstart
  change child.node.stop ≤ place.node.stop at hstop
  exact touches_iff.2 ⟨by omega, by omega⟩

/-- The walk without a range comes by every node of a tree once and in pre-order. In a tree whose
children lie inside their parents, the walk through a range comes by those of them that end at its
start or later and start at its end or before, in the same order. -/
theorem walk_range {tree : Tree} (h : tree.Nested) (start stop : Int) :
    tree.PreOrder (tree.walk none) ∧
      tree.walk (some (start, stop)) =
        (tree.walk none).filter fun place => start ≤ place.stop ∧ (place.start : Int) ≤ stop := by
  rw [walk_none]
  refine ⟨tree.preOrder_places, ?_⟩
  have hkept : tree.walk (some (start, stop)) =
      tree.places.filter fun place => place.node.touches start stop := by
    rw [walk, visit_eq_flatMap, List.flatMap_singleton]
    exact walkFrom_eq_filter tree fun place hplace child hchild => h.touches_parent hplace hchild
  rw [hkept]
  refine List.filter_congr fun place _ => ?_
  exact Bool.eq_iff_iff.2 (touches_iff.trans decide_eq_true_iff.symm)

/-- A word, an empty node right behind it, and a pair of words further on. -/
def spacedTree : Tree :=
  let leaf (id start stop : Nat) : Tree := .node ⟨id, "word", start, stop, true, none, false⟩ []
  .node ⟨0, "list", 0, 8, true, none, false⟩
    [leaf 1 0 2, leaf 2 2 2, .node ⟨3, "pair", 3, 8, true, none, false⟩ [leaf 4 3 5, leaf 5 6 8]]

/-- An empty node on the end of a range is visited, and a pair behind the range is not. -/
theorem walk_range_gap : spacedTree.Nested ∧ spacedTree.PreOrder (spacedTree.walk none) ∧
    (spacedTree.walk (some (2, 2))).map Place.id = [0, 1, 2] ∧
    (spacedTree.walk (some (5, 5))).map Place.id = [0, 3, 4] := by
  have h : spacedTree.Nested := by decide
  obtain ⟨hall, hbehind⟩ := walk_range h 2 2
  refine ⟨h, hall, ?_, ?_⟩
  · rw [hbehind, walk_none]
    decide
  · rw [(walk_range h 5 5).2, walk_none]
    decide

end Tree

end TreeRules
