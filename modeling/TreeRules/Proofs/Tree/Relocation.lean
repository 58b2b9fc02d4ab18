import TreeRules.Proofs.Tree.Places

/-! # Trees whose offsets move

Moving the starts and ends of all nodes changes nothing in the shape of a tree. A descent towards a
byte, and a climb back, take the same way in the moved tree towards the moved byte, as long as every
node stands to the one byte as its image stands to the other.
-/
namespace TreeRules

namespace Tree

mutual

/-- A tree with all its offsets moved. -/
def relocate (move : Nat → Nat) : Tree → Tree
  | .node label children =>
    .node { label with start := move label.start, stop := move label.stop }
      (relocateEach move children)

def relocateEach (move : Nat → Nat) : List Tree → List Tree
  | [] => []
  | tree :: rest => tree.relocate move :: relocateEach move rest

end

variable {move : Nat → Nat}

theorem relocateEach_eq_map (trees : List Tree) :
    relocateEach move trees = trees.map (relocate move) := by
  induction trees with
  | nil => rw [relocateEach, List.map_nil]
  | cons tree rest ih => rw [relocateEach, List.map_cons, ih]

theorem label_relocate (tree : Tree) : (tree.relocate move).label =
    { tree.label with start := move tree.start, stop := move tree.stop } := by
  cases tree
  rw [relocate]
  rfl

@[simp] theorem start_relocate (tree : Tree) : (tree.relocate move).start = move tree.start := by
  rw [start, label_relocate]

@[simp] theorem stop_relocate (tree : Tree) : (tree.relocate move).stop = move tree.stop := by
  rw [stop, label_relocate]

@[simp] theorem kind_relocate (tree : Tree) : (tree.relocate move).kind = tree.kind := by
  rw [kind, label_relocate]
  rfl

@[simp] theorem field_relocate (tree : Tree) : (tree.relocate move).field = tree.field := by
  rw [field, label_relocate]
  rfl

@[simp] theorem children_relocate (tree : Tree) :
    (tree.relocate move).children = tree.children.map (relocate move) := by
  cases tree
  rw [relocate, children, relocateEach_eq_map]
  rfl

end Tree

namespace Place

def relocate (move : Nat → Nat) (place : Place) : Place :=
  ⟨place.node.relocate move, place.above.map (Tree.relocate move)⟩

variable {move : Nat → Nat}

@[simp] theorem start_relocate (place : Place) : (place.relocate move).start = move place.start :=
  place.node.start_relocate

@[simp] theorem stop_relocate (place : Place) : (place.relocate move).stop = move place.stop :=
  place.node.stop_relocate

@[simp] theorem kind_relocate (place : Place) : (place.relocate move).kind = place.kind :=
  place.node.kind_relocate

@[simp] theorem parent?_relocate (place : Place) :
    (place.relocate move).parent? = place.parent?.map (relocate move) := by
  obtain ⟨node, above⟩ := place
  cases above <;> rfl

@[simp] theorem children_relocate (place : Place) :
    (place.relocate move).children = place.children.map (relocate move) := by
  simp [children, relocate, Function.comp_def]

@[simp] theorem field?_relocate (place : Place) : (place.relocate move).field? = place.field? := by
  obtain ⟨node, above⟩ := place
  cases above with
  | nil => rfl
  | cons parent above => exact node.field_relocate

@[simp] theorem childAt?_relocate (place : Place) (field : String) :
    (place.relocate move).childAt? field = (place.childAt? field).map (relocate move) := by
  have hfield : (fun child : Place => (child.relocate move).node.field == some field) =
      fun child => child.node.field == some field := by
    funext child
    exact congrArg (· == some field) child.node.field_relocate
  rw [childAt?, childAt?, children_relocate, List.find?_map, Function.comp_def, hfield]

end Place

namespace Tree

/-- A node stands to a byte as the moved node stands to another, and neither is empty. -/
structure Tracks (move : Nat → Nat) (byte moved : Nat) (node : Tree) : Prop where
  start_lt : move node.start < moved ↔ node.start < byte
  lt_start : moved < move node.start ↔ byte < node.start
  lt_stop : moved < move node.stop ↔ byte < node.stop
  filled : node.start ≠ node.stop
  moved_filled : move node.start ≠ move node.stop

variable {move : Nat → Nat} {byte moved : Nat}

theorem Tracks.passedBy_relocate {node : Tree} (h : Tracks move byte moved node) :
    (node.relocate move).passedBy moved = node.passedBy byte := by
  have hstop := h.lt_stop
  simp only [passedBy, start_relocate, stop_relocate, h.filled, h.moved_filled, if_false,
    Int.ofNat_le, decide_eq_decide]
  omega

-- Every step of the descent asks two questions of a child, and the moved child answers both alike.
mutual

theorem descendFrom_relocate (above : List Tree) (tree : Tree)
    (h : ∀ place ∈ tree.walkFrom (fun _ => true) above, Tracks move byte moved place.node) :
    (tree.relocate move).descendFrom moved (above.map (relocate move)) =
      (tree.descendFrom byte above).relocate move := by
  match tree with
  | .node label children =>
    rw [walkFrom, if_pos rfl] at h
    have hinto := descendInto_relocate (.node label children :: above) children
      (List.forall_mem_cons.1 h).2
    rw [List.map_cons] at hinto
    rw [descendFrom_eq, descendFrom_eq, children_relocate, Tree.children, hinto]
    cases descendInto byte (.node label children :: above) children with
    | none => rfl
    | some place => rfl

theorem descendInto_relocate (above : List Tree) (trees : List Tree)
    (h : ∀ place ∈ walkEach (fun _ => true) above trees, Tracks move byte moved place.node) :
    descendInto moved (above.map (relocate move)) (trees.map (relocate move)) =
      (descendInto byte above trees).map (Place.relocate move) := by
  match trees with
  | [] => rw [List.map_nil, descendInto, descendInto, Option.map_none]
  | tree :: rest =>
    rw [walkEach] at h
    have hself : Tracks move byte moved tree := by
      refine h ⟨tree, above⟩ (List.mem_append_left _ ?_)
      cases tree
      rw [walkFrom, if_pos rfl]
      exact List.mem_cons_self
    have hrest := descendInto_relocate above rest fun place hplace =>
      h place (List.mem_append_right _ hplace)
    have hfrom := descendFrom_relocate above tree fun place hplace =>
      h place (List.mem_append_left _ hplace)
    have hstart : (moved : Int) < (move tree.start : Int) ↔ (byte : Int) < (tree.start : Int) := by
      rw [Int.ofNat_lt, Int.ofNat_lt]
      exact hself.lt_start
    rw [List.map_cons, descendInto, descendInto, hself.passedBy_relocate, start_relocate,
      if_congr hstart rfl rfl, hfrom, hrest]
    split
    · rfl
    · split <;> rfl

end

theorem descend_relocate {tree : Tree}
    (h : ∀ place ∈ tree.places, Tracks move byte moved place.node) :
    (tree.relocate move).descend moved = (tree.descend byte).relocate move :=
  descendFrom_relocate [] tree h

theorem climb_relocate {place : Place} (h : ∀ node ∈ place.above, Tracks move byte moved node) :
    (place.relocate move).climb moved = (place.climb byte).relocate move := by
  obtain ⟨node, above⟩ := place
  induction above generalizing node with
  | nil => rfl
  | cons parent above ih =>
    cases above with
    | nil => rfl
    | cons next above =>
      obtain ⟨hparent, hrest⟩ := List.forall_mem_cons.1 h
      have hstart : ((move parent.start : Nat) : Int) = (moved : Int) ↔
          (parent.start : Int) = (byte : Int) := by
        have hlt := hparent.start_lt
        have hgt := hparent.lt_start
        omega
      have hup := ih parent hrest
      simp only [Place.climb, Place.relocate, List.map_cons, Place.climbFrom, start_relocate]
        at hup ⊢
      rw [if_congr hstart rfl rfl, hup]
      split <;> rfl

end Tree

end TreeRules
