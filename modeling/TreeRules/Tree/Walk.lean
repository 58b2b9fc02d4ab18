import TreeRules.Tree.Basic

/-! # Walking and searching trees

The walk visits every node before its children, and children from left to right; a part of the tree
can be left out. The places that it has still to visit wait in a line. The descent follows one
position from the root down. The climb goes up again as long as the nodes start at the same
position.
-/
namespace TreeRules

namespace Tree

mutual

/-- The places of a tree in pre-order, without the subtrees whose root is not kept. -/
def walkFrom (keep : Tree → Bool) (above : List Tree) : Tree → List Place
  | .node label children =>
    if keep (.node label children) then
      ⟨.node label children, above⟩ :: walkEach keep (.node label children :: above) children
    else []

/-- The places of several trees below the same nodes. -/
def walkEach (keep : Tree → Bool) (above : List Tree) : List Tree → List Place
  | [] => []
  | tree :: rest => walkFrom keep above tree ++ walkEach keep above rest

end

def places (root : Tree) : List Place := root.walkFrom (fun _ => true) []

/-- Whether a node touches a range of bytes, ends included. -/
def touches (start stop : Int) (tree : Tree) : Bool :=
  !((tree.stop : Int) < start || stop < (tree.start : Int))

mutual

/-- The number of nodes of a tree. -/
def nodes : Tree → Nat
  | .node _ children => nodesOf children + 1

def nodesOf : List Tree → Nat
  | [] => 0
  | tree :: rest => nodes tree + nodesOf rest

end

theorem nodesOf_append (front back : List Tree) :
    nodesOf (front ++ back) = nodesOf front + nodesOf back := by
  induction front with
  | nil => simp [nodesOf]
  | cons tree rest ih =>
    simp only [List.cons_append, nodesOf, ih]
    omega

theorem nodes_eq (tree : Tree) : tree.nodes = nodesOf tree.children + 1 := by
  cases tree with
  | node label children => rw [nodes, Tree.children]

theorem map_node_children (place : Place) : place.children.map (·.node) = place.node.children := by
  simp [Place.children, Function.comp_def]

/-- Visits places that wait in line. If the first one is kept, its children take its place in the
line. -/
def visit (keep : Tree → Bool) : List Place → List Place
  | [] => []
  | place :: waiting =>
    if keep place.node then place :: visit keep (place.children ++ waiting)
    else visit keep waiting
termination_by waiting => nodesOf (waiting.map (·.node))
decreasing_by
  all_goals rw [List.map_cons, nodesOf, nodes_eq]
  · rw [List.map_append, map_node_children, nodesOf_append]
    omega
  · omega

/-- The places of a tree as they are visited from the root on; with a range, only those that touch
it, and not those below a node that does not. -/
def walk (root : Tree) : Option (Int × Int) → List Place
  | none => visit (fun _ => true) [⟨root, []⟩]
  | some (start, stop) => visit (touches start stop) [⟨root, []⟩]

/-- Whether a descent to a byte passes a node by: it ends at the byte or before it, and a node
without bytes only if it ends before it. -/
def passedBy (byte : Int) (tree : Tree) : Bool :=
  if tree.start = tree.stop then (tree.stop : Int) < byte else (tree.stop : Int) ≤ byte

mutual

/-- The lowest place reached by going down towards a byte. -/
def descendFrom (byte : Int) (above : List Tree) : Tree → Place
  | .node label children =>
    (descendInto byte (.node label children :: above) children).getD ⟨.node label children, above⟩

/-- The descent into the first child that is not passed by, unless it starts after the byte. -/
def descendInto (byte : Int) (above : List Tree) : List Tree → Option Place
  | [] => none
  | child :: rest =>
    if child.passedBy byte then descendInto byte above rest
    else if byte < (child.start : Int) then none
    else some (descendFrom byte above child)

end

/-- The lowest place reached from the root by going down towards a byte. -/
def descend (root : Tree) (byte : Int) : Place := root.descendFrom byte []

end Tree

namespace Place

/-- Goes up from a node to its parent as long as that is not the root and starts at a byte. -/
def climbFrom (byte : Int) (node : Tree) : List Tree → Place
  | [] => ⟨node, []⟩
  | [root] => ⟨node, [root]⟩
  | parent :: next :: above =>
    if (parent.start : Int) = byte then climbFrom byte parent (next :: above)
    else ⟨node, parent :: next :: above⟩

/-- The highest place below the root that is reached from a node by parents that start at a byte. -/
def climb (place : Place) (byte : Int) : Place := climbFrom byte place.node place.above

end Place

end TreeRules
