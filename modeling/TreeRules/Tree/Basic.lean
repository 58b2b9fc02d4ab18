import TreeRules.Error

/-! # Syntax trees

A tree is a node with its children. A place is a node of a tree together with the nodes above it, so
that the parent of a node is at hand; two places are the same if their nodes have the same number.
-/
namespace TreeRules

/-- What is known of a node besides its children. -/
structure Label where
  /-- The number of the node in pre-order. -/
  id : Nat
  kind : String
  start : Nat
  stop : Nat
  named : Bool
  /-- The field of the parent in which the node stands. -/
  field : Option String
  /-- Whether the node was changed after it was parsed. -/
  changed : Bool
  deriving DecidableEq, Repr, Inhabited

/-- A node with its children. -/
inductive Tree where
  | node (label : Label) (children : List Tree)
  deriving Inhabited

namespace Tree

def label : Tree → Label
  | .node label _ => label

def children : Tree → List Tree
  | .node _ children => children

def id (tree : Tree) : Nat := tree.label.id
def kind (tree : Tree) : String := tree.label.kind
def start (tree : Tree) : Nat := tree.label.start
def stop (tree : Tree) : Nat := tree.label.stop
def field (tree : Tree) : Option String := tree.label.field

end Tree

/-- A node and the nodes above it, nearest first. -/
structure Place where
  node : Tree
  above : List Tree
  deriving Inhabited

namespace Place

def id (place : Place) : Nat := place.node.id
def kind (place : Place) : String := place.node.kind
def start (place : Place) : Nat := place.node.start
def stop (place : Place) : Nat := place.node.stop

def parent? (place : Place) : Option Place :=
  match place.above with
  | [] => none
  | parent :: above => some ⟨parent, above⟩

def children (place : Place) : List Place :=
  place.node.children.map fun child => ⟨child, place.node :: place.above⟩

def namedChildren (place : Place) : List Place :=
  place.children.filter (·.node.label.named)

def childAt? (place : Place) (field : String) : Option Place :=
  place.children.find? (·.node.field == some field)

/-- The field under which a node hangs off its parent. -/
def field? (place : Place) : Option String :=
  match place.above with
  | [] => none
  | _ :: _ => place.node.field

/-- The children of a node's parent that stand before it. -/
def before (place : Place) : List Place :=
  match place.parent? with
  | some parent => parent.children.takeWhile (·.id != place.id)
  | none => []

/-- The child of a node's parent that stands right before it. -/
def previous? (place : Place) : Option Place := place.before.getLast?

/-- A node with all the nodes above it, from the inside out. -/
def upwards (place : Place) : List Place := go place.node place.above
where
  go (node : Tree) : List Tree → List Place
    | [] => [⟨node, []⟩]
    | parent :: above => ⟨node, parent :: above⟩ :: go parent above

end Place

end TreeRules
