import TreeRules.Document

/-! # Where names stand

The name of a definition is the text of one of its children: under a field, or by number. Numbers
can be negative and then count from the last child.
-/
namespace TreeRules

/-- The child that holds the name of a node. -/
inductive NameSource where
  /-- The child under a field; the name of the field is not checked when rules are read. -/
  | field (name : Value)
  /-- The child with a number. -/
  | child (number : Int)
  /-- The named child with a number. -/
  | namedChild (number : Int)
  deriving Inhabited

namespace NameSource

/-- Where a name stands if nothing else is said. -/
def standard : NameSource := .field (.text "name")

/-- The item with a number. A number past the end names nothing; one before the start is an
error. -/
def pick (items : List Place) (number : Int) : Outcome (Option Place) :=
  if number < items.length then
    match Slice.item? items number with
    | some place => .ok (some place)
    | none => .error .outOfRange
  else .ok none

/-- The child of a node that holds its name. -/
def find (place : Place) : NameSource → Outcome (Option Place)
  | .field (.text name) => .ok (place.childAt? name)
  | .field .null => .ok none
  | .field _ => .error .wrongKind
  | .child number => pick place.children number
  | .namedChild number => pick place.namedChildren number

end NameSource

end TreeRules
