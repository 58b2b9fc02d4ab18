import TreeRules.Document

/-! # Targets

What a predicate is asked of: a node, or the start of a line. The target of a line is the largest
node below the root that starts with the line, together with its parent. On a blank line, and inside
a node that goes on over several lines, there is no node, and the parent is the smallest node
around.
-/
namespace TreeRules

/-- A node or the start of a line. -/
structure Target where
  node : Option Place
  parent : Option Place
  /-- The first byte of the line that is no margin. -/
  ink : Option Int := none
  row : Option Int := none

namespace Target

def grandparent (target : Target) : Option Place := target.parent.bind Place.parent?

def ofNode (doc : Document) (place : Place) : Target :=
  let row := doc.rowOf place
  { node := some place, parent := place.parent?, ink := some (doc.source.rowInk row),
    row := some row }

/-- The target of a row that is there. -/
def ofRowAt (doc : Document) (row : Nat) : Target :=
  let ink := doc.source.rowInk row
  let around (parent : Option Place) : Target :=
    { node := none, parent := parent, ink := some ink, row := some row }
  if doc.source.isBlank then around none
  else
    let smallest := doc.tree.descend ink
    if ink = doc.source.rowStop row ∨ smallest.start < ink then around (some smallest)
    else
      let largest := smallest.climb ink
      { node := some largest, parent := largest.parent?, ink := some ink, row := some row }

def ofRow (doc : Document) (row : Int) : Outcome Target :=
  (doc.source.checkRow row).map fun _ => ofRowAt doc row.toNat

end Target

end TreeRules
