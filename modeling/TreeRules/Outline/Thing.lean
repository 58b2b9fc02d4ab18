import TreeRules.Ruleset.Basic

/-! # Things in documents

Nodes are put into categories by the first rule that holds. On top of that, the names of definitions
are found, an outline lists the things of a document, and one can move from thing to thing.
-/
namespace TreeRules.Thing

/-- The category of a node; none if no rule holds of it. -/
def classify (doc : Document) (things : Table Category) (place : Place) :
    Outcome (Option Category) := do
  doc.checkNode place
  things.resolve doc (Target.ofNode doc place)

/-- The category of a node, with a memory of the query engine's answers. -/
def recallClassify (doc : Document) (things : Table Category) (place : Place) (memory : Memory) :
    Outcome (Option Category) × Memory :=
  match doc.checkNode place with
  | .ok () => things.recallResolve doc (Target.ofNode doc place) memory
  | .error error => (.error error, memory)

def isA (doc : Document) (things : Table Category) (category : Category) (place : Place) :
    Outcome Bool :=
  (classify doc things place).map fun found => found.any (·.belongsTo category)

/-- The name of a definition: the text of the child that holds it, if it is there. -/
def definitionName (doc : Document) (names : List (String × NameSource)) (place : Place) :
    Outcome (Option (List Char)) :=
  (NameSource.find place (LanguageRules.nameSource names place.kind)).map (·.map doc.textOf)

/-- The name of a node; only definitions have one. -/
def nameOf (doc : Document) (things : Table Category) (names : List (String × NameSource))
    (place : Place) : Outcome (Option (List Char)) := do
  if (← classify doc things place) = some .definition then definitionName doc names place
  else return none

/-! ## Moving -/

/-- The first of some places that belongs to a category. -/
def first (doc : Document) (things : Table Category) (category : Category) :
    List Place → Outcome (Option Place)
  | [] => .ok none
  | place :: rest => do
    if ← isA doc things category place then return some place
    else first doc things category rest

/-- The first thing of a category that starts after a byte. -/
def next (doc : Document) (things : Table Category) (byte : Int) (category : Category) :
    Outcome (Option Place) := do
  doc.source.checkByte byte
  first doc things category (doc.tree.places.filter fun place => byte < (place.start : Int))

/-- The thing of a category with the greatest start, the first one of those; a place is only looked
at if it starts after the one found so far. -/
def last (doc : Document) (things : Table Category) (category : Category) :
    List Place → Option Place → Outcome (Option Place)
  | [], found => .ok found
  | place :: rest, found => do
    if found.any fun found => place.start ≤ found.start then last doc things category rest found
    else if ← isA doc things category place then last doc things category rest (some place)
    else last doc things category rest found

/-- The thing of a category with the closest start before a byte, the outermost if there are
several. -/
def previous (doc : Document) (things : Table Category) (byte : Int) (category : Category) :
    Outcome (Option Place) := do
  doc.source.checkByte byte
  last doc things category (doc.tree.places.filter fun place => (place.start : Int) < byte) none

/-- The smallest thing of a category around a byte. -/
def enclosing (doc : Document) (things : Table Category) (byte : Int) (category : Category) :
    Outcome (Option Place) := do
  doc.source.checkByte byte
  match doc.smallestAround byte with
  | some place => first doc things category place.upwards
  | none => return none

end TreeRules.Thing
