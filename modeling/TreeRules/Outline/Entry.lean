import TreeRules.Field
import TreeRules.Outline.Thing

/-! # Outlines

An outline lists the things of some categories in the order of the tree, grouped by category. The
nodes are visited one by one, with one memory of the query engine's answers for all of them, and
each entry goes to the end of the group of its category. Lines are counted from one.
-/
namespace TreeRules.Outline

/-- A thing in an outline. -/
structure Entry where
  category : Category
  name : Option String
  kind : String
  start : Int
  stop : Int
  firstLine : Int
  lastLine : Int
  deriving Repr

abbrev Groups := List (Category × List Entry)

namespace Entry

def make (category : Category) (name kind start stop firstLine lastLine : Value) : Outcome Entry :=
  let natural (path : String) (least : Int) (value : Value) : Checked Int :=
    Field.int path (some least) none value
  Checked.toOutcome <|
    Checked.apply (Checked.apply (Checked.apply (Checked.apply (Checked.apply
      ((Field.optionalText "name" name).map (Entry.mk category))
      (Field.text "node_type" kind))
      (natural "start_byte" 0 start))
      (natural "end_byte" 0 stop))
      (natural "start_line" 1 firstLine))
      (natural "end_line" 1 lastLine)

def ofPlace (doc : Document) (category : Category) (name : Option (List Char)) (place : Place) :
    Entry where
  category := category
  name := name.map String.ofList
  kind := place.kind
  start := place.start
  stop := place.stop
  firstLine := doc.source.feedsBefore place.start + 1
  lastLine := doc.source.feedsBefore place.stop + 1

/-- What an entry is called: its name, or else the type of its node. -/
def title (entry : Entry) : String :=
  match entry.name with
  | some name => if name = "" then entry.kind else name
  | none => entry.kind

def shown (entry : Entry) : String :=
  s!"{entry.title} ({entry.category.name}) lines {entry.firstLine}-{entry.lastLine}"

end Entry

/-- The entry of a node, if it has a category and that is wanted. -/
def entryOf (doc : Document) (names : List (String × NameSource)) (wanted : List Category)
    (place : Place) : Option Category → Outcome (Option Entry)
  | some category =>
    if wanted.contains category then do
      let name ← if category = .definition then Thing.definitionName doc names place else pure none
      return some (Entry.ofPlace doc category name place)
    else return none
  | none => return none

/-- Puts an entry into the group of its category; a new group comes last. -/
def insert (entry : Entry) : Groups → Groups
  | [] => [(entry.category, [entry])]
  | (category, entries) :: rest =>
    if category = entry.category then (category, entries ++ [entry]) :: rest
    else (category, entries) :: insert entry rest

/-- Goes through places and collects their entries. -/
def collect (doc : Document) (things : Table Category) (names : List (String × NameSource))
    (wanted : List Category) : List Place → Memory → Groups → Outcome Groups
  | [], _, groups => .ok groups
  | place :: rest, memory, groups => do
    let (category, memory) := Thing.recallClassify doc things place memory
    match ← entryOf doc names wanted place (← category) with
    | some entry => collect doc things names wanted rest memory (insert entry groups)
    | none => collect doc things names wanted rest memory groups

def ofDocument (doc : Document) (things : Table Category) (names : List (String × NameSource))
    (wanted : List Category := [.definition]) : Outcome Groups := do
  doc.checkFresh
  collect doc things names wanted (doc.tree.walk none) [] []

end TreeRules.Outline
