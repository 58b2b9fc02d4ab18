import TreeRules.Predicate.Basic

/-! # Predicates in rule documents

A predicate is written as a mapping from the names of tests to what they test, and several tests in
one mapping have all to hold; two predicates can also be written as a plain word. The tests of a
mapping are looked at in an order of their own, which does not depend on that of its entries.
-/
namespace TreeRules.Predicate

/-- A predicate that is written as a word. -/
def ofWord (word : String) : Outcome Predicate :=
  if word = "always" ∨ word = "catch-all" then .ok .always
  else if word = "no-node" then .ok .noNode
  else .error (.rules (.unknownPredicate word))

def linkOf : Value → Outcome Link
  | .null => .ok .any
  | .text "nil" => .ok .absent
  | value => (Pattern.ofValue .type value).map .kind

/-- A chain of up to three elements; the ones that are left out ask nothing. -/
def chainOf : Value → Outcome Predicate
  | .list [node] => return .chain (← linkOf node) .any .any
  | .list [node, parent] => return .chain (← linkOf node) (← linkOf parent) .any
  | .list [node, parent, grandparent] =>
    return .chain (← linkOf node) (← linkOf parent) (← linkOf grandparent)
  | value => .error (.rules (.badChain value))

/-- A query with the capture that its entry gives. -/
def queryOf (entries : List (String × Value)) (query : Value) : Outcome Predicate :=
  match Value.under? "capture" entries with
  | some capture => .ok (.captured query capture)
  | none => .error (.rules (.queryWithoutCapture query))

/-- The order in which the tests of a mapping are looked at. -/
def order : List String :=
  ["node", "parent", "chain", "field", "query", "text", "line", "no_node", "always", "all", "any",
    "not"]

/-- The tests of a mapping that are there, in order, up to the first that is malformed. -/
def inOrder (parts : List (String × Outcome (Option Predicate))) :
    List String → Outcome (List Predicate)
  | [] => .ok []
  | key :: rest =>
    match parts.lookup key with
    | none => inOrder parts rest
    | some (.error error) => .error error
    | some (.ok none) => inOrder parts rest
    | some (.ok (some test)) => (inOrder parts rest).map (test :: ·)

/-- Faults of predicates are faults of the document they stand in. -/
def inDocument {α : Type} : Outcome α → Outcome α
  | .error (.predicate fault) => .error (.rules (.predicate fault))
  | outcome => outcome

/-- The predicate of a mapping with the tests that it has. -/
def combine (entry : Value) : List Predicate → Outcome Predicate
  | [] => .error (.rules (.testsNothing entry))
  | [test] => .ok test
  | tests => .ok (.all tests)

/-- The keys of a mapping that name no test, in alphabetical order. -/
def unknownKeys (entries : List (String × Value)) : List String :=
  ((entries.map Prod.fst).filter fun key => !predicateKeys.contains key).mergeSort (· ≤ ·)

mutual

/-- The predicate that an entry of a rule document denotes. -/
def ofValue : Value → Outcome Predicate
  | .text word => ofWord word
  | .mapping entries =>
    if entries.isEmpty then .error (.rules (.notPredicate (.mapping entries)))
    else if unknownKeys entries ≠ [] then .error (.rules (.unknownKeys (unknownKeys entries)))
    else
      match inDocument (inOrder (partsOf entries entries) order) with
      | .ok tests => combine (.mapping entries) tests
      | .error error => .error error
  | value => .error (.rules (.notPredicate value))

/-- What each key of a mapping asks for; some ask for nothing. -/
def partsOf (whole : List (String × Value)) :
    List (String × Value) → List (String × Outcome (Option Predicate))
  | [] => []
  | (key, value) :: rest => (key, partOf whole key value) :: partsOf whole rest

def partOf (whole : List (String × Value)) (key : String) (value : Value) :
    Outcome (Option Predicate) :=
  match key with
  | "node" => (Pattern.ofValue .type value).map fun pattern => some (.nodeIs pattern)
  | "parent" => (Pattern.ofValue .type value).map fun pattern => some (.parentIs pattern)
  | "chain" => (chainOf value).map some
  | "field" => (fieldOf value).map some
  | "query" => (queryOf whole value).map some
  | "text" =>
    let field := (Value.under? "text_field" whole).getD .null
    (Pattern.ofValue .text value).map fun pattern => some (.textHas pattern field)
  | "line" => (Pattern.ofValue .line value).map fun pattern => some (.lineHas pattern)
  | "no_node" => .ok (if value.truthy then some .noNode else none)
  | "always" => .ok (if value.truthy then some .always else none)
  | "all" => (listOf "all" value).map fun tests => some (.all tests)
  | "any" => (listOf "any" value).map fun tests => some (.any tests)
  | "not" => (ofValue value).map fun test => some (.not test)
  | _ => .ok none

/-- A field by its name, with a further test if there is one. -/
def fieldOf : Value → Outcome Predicate
  | .text name => .ok (.fieldIs (.text name) .always)
  | .mapping entries =>
    match Value.under? "name" entries with
    | some name =>
      match matchOf entries with
      | some (.ok inner) => .ok (.fieldIs name inner)
      | some (.error error) => .error error
      | none => .ok (.fieldIs name .always)
    | none => .error (.rules (.badField (.mapping entries)))
  | value => .error (.rules (.badField value))

def matchOf : List (String × Value) → Option (Outcome Predicate)
  | [] => none
  | (key, value) :: rest => if key = "match" then some (ofValue value) else matchOf rest

def listOf (key : String) : Value → Outcome (List Predicate)
  | .list (item :: rest) => itemsOf (item :: rest)
  | _ => .error (.rules (.notPredicates key))

def itemsOf : List Value → Outcome (List Predicate)
  | [] => .ok []
  | item :: rest =>
    match ofValue item with
    | .ok test => (itemsOf rest).map (test :: ·)
    | .error error => .error error

end

end TreeRules.Predicate
