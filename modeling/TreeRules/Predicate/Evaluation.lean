import TreeRules.Predicate.Basic
import TreeRules.Target

/-! # Evaluation of predicates

A predicate holds of a target, does not hold of it, or fails. The answers of the query engine are
remembered while a series of predicates is evaluated, so that each query runs once; a failure leaves
the memory as it is.
-/
namespace TreeRules

/-- The start, the end and the type of a node, by which captured nodes are told apart. -/
structure NodeKey where
  start : Nat
  stop : Nat
  kind : String
  deriving DecidableEq, Repr

def Place.key (place : Place) : NodeKey := ⟨place.start, place.stop, place.kind⟩

/-- What was captured by a query under a name. -/
structure Recollection where
  query : Value
  capture : Value
  keys : List NodeKey

abbrev Memory := List Recollection

namespace Memory

/-- What a query captured under a name, if that is known. -/
def known? (memory : Memory) (query capture : Value) : Option (List NodeKey) :=
  (memory.find? fun entry => entry.query.equal query && entry.capture.equal capture).map (·.keys)

end Memory

namespace Predicate

/-- The nodes that a query captures under a name in a whole document. -/
def capturedNodes (doc : Document) (query : Query) : (capture : Value) → List Place
  | .text name => ((doc.captures query.text none).lookup name).getD []
  | _ => []

/-- The keys of the nodes that a query captures under a name: from memory, or else from the query
engine. -/
def capturedKeys (doc : Document) (query capture : Value) (memory : Memory) :
    Outcome (List NodeKey) × Memory :=
  if !query.isKey || !capture.isKey then (.error .wrongKind, memory)
  else
    match memory.known? query capture with
    | some keys => (.ok keys, memory)
    | none =>
      match doc.toolkit.compile (.text doc.language) query with
      | .error error => (.error error, memory)
      | .ok compiled =>
        let keys := (capturedNodes doc compiled capture).map Place.key
        (.ok keys, ⟨query, capture, keys⟩ :: memory)

/-- Whether a pattern accepts the type of a node that is there. -/
def kindIs (pattern : Pattern) (place : Option Place) : Bool :=
  place.any fun place => pattern.accepts place.kind

/-- Whether a node is what a link asks for. -/
def linkHolds (link : Link) (place : Option Place) : Bool :=
  match link with
  | .any => true
  | .absent => place.isNone
  | .kind pattern => kindIs pattern place

/-- Whether a pattern is found in a node, or in its child under a field. -/
def textHolds (doc : Document) (pattern : Pattern) (field : Value) (place : Place) :
    Outcome Bool :=
  match field with
  | .null => .ok (pattern.foundIn (doc.textOf place))
  | .text name => .ok ((place.childAt? name).any fun child => pattern.foundIn (doc.textOf child))
  | _ => .error .wrongKind

/-- Whether a pattern matches a line from a byte on. -/
def lineHolds (doc : Document) (pattern : Pattern) (ink row : Int) : Outcome Bool :=
  (doc.source.lineStop row).map fun stop => pattern.matchesStart (doc.source.textOf ink stop)

def fieldValue (place : Place) : Value :=
  match place.field? with
  | some name => .text name
  | none => .null

mutual

def evaluate (doc : Document) (target : Target) : Predicate → Memory → Outcome Bool × Memory
  | .nodeIs pattern, memory => (.ok (kindIs pattern target.node), memory)
  | .parentIs pattern, memory => (.ok (kindIs pattern target.parent), memory)
  | .chain node parent grandparent, memory =>
    (.ok (linkHolds node target.node && linkHolds parent target.parent &&
      linkHolds grandparent target.grandparent), memory)
  | .fieldIs field inner, memory =>
    match target.node with
    | some place =>
      if (fieldValue place).equal field then evaluate doc target inner memory
      else (.ok false, memory)
    | none => (.ok false, memory)
  | .captured query capture, memory =>
    match target.node with
    | some place =>
      match capturedKeys doc query capture memory with
      | (.ok keys, memory) => (.ok (keys.contains place.key), memory)
      | (.error error, memory) => (.error error, memory)
    | none => (.ok false, memory)
  | .textHas pattern field, memory =>
    match target.node with
    | some place => (textHolds doc pattern field place, memory)
    | none => (.ok false, memory)
  | .lineHas pattern, memory =>
    match target.ink, target.row with
    | some ink, some row => (lineHolds doc pattern ink row, memory)
    | _, _ => (.ok false, memory)
  | .noNode, memory => (.ok target.node.isNone, memory)
  | .always, memory => (.ok true, memory)
  | .all tests, memory => evaluateAll doc target tests memory
  | .any tests, memory => evaluateAny doc target tests memory
  | .not test, memory =>
    match evaluate doc target test memory with
    | (.ok holds, memory) => (.ok (!holds), memory)
    | (.error error, memory) => (.error error, memory)

/-- Evaluates predicates up to the first that does not hold. -/
def evaluateAll (doc : Document) (target : Target) :
    List Predicate → Memory → Outcome Bool × Memory
  | [], memory => (.ok true, memory)
  | test :: rest, memory =>
    match evaluate doc target test memory with
    | (.ok true, memory) => evaluateAll doc target rest memory
    | other => other

/-- Evaluates predicates up to the first that holds. -/
def evaluateAny (doc : Document) (target : Target) :
    List Predicate → Memory → Outcome Bool × Memory
  | [], memory => (.ok false, memory)
  | test :: rest, memory =>
    match evaluate doc target test memory with
    | (.ok false, memory) => evaluateAny doc target rest memory
    | other => other

end

def evaluateSeries (doc : Document) :
    List (Predicate × Target) → Memory → List (Outcome Bool) × Memory
  | [], memory => ([], memory)
  | (test, target) :: rest, memory =>
    let (outcome, memory) := evaluate doc target test memory
    let (outcomes, memory) := evaluateSeries doc rest memory
    (outcome :: outcomes, memory)

def holds (doc : Document) (target : Target) (test : Predicate) : Outcome Bool :=
  (evaluate doc target test []).1

end Predicate

end TreeRules
