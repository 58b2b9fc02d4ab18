import TreeRules.Pattern.Basic

/-! # Predicates

What a rule asks of a node or a line. Names of fields, queries and captures are not checked when a
rule is read, so any value can stand in their place.
-/
namespace TreeRules

/-- What a chain asks of one of its nodes. -/
inductive Link where
  /-- Nothing. -/
  | any
  /-- There is no such node. -/
  | absent
  /-- The node's type is accepted by a pattern. -/
  | kind (pattern : Pattern)

/-- A test of a node or a line. -/
inductive Predicate where
  /-- The node's type is accepted by a pattern. -/
  | nodeIs (pattern : Pattern)
  /-- The parent's type is accepted by a pattern. -/
  | parentIs (pattern : Pattern)
  /-- The types of the node, its parent and the parent's parent. -/
  | chain (node parent grandparent : Link)
  /-- The node is its parent's child under a field, and a further test holds. -/
  | fieldIs (field : Value) (inner : Predicate)
  /-- The node is captured under a name by a query. -/
  | captured (query capture : Value)
  /-- A pattern is found in the text of the node, or of its child under a field. -/
  | textHas (pattern : Pattern) (field : Value)
  /-- A pattern matches the line from its first character that is not blank. -/
  | lineHas (pattern : Pattern)
  /-- No node starts here. -/
  | noNode
  /-- Anything. -/
  | always
  /-- All of the tests hold. -/
  | all (tests : List Predicate)
  /-- One of the tests holds. -/
  | any (tests : List Predicate)
  /-- The test does not hold. -/
  | not (test : Predicate)

namespace Link

def equal : Link → Link → Bool
  | .any, .any | .absent, .absent => true
  | .kind x, .kind y => x.equal y
  | _, _ => false

end Link

namespace Predicate

mutual

/-- Whether two predicates ask the same in the same words. -/
def equal : Predicate → Predicate → Bool
  | .nodeIs x, .nodeIs y | .parentIs x, .parentIs y | .lineHas x, .lineHas y => x.equal y
  | .chain a b c, .chain x y z => a.equal x && b.equal y && c.equal z
  | .fieldIs f x, .fieldIs g y => f.equal g && x.equal y
  | .captured q c, .captured r d => q.equal r && c.equal d
  | .textHas x f, .textHas y g => x.equal y && f.equal g
  | .noNode, .noNode | .always, .always => true
  | .all xs, .all ys | .any xs, .any ys => equalAll xs ys
  | .not x, .not y => x.equal y
  | _, _ => false

def equalAll : List Predicate → List Predicate → Bool
  | [], [] => true
  | x :: xs, y :: ys => x.equal y && equalAll xs ys
  | _, _ => false

end

/-- Whether a predicate is the one that always holds. -/
def isAlways : Predicate → Bool
  | .always => true
  | _ => false

end Predicate

end TreeRules
