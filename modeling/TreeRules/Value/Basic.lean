import TreeRules.Number.Real64

/-! # Values

Rule documents, settings and reports are trees of plain data. A mapping keeps its entries in the
order in which they were given. Values are compared by what they denote: numbers and truth values by
number, mappings without regard to order.
-/
namespace TreeRules

/-- A tree of plain data. -/
inductive Value where
  | null
  | bool (flag : Bool)
  | int (number : Int)
  | real (number : Real64)
  | text (content : String)
  | list (items : List Value)
  | mapping (entries : List (String × Value))
  deriving Repr, Inhabited

namespace Value

/-- Whether a value counts as true: null, false, zero and everything empty do not. -/
def truthy : Value → Bool
  | .null => false
  | .bool flag => flag
  | .int number => number != 0
  | .real number => !number.isZero
  | .text content => content != ""
  | .list items => !items.isEmpty
  | .mapping entries => !entries.isEmpty

/-- Whether a value can be looked up in a set: lists and mappings cannot. -/
def isKey : Value → Bool
  | .list _ | .mapping _ => false
  | _ => true

def under? (key : String) (entries : List (String × Value)) : Option Value := entries.lookup key

/-- The integer that a truth value or an integer denotes. -/
def integer? : Value → Option Int
  | .bool flag => some (if flag then 1 else 0)
  | .int number => some number
  | _ => none

/-- Whether two values that are neither texts, lists nor mappings denote the same. -/
def equalScalars (x y : Value) : Bool :=
  match x, y with
  | .null, .null => true
  | .real a, .real b => a.equal b
  | .real a, y => a.integer?.isSome && a.integer? == y.integer?
  | x, .real b => b.integer?.isSome && b.integer? == x.integer?
  | x, y => x.integer?.isSome && x.integer? == y.integer?

mutual

/-- Whether two values denote the same. -/
def equal : Value → Value → Bool
  | .text x, .text y => x == y
  | .list xs, .list ys => equalItems xs ys
  | .mapping xs, .mapping ys => xs.length == ys.length && equalEntries xs ys
  | x, y => equalScalars x y

def equalItems : List Value → List Value → Bool
  | [], [] => true
  | x :: xs, y :: ys => equal x y && equalItems xs ys
  | _, _ => false

/-- Whether every entry of a mapping has an equal one in another. -/
def equalEntries : List (String × Value) → List (String × Value) → Bool
  | [], _ => true
  | (key, x) :: xs, ys =>
    (match under? key ys with
      | some y => equal x y
      | none => false) && equalEntries xs ys

end

/-- Whether a list has an item equal to a value. -/
def memberOf (value : Value) (items : List Value) : Bool := items.any (equal · value)

end Value

end TreeRules
