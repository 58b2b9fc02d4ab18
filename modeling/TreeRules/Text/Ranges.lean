/-! # Sorted ranges of code points

A class of characters is kept as the list of its ranges in increasing order.
-/
namespace TreeRules.Ranges

/-- Whether a number lies in one of the ranges of an increasing list. -/
def has : List (Nat × Nat) → Nat → Bool
  | [], _ => false
  | (first, last) :: rest, n => if n < first then false else n ≤ last || has rest n

end TreeRules.Ranges
