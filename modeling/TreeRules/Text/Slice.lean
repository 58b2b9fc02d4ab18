/-! # Positions counted from either end

A row, a byte offset or a child number may be negative and then counts from the end. Taking one
item outside the list fails; cutting out a stretch stops at the ends of the list instead.
-/
namespace TreeRules.Slice

variable {α : Type}

/-- The place a position names in a list of `length` items, if there is one. -/
def index? (length : Nat) (position : Int) : Option Nat :=
  let place := if position < 0 then position + length else position
  if 0 ≤ place ∧ place < length then some place.toNat else none

/-- The end of a cut that a position names: never outside the list. -/
def bound (length : Nat) (position : Int) : Nat :=
  min (if position < 0 then position + length else position).toNat length

def item? (items : List α) (position : Int) : Option α :=
  (index? items.length position).bind (items[·]?)

/-- The items from one position up to, and without, another. -/
def cut (items : List α) (start stop : Int) : List α :=
  (items.take (bound items.length stop)).drop (bound items.length start)

/-- The items up to, and without, a position. -/
def upTo (items : List α) (stop : Int) : List α :=
  items.take (bound items.length stop)

theorem index?_natCast {length n : Nat} (h : n < length) : index? length n = some n := by
  have h0 : ¬((n : Int) < 0) := by omega
  simp [index?, h0, h]

theorem bound_natCast (length n : Nat) : bound length n = min n length := by
  have h0 : ¬((n : Int) < 0) := by omega
  simp [bound, h0]

theorem item?_natCast {items : List α} {n : Nat} (h : n < items.length) :
    item? items n = items[n]? := by
  simp [item?, index?_natCast h]

theorem cut_natCast (items : List α) (start stop : Nat) :
    cut items start stop = (items.take stop).drop start := by
  simp only [cut, bound_natCast]
  rcases Nat.le_total stop items.length with h | h
  · rw [Nat.min_eq_left h]
    rcases Nat.le_total start items.length with h' | h'
    · rw [Nat.min_eq_left h']
    · rw [Nat.min_eq_right h', List.drop_of_length_le, List.drop_of_length_le] <;>
        simp only [List.length_take] <;> omega
  · rw [Nat.min_eq_right h, List.take_of_length_le (Nat.le_refl _), List.take_of_length_le h]
    rcases Nat.le_total start items.length with h' | h'
    · rw [Nat.min_eq_left h']
    · rw [Nat.min_eq_right h', List.drop_of_length_le (Nat.le_refl _), List.drop_of_length_le h']

end TreeRules.Slice
