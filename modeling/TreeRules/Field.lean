import TreeRules.Text.Blank
import TreeRules.Value.Reader
import TreeRules.Error

/-! # Checked fields

Records that come from outside are checked field by field, and all faults are reported together.
An integer may be given as a truth value, a floating-point number without a fraction, or a text; a
truth value as zero, one or one of a few words.
-/
namespace TreeRules

/-- A part of a record, or all that is wrong with it. -/
abbrev Checked := Except (List FieldFault)

namespace Checked

variable {α β : Type}

/-- Applies a part to a part; the faults of both are kept. -/
def apply : Checked (α → β) → Checked α → Checked β
  | .ok f, .ok a => .ok (f a)
  | .ok _, .error faults => .error faults
  | .error faults, .ok _ => .error faults
  | .error faults, .error more => .error (faults ++ more)

/-- The record, or its faults as one error. -/
def toOutcome : Checked α → Outcome α
  | .ok a => .ok a
  | .error faults => .error (.fields faults)

/-- The faults of a record that is part of another. -/
def within (path : String) : Checked α → Checked α
  | .ok a => .ok a
  | .error faults =>
    .error (faults.map fun fault => { fault with path := path ++ "." ++ fault.path })

theorem apply_eq_ok_iff {f : Checked (α → β)} {part : Checked α} {b : β} :
    apply f part = .ok b ↔ ∃ g a, f = .ok g ∧ part = .ok a ∧ g a = b := by
  cases f <;> cases part <;> simp [apply]

theorem toOutcome_eq_ok_iff {part : Checked α} {a : α} :
    toOutcome part = .ok a ↔ part = .ok a := by
  cases part <;> simp [toOutcome]

end Checked

namespace Field

def refuse {α : Type} (path : String) (problem : FieldProblem) : Checked α :=
  .error [⟨path, problem⟩]

/-- A number that lies between two bounds, as far as they are given. -/
def bounded (path : String) (least most : Option Int) (n : Int) : Checked Int :=
  if least.any (n < ·) then refuse path .tooSmall
  else if most.any (· < n) then refuse path .tooLarge
  else .ok n

/-- Digits with single underscores between them. -/
def plainDigits? (text : List Char) : Option Nat :=
  let digits := text.filter (· != '_')
  let badly := text.head? == some '_' || text.getLast? == some '_' ||
    (text.zip (text.drop 1)).any fun (a, b) => a == '_' && b == '_'
  if digits.isEmpty || badly || !digits.all Char.isDigit then none
  else some (Value.decimal digits)

/-- The integer a text denotes: a sign, digits, and zeros after a point. -/
def integer? (text : String) : Option Int :=
  let body := Blank.trimSpace text.toList
  let negative := body.head? == some '-'
  let body := if negative || body.head? == some '+' then body.drop 1 else body
  let (whole, fraction) := body.span (· != '.')
  if fraction.drop 1 |>.all (· == '0') then
    (plainDigits? whole).map fun n => if negative then -(n : Int) else n
  else none

def int (path : String) (least most : Option Int) : Value → Checked Int
  | .int n => bounded path least most n
  | .bool flag => bounded path least most (if flag then 1 else 0)
  | .real x =>
    match x.integer? with
    | some n => bounded path least most n
    | none => refuse path .fraction
  | .text content =>
    match integer? content with
    | some n => bounded path least most n
    | none => refuse path .unreadableInteger
  | _ => refuse path .notInteger

def text (path : String) : Value → Checked String
  | .text content => .ok content
  | _ => refuse path .notText

theorem int_atLeast_eq_ok_iff {path : String} {least n m : Int} :
    int path (some least) none (.int n) = .ok m ↔ least ≤ n ∧ n = m := by
  simp only [int, bounded, refuse, Option.any_some, Option.any_none]
  by_cases h : n < least
  · simp [h, Int.not_le.2 h]
  · simp [h, Int.not_lt.1 h]

theorem text_eq_ok_iff {path : String} {value : Value} {content : String} :
    text path value = .ok content ↔ value = .text content := by
  cases value <;> simp [text, refuse]

/-- A text field that may be empty. -/
def optionalText (path : String) : Value → Checked (Option String)
  | .null => .ok none
  | value => (text path value).map some

/-- The words for true and for false. -/
def trueWords : List String := ["1", "on", "t", "true", "y", "yes"]
def falseWords : List String := ["0", "off", "f", "false", "n", "no"]

def bool (path : String) : Value → Checked Bool
  | .bool flag => .ok flag
  | .int n => if n = 1 then .ok true else if n = 0 then .ok false else refuse path .unreadableBool
  | .real x =>
    match x.integer? with
    | some 1 => .ok true
    | some 0 => .ok false
    | _ => refuse path .notBool
  | .text content =>
    let word := content.toLower
    if trueWords.contains word then .ok true
    else if falseWords.contains word then .ok false
    else refuse path .unreadableBool
  | _ => refuse path .notBool

/-- The texts of a list from a place on. -/
def textsFrom (path : String) (place : Nat) : List Value → Checked (List String)
  | [] => .ok []
  | item :: rest =>
    Checked.apply ((text (path ++ "." ++ toString place) item).map List.cons)
      (textsFrom path (place + 1) rest)

def texts (path : String) : Value → Checked (List String)
  | .list items => textsFrom path 0 items
  | _ => refuse path .notList

end Field

end TreeRules
