import TreeRules.Text.Blank
import TreeRules.Text.Digit
import TreeRules.Error

/-! # Indentation offsets

An offset is a number of columns plus a number of indent units. It is written as an integer, or as
`indent` with an optional minus sign and an optional integer factor in front: `-indent`,
`2 * indent`. Blanks may stand around the whole text and around the star.
-/
namespace TreeRules

/-- A signed distance: columns, and units whose width is a setting. -/
structure Offset where
  columns : Int := 0
  units : Int := 0
  deriving DecidableEq, Repr, Inhabited

namespace Offset

/-- The columns of an offset when a unit is `unit` columns wide. -/
def resolve (offset : Offset) (unit : Int) : Int := offset.columns + offset.units * unit

/-- An integer at the front of a text: an optional minus sign and at least one digit. -/
def integer? (text : List Char) : Option (Int × List Char) :=
  let negative := text.head? == some '-'
  let body := if negative then text.drop 1 else text
  let (digits, rest) := body.span Digit.isDigit
  if digits.isEmpty then none
  else (Digit.number? digits).map fun n => (if negative then -(n : Int) else n, rest)

/-- A factor with its star at the front of a text; a text that has none is left as it is. -/
def factor (text : List Char) : Int × List Char :=
  match integer? text with
  | some (n, rest) =>
    match rest.dropWhile Blank.isBlank with
    | '*' :: rest => (n, rest.dropWhile Blank.isBlank)
    | _ => (1, text)
  | none => (1, text)

def unitName : List Char := "indent".toList

/-- The number of units a text without blanks around it denotes. -/
def units? (text : List Char) : Option Int :=
  let (n, rest) := factor text
  if rest = unitName then some n else if rest = '-' :: unitName then some (-n) else none

def ofText? (text : List Char) : Option Offset :=
  let body := Blank.trimChars text
  match integer? body with
  | some (n, []) => some { columns := n }
  | _ => (units? body).map fun n => { units := n }

/-- The offset a value of a rule document denotes. Truth values are refused although they could be
counted, and only a text can be trimmed. -/
def ofValue : Value → Outcome Offset
  | .bool flag => .error (.predicate (.badOffset (.bool flag)))
  | .int n => .ok { columns := n }
  | .text content =>
    match ofText? content.toList with
    | some offset => .ok offset
    | none => .error (.predicate (.badOffset (.text content)))
  | _ => .error .noPart

def signed (n : Int) : String := if 0 ≤ n then "+" ++ toString n else toString n

def shownUnits (n : Int) : String :=
  if n = 1 then "+indent" else if n = -1 then "-indent" else signed n ++ "*indent"

def shown (offset : Offset) : String :=
  if offset.units = 0 then signed offset.columns
  else if offset.columns = 0 then shownUnits offset.units
  else shownUnits offset.units ++ signed offset.columns

end Offset

end TreeRules
