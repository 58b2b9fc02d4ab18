import TreeRules.Text.Digit
import TreeRules.Text.Blank
import TreeRules.Error

/-! # Parts of values

Rule documents are taken apart by the operations of this module. Each of them fails on values that
have no such parts: a text has characters but no entries, and a number has neither.
-/
namespace TreeRules.Value

def occursIn (needle : List Char) : List Char → Bool
  | [] => needle.isEmpty
  | c :: rest => needle.isPrefixOf (c :: rest) || occursIn needle rest

/-- Whether a value has a key. A list has its items for keys, and a text all texts in it. -/
def hasKey (key : String) : Value → Outcome Bool
  | .mapping entries => .ok (entries.any (·.1 == key))
  | .list items => .ok (memberOf (.text key) items)
  | .text content => .ok (occursIn key.toList content.toList)
  | _ => .error .wrongKind

/-- The value under a key of a mapping, or another one in its place. -/
def getD (value : Value) (key : String) (default : Value) : Outcome Value :=
  match value with
  | .mapping entries => .ok ((under? key entries).getD default)
  | _ => .error .noPart

/-- The value under a key that has to be there. -/
def get (key : String) : Value → Outcome Value
  | .mapping entries =>
    match under? key entries with
    | some value => .ok value
    | none => .error .noPart
  | _ => .error .wrongKind

def entries : Value → Outcome (List (String × Value))
  | .mapping entries => .ok entries
  | _ => .error .noPart

/-- The elements of a value: the items of a list, the characters of a text, the keys of a
mapping. -/
def elements : Value → Outcome (List Value)
  | .list items => .ok items
  | .text content => .ok (content.toList.map fun c => .text (String.singleton c))
  | .mapping entries => .ok (entries.map fun entry => .text entry.1)
  | _ => .error .wrongKind

/-- The number that digits denote, which single underscores may separate. -/
def separated? (digits : List Char) : Option Nat :=
  if digits.isEmpty || (digits.splitOn '_').any List.isEmpty then none
  else Digit.number? (digits.filter (· != '_'))

/-- The integer that a text denotes: digits, with a sign in front and white space around it if need
be. -/
def integerOf? (text : List Char) : Option Int :=
  match Blank.trimSpace text with
  | '-' :: digits => (separated? digits).map fun n => -(n : Int)
  | '+' :: digits => (separated? digits).map Int.ofNat
  | digits => (separated? digits).map Int.ofNat

/-- The integer that a value can be turned into; fractions are cut off. -/
def toInteger : Value → Outcome Int
  | .bool flag => .ok (if flag then 1 else 0)
  | .int number => .ok number
  | .real number =>
    match number.truncate? with
    | some n => .ok n
    | none => .error .wrongKind
  | .text content =>
    match integerOf? content.toList with
    | some n => .ok n
    | none => .error (.value (.badInteger content))
  | _ => .error .wrongKind

end TreeRules.Value
