import TreeRules.Text.Utf8
import TreeRules.Value.Basic

/-! # Values read from JSON

The reader takes one value from the front of a text and returns what is left. A number with a
fraction or an exponent is rounded to a floating-point number; of two entries with one key the
later value wins and the earlier place is kept.
-/
namespace TreeRules.Value

/-- A text without the spaces and line ends in front of it. -/
def skipSpace (chars : List Char) : List Char :=
  chars.dropWhile fun c => c == ' ' || c == '\t' || c == '\n' || c == '\r'

def hexDigit? (c : Char) : Option Nat :=
  if '0' ≤ c ∧ c ≤ '9' then some (c.toNat - 48)
  else if 'a' ≤ c ∧ c ≤ 'f' then some (c.toNat - 87)
  else if 'A' ≤ c ∧ c ≤ 'F' then some (c.toNat - 55)
  else none

def hexNumber? (digits : List Char) : Option Nat :=
  digits.foldl (fun total c => do return (← total) * 16 + (← hexDigit? c)) (some 0)

def escaped? : Char → Option Char
  | '"' => some '"'
  | '\\' => some '\\'
  | '/' => some '/'
  | 'b' => some (Char.ofNat 8)
  | 'f' => some (Char.ofNat 12)
  | 'n' => some '\n'
  | 'r' => some '\r'
  | 't' => some '\t'
  | _ => none

/-- The character of two escapes of sixteen bits, if they form a pair. -/
def pair? (high low : Nat) : Option Char :=
  if 0xD800 ≤ high ∧ high < 0xDC00 ∧ 0xDC00 ≤ low ∧ low < 0xE000 then
    some (Char.ofNat (0x10000 + (high - 0xD800) * 0x400 + (low - 0xDC00)))
  else none

def unitChar (n : Nat) : Char :=
  if 0xD800 ≤ n ∧ n < 0xE000 then Utf8.replacement else Char.ofNat n

/-- The rest of a quoted text, after its opening quote. -/
def readText : List Char → Option (List Char × List Char)
  | [] => none
  | '"' :: rest => some ([], rest)
  | '\\' :: 'u' :: a :: b :: c :: d :: '\\' :: 'u' :: e :: f :: g :: h :: rest => do
    let first ← hexNumber? [a, b, c, d]
    match (hexNumber? [e, f, g, h]).bind (pair? first) with
    | some character => return ((← readText rest).map (character :: ·) id)
    | none =>
      return ((← readText ('\\' :: 'u' :: e :: f :: g :: h :: rest)).map (unitChar first :: ·) id)
  | '\\' :: 'u' :: a :: b :: c :: d :: rest => do
    let first ← hexNumber? [a, b, c, d]
    return ((← readText rest).map (unitChar first :: ·) id)
  | '\\' :: c :: rest => do
    let character ← escaped? c
    return ((← readText rest).map (character :: ·) id)
  | c :: rest =>
    if c.toNat < 32 ∨ c = '\\' then none
    else (readText rest).map fun (chars, rest) => (c :: chars, rest)

def spanDigits (chars : List Char) : List Char × List Char := chars.span Char.isDigit

def decimal (digits : List Char) : Nat :=
  digits.foldl (fun total c => total * 10 + (c.toNat - 48)) 0

/-- The digits after a point, if a point with a digit follows. -/
def readFraction : List Char → List Char × List Char
  | '.' :: rest => if (spanDigits rest).1.isEmpty then ([], '.' :: rest) else spanDigits rest
  | rest => ([], rest)

def readExponent : List Char → Option Int × List Char
  | [] => (none, [])
  | mark :: rest =>
    if mark = 'e' ∨ mark = 'E' then
      let (negative, body) := match rest with
        | '-' :: body => (true, body)
        | '+' :: body => (false, body)
        | body => (false, body)
      let (digits, after) := spanDigits body
      if digits.isEmpty then (none, mark :: rest)
      else (some (if negative then -(decimal digits : Int) else decimal digits), after)
    else (none, mark :: rest)

def readNumber (negative : Bool) (chars : List Char) : Option (Value × List Char) :=
  let (whole, rest) := match chars with
    | '0' :: rest => (['0'], rest)
    | chars => spanDigits chars
  if whole.isEmpty then none
  else
    let (fraction, rest) := readFraction rest
    let (exponent, rest) := readExponent rest
    if fraction.isEmpty && exponent.isNone then
      some (.int (if negative then -(decimal whole : Int) else decimal whole), rest)
    else
      some (.real (Real64.ofDecimal negative (decimal (whole ++ fraction))
        (exponent.getD 0 - fraction.length)), rest)

/-- A value that is neither a list nor a mapping. -/
def readScalar : List Char → Option (Value × List Char)
  | 'n' :: 'u' :: 'l' :: 'l' :: rest => some (.null, rest)
  | 't' :: 'r' :: 'u' :: 'e' :: rest => some (.bool true, rest)
  | 'f' :: 'a' :: 'l' :: 's' :: 'e' :: rest => some (.bool false, rest)
  | '"' :: rest => (readText rest).map fun (chars, rest) => (.text (String.ofList chars), rest)
  | '-' :: rest => readNumber true rest
  | chars => readNumber false chars

/-- Entries with a value put under a key: in the place of the key if it is there already. -/
def put (entries : List (String × Value)) (key : String) (value : Value) :
    List (String × Value) :=
  if entries.any (·.1 == key) then
    entries.map fun entry => if entry.1 == key then (key, value) else entry
  else entries ++ [(key, value)]

mutual

/-- A value from the front of a text, within a bound on the number of steps. -/
def readValue : Nat → List Char → Option (Value × List Char)
  | 0, _ => none
  | steps + 1, chars =>
    match skipSpace chars with
    | '[' :: rest =>
      match skipSpace rest with
      | ']' :: rest => some (.list [], rest)
      | rest => readItems steps [] rest
    | '{' :: rest =>
      match skipSpace rest with
      | '}' :: rest => some (.mapping [], rest)
      | rest => readEntries steps [] rest
    | chars => readScalar chars

/-- The items of a list up to its closing bracket, after those already read, latest first. -/
def readItems : Nat → List Value → List Char → Option (Value × List Char)
  | 0, _, _ => none
  | steps + 1, items, chars =>
    match readValue steps chars with
    | none => none
    | some (item, rest) =>
      match skipSpace rest with
      | ',' :: rest => readItems steps (item :: items) rest
      | ']' :: rest => some (.list (item :: items).reverse, rest)
      | _ => none

/-- The entries of a mapping up to its closing bracket, after those already read. -/
def readEntries : Nat → List (String × Value) → List Char → Option (Value × List Char)
  | 0, _, _ => none
  | steps + 1, entries, chars =>
    match skipSpace chars with
    | '"' :: rest =>
      match readText rest with
      | none => none
      | some (key, rest) =>
        match skipSpace rest with
        | ':' :: rest =>
          match readValue steps rest with
          | none => none
          | some (value, rest) =>
            let entries := put entries (String.ofList key) value
            match skipSpace rest with
            | ',' :: rest => readEntries steps entries rest
            | '}' :: rest => some (.mapping entries, rest)
            | _ => none
        | _ => none
    | _ => none

end

def read? (text : String) : Option Value :=
  let chars := text.toList
  match readValue (2 * chars.length + 2) chars with
  | some (value, rest) => if (skipSpace rest).isEmpty then some value else none
  | none => none

end TreeRules.Value
