import TreeRules.Text.Blank
import TreeRules.Text.Slice
import TreeRules.Text.Tabs
import TreeRules.Text.Utf8
import TreeRules.Error

/-! # Sources and their rows

A source is a string of bytes. Its rows are what the line feeds separate; a row starts after a line
feed and stops in front of the next one, or at the end of the source. The row of a byte is found by
binary search in the starts of the rows.

Rows are numbered from zero. The functions of the first part take a row that is there; those of the
second take any integer, count negative ones from the last row, and fail outside the source.
-/
namespace TreeRules

/-- The byte that ends a row. -/
def lineFeed : UInt8 := 10

/-- The places after the line feeds of a byte string that starts at an offset. -/
def startsAfter (offset : Nat) : List UInt8 → List Nat
  | [] => []
  | byte :: rest =>
    if byte = lineFeed then (offset + 1) :: startsAfter (offset + 1) rest
    else startsAfter (offset + 1) rest

/-- The starts of the rows of a byte string. -/
def rowStarts (bytes : List UInt8) : List Nat := 0 :: startsAfter 0 bytes

/-- A byte string with the starts of its rows. -/
structure Source where
  bytes : List UInt8
  starts : Array Nat
  starts_eq : starts = (rowStarts bytes).toArray

namespace Source

def ofBytes (bytes : List UInt8) : Source := ⟨bytes, (rowStarts bytes).toArray, rfl⟩

variable (source : Source)

def size : Nat := source.bytes.length

def rows : Nat := source.starts.size

def isBlank : Bool := source.bytes.all Blank.isBlankByte

def textOf (start stop : Int) : List Char := Utf8.decode (Slice.cut source.bytes start stop)

/-! ## Rows that are there -/

def rowStart (row : Nat) : Nat := source.starts.getD row 0

/-- The line feed that ends a row, or the end of the source. -/
def rowStop (row : Nat) : Nat :=
  if row + 1 < source.rows then source.rowStart (row + 1) - 1 else source.size

/-- The first byte between two places that is no margin, or the second place. -/
def firstInk (start stop : Nat) : Nat :=
  start + (((source.bytes.take stop).drop start).takeWhile Blank.isMargin).length

/-- The first byte of a row that is no margin, or the end of the row. -/
def rowInk (row : Nat) : Nat := source.firstInk (source.rowStart row) (source.rowStop row)

/-- The last of the rows from `low` to `high` that does not start after a byte; the first of them if
all do. -/
def search (starts : Array Nat) (byte : Int) (low high : Nat) : Nat :=
  if low < high then
    let middle := (low + high + 1) / 2
    if (starts.getD middle 0 : Int) ≤ byte then search starts byte middle high
    else search starts byte low (middle - 1)
  else low
termination_by high - low

def rowOf (byte : Int) : Nat := search source.starts byte 0 (source.rows - 1)

/-- The number of line feeds in front of a byte, by which a parser counts rows. -/
def feedsBefore (byte : Nat) : Nat := (source.bytes.take byte).count lineFeed

def columnOf (tabWidth byte : Int) : Nat :=
  Tabs.width tabWidth (source.textOf (source.rowStart (source.rowOf byte)) byte)

/-- The display column of the first byte of a row that is no margin. -/
def rowColumn (tabWidth : Int) (row : Nat) : Nat := source.columnOf tabWidth (source.rowInk row)

/-! ## Rows counted from either end -/

def lineStart (row : Int) : Outcome Nat :=
  match Slice.index? source.rows row with
  | some row => .ok (source.rowStart row)
  | none => .error .outOfRange

/-- The byte in front of the next row, or the end of the source behind the last row. The row after
the last one by negative count is the first, so the result can be negative. -/
def lineStop (row : Int) : Outcome Int :=
  if row + 1 < source.rows then (source.lineStart (row + 1)).map fun next => (next : Int) - 1
  else .ok source.size

def lineText (row : Int) : Outcome (List Char) := do
  let start ← source.lineStart row
  let stop ← source.lineStop row
  return source.textOf start stop

/-- The first byte of a row that is no margin, or the end of the row. -/
def lineInk (row : Int) : Outcome Nat := do
  let start ← source.lineStart row
  let stop ← source.lineStop row
  return source.firstInk start stop.toNat

def isBlankLine (row : Int) : Outcome Bool := do
  let ink ← source.lineInk row
  let stop ← source.lineStop row
  return (ink : Int) == stop

/-- The display column at which the text of a row starts. -/
def lineColumn (tabWidth row : Int) : Outcome Nat :=
  (source.lineInk row).map fun ink => source.columnOf tabWidth ink

def checkRow (row : Int) : Outcome Unit :=
  if 0 ≤ row ∧ row < source.rows then .ok () else .error (.tree (.rowOutside row source.rows))

/-- Fails unless a position is in the source or at its end. -/
def checkByte (byte : Int) : Outcome Unit :=
  if 0 ≤ byte ∧ byte ≤ source.size then .ok () else .error (.tree (.byteOutside byte source.size))

end Source

end TreeRules
