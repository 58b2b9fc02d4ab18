/-! # Tab stops

The width of a text on a line whose tabs reach to the next multiple of the tab width, and the text
with spaces in place of its tabs. A line break or carriage return starts the stops afresh, yet it is
counted like any other character.
-/
namespace TreeRules.Tabs

/-- How far a tab reaches from a column; without a positive tab width a tab takes no room. -/
def reach (tabWidth : Int) (column : Nat) : Nat :=
  if 0 < tabWidth then tabWidth.toNat - column % tabWidth.toNat else 0

/-- Room taken by a text that starts at a column. -/
def widthFrom (tabWidth : Int) (column : Nat) : List Char → Nat
  | [] => 0
  | c :: rest =>
    if c = '\t' then
      reach tabWidth column + widthFrom tabWidth (column + reach tabWidth column) rest
    else if c = '\n' ∨ c = '\r' then 1 + widthFrom tabWidth 0 rest
    else 1 + widthFrom tabWidth (column + 1) rest

/-- Room taken by a text from the start of its line. -/
def width (tabWidth : Int) (text : List Char) : Nat := widthFrom tabWidth 0 text

/-- A text that starts at a column, with spaces in place of its tabs. -/
def expandFrom (tabWidth : Int) (column : Nat) : List Char → List Char
  | [] => []
  | c :: rest =>
    if c = '\t' then
      List.replicate (reach tabWidth column) ' ' ++
        expandFrom tabWidth (column + reach tabWidth column) rest
    else if c = '\n' ∨ c = '\r' then c :: expandFrom tabWidth 0 rest
    else c :: expandFrom tabWidth (column + 1) rest

/-- A text from the start of its line, with spaces in place of its tabs. -/
def expand (tabWidth : Int) (text : List Char) : List Char := expandFrom tabWidth 0 text

theorem length_expandFrom (tabWidth : Int) (column : Nat) (text : List Char) :
    (expandFrom tabWidth column text).length = widthFrom tabWidth column text := by
  induction text generalizing column with
  | nil => rfl
  | cons c rest ih =>
    simp only [expandFrom, widthFrom]
    split
    · simp [ih]
    · split <;> simp [ih, Nat.add_comm]

theorem widthFrom_spaces (tabWidth : Int) (column n : Nat) :
    widthFrom tabWidth column (List.replicate n ' ') = n := by
  induction n generalizing column with
  | zero => rfl
  | succ n ih =>
    rw [List.replicate_succ, widthFrom, if_neg (by decide), if_neg (by decide), ih, Nat.add_comm]

/-- The width of a text is the number of characters once its tabs are spaces. -/
theorem length_expand (tabWidth : Int) (text : List Char) :
    (expand tabWidth text).length = width tabWidth text :=
  length_expandFrom tabWidth 0 text

end TreeRules.Tabs
