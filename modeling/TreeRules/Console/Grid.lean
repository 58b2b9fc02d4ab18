import TreeRules.Console.Markup
import TreeRules.Console.Screen

/-! # Grids

A grid is a table drawn with lines: a header between heavy lines, and rows between light ones. Each
column is as wide as its widest cell, in which tabs take no room. Cells can hold tags, which are not
printed, and several lines.
-/
namespace TreeRules

/-- The head of a column: its text, and whether the cells below stand on the right. -/
structure Heading where
  text : String
  onRight : Bool := false

/-- A table to be drawn. -/
structure Grid where
  title : Option String := none
  columns : List Heading
  rows : List (List String)

namespace Grid

def fill (n : Nat) (c : Char) : String := String.ofList (List.replicate n c)

def cellLines (cell : String) : List (List Char) :=
  (Screen.seen (Markup.plain cell).toList).splitOn '\n'

def cellWidth (cell : String) : Nat :=
  (cellLines cell).foldl (fun width line => max width (line.filter (· != '\t')).length) 0

/-- A line of a cell, padded to a width. -/
def pad (width : Nat) (onRight : Bool) (line : List Char) : String :=
  let text := String.ofList (Tabs.expand Screen.tabWidth line)
  let space := fill (width - text.length) ' '
  if onRight then space ++ text else text ++ space

/-- The cells of all rows, the headings first. -/
def cellsOf (grid : Grid) : List (List String) := grid.columns.map (·.text) :: grid.rows

def widths (grid : Grid) : List Nat :=
  grid.columns.zipIdx.map fun (_, place) =>
    grid.cellsOf.foldl (fun width row => max width (cellWidth (row.getD place ""))) 0

def rule (widths : List Nat) (left line cross right : Char) : String :=
  let parts := widths.map fun width => fill (width + 2) line
  String.singleton left ++ (String.singleton cross).intercalate parts ++ String.singleton right

/-- The lines of a row, with a separator between the cells. -/
def rowLines (grid : Grid) (widths : List Nat) (separator : Char) (cells : List String) :
    List String :=
  let parts := cells.map cellLines
  let height := parts.foldl (fun height lines => max height lines.length) 1
  (List.range height).map fun n =>
    let texts := (grid.columns.zip (widths.zip parts)).map fun (column, width, lines) =>
      " " ++ pad width column.onRight (lines.getD n []) ++ " "
    let mark := String.singleton separator
    mark ++ mark.intercalate texts ++ mark

/-- A title in the middle of a width; a space too many stands on the right. -/
def centred (width : Nat) (title : String) : String :=
  let space := width - title.length
  fill (space / 2) ' ' ++ title ++ fill (space - space / 2) ' '

def lines (grid : Grid) : List String :=
  let widths := grid.widths
  let top := rule widths '┏' '━' '┳' '┓'
  grid.title.toList.map (centred top.length) ++ [top] ++
    grid.rowLines widths '┃' (grid.columns.map (·.text)) ++
    [rule widths '┡' '━' '╇' '┩'] ++
    grid.rows.flatMap (grid.rowLines widths '│') ++
    [rule widths '└' '─' '┴' '┘']

def draw (grid : Grid) : String := String.join (grid.lines.map (· ++ "\n"))

end Grid

end TreeRules
