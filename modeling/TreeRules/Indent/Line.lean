import TreeRules.Field
import TreeRules.Indent.Column
import TreeRules.Table

/-! # Indentation of lines

The first rule that holds of a line says where it should start: at the column of an anchor, moved by
an offset, and never left of the margin. A line without a rule stays where it is.
-/
namespace TreeRules

/-- Where a line should start, and which rule says so. -/
structure Indentation where
  row : Int
  anchor : Int
  offset : Int
  rule : Option String := none
  deriving DecidableEq, Repr

namespace Indentation

def make (row anchor offset : Value) (rule : Value) : Outcome Indentation :=
  Checked.toOutcome <|
    Checked.apply (Checked.apply (Checked.apply
      ((Field.int "row" (some 0) none row).map Indentation.mk)
      (Field.int "anchor_column" none none anchor))
      (Field.int "offset" none none offset))
      (Field.optionalText "rule_name" rule)

/-- The column in the end. -/
def column (indentation : Indentation) : Int := max 0 (indentation.anchor + indentation.offset)

variable (doc : Document) (table : Table IndentAction) (unit : Int)

def ofRule (target : Target) (row : Int) (rule : Rule IndentAction) : Outcome Indentation := do
  let anchor ← Column.ofAnchor doc target unit rule.action
  let name := if rule.name.truthy then rule.name else .null
  make (.int row) (.int anchor) (.int (rule.action.offset.resolve unit)) name

/-- The indentation of a row, when a unit of indentation is `unit` columns wide. -/
def ofRow (row : Int) : Outcome Indentation := do
  doc.checkFresh
  let target ← Target.ofRow doc row
  match ← table.ruleFor doc target with
  | some rule => ofRule doc unit target row rule
  | none => return { row, anchor := doc.source.rowColumn doc.tabWidth row.toNat, offset := 0 }

def ofRows : Outcome (List Indentation) :=
  (List.range doc.source.rows).mapM fun row : Nat => ofRow doc table unit row

end Indentation

/-- A line that does not start where it should. -/
structure Misplaced where
  row : Int
  current : Int
  expected : Int
  deriving DecidableEq, Repr

namespace Misplaced

/-- What is wrong with a row, if anything is. Blank rows are never wrong. -/
def ofIndentation? (doc : Document) (indentation : Indentation) : Option Misplaced :=
  let row := indentation.row.toNat
  let current : Int := doc.source.rowColumn doc.tabWidth row
  if doc.source.rowInk row = doc.source.rowStop row ∨ current = indentation.column then none
  else some ⟨indentation.row, current, indentation.column⟩

/-- All lines that do not start where they should. -/
def all (doc : Document) (table : Table IndentAction) (unit : Int) : Outcome (List Misplaced) :=
  (Indentation.ofRows doc table unit).map (·.filterMap (ofIndentation? doc))

end Misplaced

end TreeRules
