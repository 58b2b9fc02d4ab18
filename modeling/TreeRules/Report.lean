import TreeRules.FileName
import TreeRules.Highlight.Span
import TreeRules.Indent.Line
import TreeRules.Outline.Entry
import TreeRules.Value.Writer

/-! # Reports

The results of a session as JSON: the spans, the outline or the indentation of one file.
-/
namespace TreeRules.Report

/-- The file a report is about. -/
structure Subject where
  path : String
  language : String

def write (spread : Bool) (subject : Subject) (entries : List (String × Value)) : String :=
  Value.write spread (.mapping
    ([("file_path", .text (FileName.shown subject.path)), ("language", .text subject.language)] ++
      entries))

def spanValue (span : Span) : Value :=
  .mapping [("start_byte", .int span.start), ("end_byte", .int span.stop), ("tag", .text span.tag),
    ("feature", .text span.feature)]

def textValue : Option String → Value
  | some content => .text content
  | none => .null

def entryValue (entry : Outline.Entry) : Value :=
  .mapping [("name", textValue entry.name), ("node_type", .text entry.kind),
    ("start_line", .int entry.firstLine), ("end_line", .int entry.lastLine),
    ("start_byte", .int entry.start), ("end_byte", .int entry.stop)]

/-- An indentation as a value, with the column where the line starts now if that is known. -/
def indentationValue (current : Option Int) (indentation : Indentation) : Value :=
  .mapping ([("line", .int (indentation.row + 1)), ("column", .int indentation.column),
    ("anchor_column", .int indentation.anchor), ("offset", .int indentation.offset),
    ("rule", textValue indentation.rule)] ++
      match current with
      | some column => [("current", .int column)]
      | none => [])

def highlights (spread : Bool) (subject : Subject) (features : List Value) (spans : List Span) :
    String :=
  write spread subject [("features", .list features), ("total_spans", .int spans.length),
    ("spans", .list (spans.map spanValue))]

def outline (spread : Bool) (subject : Subject) (groups : Outline.Groups) : String :=
  let categories := groups.foldl (fun entries (category, things) =>
    Value.put entries category.name (.list (things.map entryValue))) []
  write spread subject [("categories", .mapping categories)]

/-- The indentations of a file, with the columns where its rows start now as far as they are
known. -/
def indentations (spread : Bool) (subject : Subject) (results : List Indentation)
    (current : List (Int × Int)) : String :=
  let lines := results.map fun result => indentationValue (current.lookup result.row) result
  write spread subject [("lines", .list lines)]

end TreeRules.Report
