/-! # Categories of things

What a node is, in the coarse sense in which one moves through a document.
-/
namespace TreeRules

/-- A kind of thing. -/
inductive Category where
  | definition
  | expression
  | statement
  | comment
  | string
  | text
  deriving DecidableEq, Repr, Inhabited

namespace Category

def name : Category → String
  | .definition => "definition"
  | .expression => "expression"
  | .statement => "statement"
  | .comment => "comment"
  | .string => "string"
  | .text => "text"

/-- The categories, in the order in which they are listed. -/
def all : List Category := [.definition, .expression, .statement, .comment, .string, .text]

def ofName? (name : String) : Option Category := all.find? (·.name == name)

/-- Whether a thing of one category belongs to another: comments and strings are text. -/
def belongsTo (category wanted : Category) : Bool :=
  match wanted with
  | .text => category == .text || category == .comment || category == .string
  | _ => category == wanted

end Category

end TreeRules
