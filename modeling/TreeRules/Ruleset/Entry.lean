import TreeRules.Ruleset.Basic

/-! # Writing rule documents

Entries of rule documents as values. The tables that come with this library are written with them.
-/
namespace TreeRules.Ruleset.Entry

/-! ## Predicates -/

def node (pattern : String) : Value := .mapping [("node", .text pattern)]

def parent (pattern : String) : Value := .mapping [("parent", .text pattern)]

/-- A pattern is found in the text of the node. -/
def hasText (pattern : String) : Value := .mapping [("text", .text pattern)]

def noNode : Value := .text "no-node"

def always : Value := .text "always"

def all (tests : List Value) : Value := .mapping [("all", .list tests)]

def any (tests : List Value) : Value := .mapping [("any", .list tests)]

/-! ## Rules -/

def highlight (name feature query : String) (layering : Layering := .append)
    (refinements : List Value := []) : Value :=
  .mapping [("name", .text name), ("feature", .text feature), ("query", .text query),
    ("override", .text layering.name), ("refine", .list refinements)]

def tagged (test : Value) (tag : String) : Value :=
  .mapping [("match", test), ("tag", .text tag)]

def dropped : Value := .mapping [("match", always), ("tag", .null)]

/-- An indentation rule without an offset, or with that of one unit. -/
def indent (name : String) (test : Value) (anchor : Anchor) (further : Bool := false)
    (chain : List String := []) : Value :=
  .mapping [("name", .text name), ("match", test), ("anchor", .text anchor.name),
    ("offset", if further then .text "indent" else .int 0), ("chain", .list (chain.map .text))]

def thing (name : String) (test : Value) (category : Category) : Value :=
  .mapping [("name", .text name), ("match", test), ("category", .text category.name)]

/-! ## Documents -/

def document (name language : String) (levels : List (List String))
    (highlight indent things : List Value) (names : List (String × Value)) : Value :=
  let levels := levels.map fun level => Value.list (level.map .text)
  let ruleset : Value := .mapping [("language", .text language),
    ("highlight", .mapping [("levels", .list levels), ("rules", .list highlight)]),
    ("indent", .list indent), ("things", .list things), ("names", .mapping names)]
  .mapping [("rulesets", .mapping [(name, ruleset)])]

end TreeRules.Ruleset.Entry
