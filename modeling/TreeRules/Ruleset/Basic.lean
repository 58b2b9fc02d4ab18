import TreeRules.Highlight.Feature
import TreeRules.Highlight.Overlay
import TreeRules.Indent.Action
import TreeRules.Outline.Category
import TreeRules.Outline.NameSource
import TreeRules.Table

/-! # The rules of a language

Highlighting, indentation and navigation each have their rules, and all of them belong to one
language. Names in rules are not checked when they are read, so any value can stand for one.
-/
namespace TreeRules

/-- A query whose captures become tags of a feature. The refinements can rename or drop the tag of
a single capture. -/
structure HighlightRule where
  feature : Value
  query : Value
  layering : Layering := .append
  refine : Table Value := {}
  name : Value := .text ""

/-- Highlight rules with the features they belong to, by level. -/
structure FeatureSet where
  levels : List (List Value) := []
  rules : List HighlightRule := []

namespace FeatureSet

/-- All features, in the order in which they are declared. -/
def features (set : FeatureSet) : List Value := Feature.declared set.levels

def rulesFor (set : FeatureSet) (feature : Value) : List HighlightRule :=
  set.rules.filter (·.feature.equal feature)

end FeatureSet

/-- All rules of a language. -/
structure LanguageRules where
  language : Value
  highlight : FeatureSet := {}
  indent : Table IndentAction := {}
  things : Table Category := {}
  names : List (String × NameSource) := []

namespace LanguageRules

/-- Where the name of a node of some type stands. -/
def nameSource (names : List (String × NameSource)) (kind : String) : NameSource :=
  (names.lookup kind).getD NameSource.standard

end LanguageRules

end TreeRules
