import TreeRules.Text.Quoted
import TreeRules.Value.Basic

/-! # Values in messages

A message shows a value either in full, with texts in quotes, or as plain text, where only a text
by itself stands without quotes.
-/
namespace TreeRules.Value

def commas (parts : List String) : String := ", ".intercalate parts

mutual

/-- A value in full. -/
def quoted : Value → String
  | .null => "None"
  | .bool flag => if flag then "True" else "False"
  | .int number => toString number
  | .real number => number.shown
  | .text content => Quoted.quote content
  | .list items => "[" ++ commas (quotedItems items) ++ "]"
  | .mapping entries => "\x7b" ++ commas (quotedEntries entries) ++ "\x7d"

def quotedItems : List Value → List String
  | [] => []
  | item :: rest => quoted item :: quotedItems rest

def quotedEntries : List (String × Value) → List String
  | [] => []
  | (key, value) :: rest => (Quoted.quote key ++ ": " ++ quoted value) :: quotedEntries rest

end

/-- A value as plain text. -/
def shown : Value → String
  | .text content => content
  | value => value.quoted

end TreeRules.Value
