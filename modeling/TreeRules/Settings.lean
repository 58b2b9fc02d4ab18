import TreeRules.Field
import TreeRules.Text.LetterCase

/-! # Settings

Settings come in three groups: for rules, for highlighting and for indentation. A field is taken
from the values that are given, or else from a variable of the environment, or else it has a
standard value. Names of variables can be written in letters of any case. A whole group can also be
given by one variable, as a mapping.
-/
namespace TreeRules

/-- Where rules come from. -/
structure RulesSettings where
  file : Option String := none
  ruleset : String := "default"
  strict : Bool := false
  deriving DecidableEq, Repr

/-- Which features are highlighted. -/
structure HighlightSettings where
  level : Int := 3
  enable : List String := []
  disable : List String := []
  deriving DecidableEq, Repr

/-- How lines are indented and measured. -/
structure IndentSettings where
  offset : Int := 4
  tabWidth : Int := 8
  deriving DecidableEq, Repr

/-- All settings of a session. -/
structure Settings where
  rules : RulesSettings := {}
  highlight : HighlightSettings := {}
  indent : IndentSettings := {}
  deriving DecidableEq, Repr

/-- Variables with their texts, in the order in which they were set. -/
abbrev Environment := List (String × String)

/-- Values that are given for fields. -/
abbrev Given := List (String × Value)

def smallLetters (name : String) : String := name.map LetterCase.lower

namespace Environment

/-- The text of a variable: the one set last, whatever the case of its letters. -/
def get? (environment : Environment) (name : String) : Option String :=
  (environment.filter fun (key, _) => smallLetters key == name).getLast?.map Prod.snd

/-- The value that a variable holds as JSON; null counts as nothing. -/
def value? (environment : Environment) (name : String) : Outcome (Option Value) :=
  match environment.get? name with
  | none => .ok none
  | some content =>
    match Value.read? content with
    | some .null => .ok none
    | some value => .ok (some value)
    | none => .error .unreadableSetting

end Environment

namespace Settings

/-- The value for a field: the given one, or that of the environment. -/
def pick (given : Given) (field : String) (fromEnvironment : Option Value) : Option Value :=
  (Value.under? field given).or fromEnvironment

def read {α : Type} (standard : α) (check : Value → Checked α) : Option Value → Checked α
  | some value => check value
  | none => .ok standard

/-- Refuses values for fields that a group does not have. -/
def checkKnown (fields : List String) (given : Given) : Checked Unit :=
  match given.filter fun (key, _) => !fields.contains key with
  | [] => .ok ()
  | unknown => .error (unknown.map fun (key, _) => ⟨key, .unexpected⟩)

def plain (environment : Environment) (name : String) : Option Value :=
  (environment.get? name).map .text

/-- The fields of the groups. -/
def rulesFields : List String := ["rules_file", "rules_file_ruleset", "strict_tables"]
def highlightFields : List String := ["level", "enable", "disable"]
def indentFields : List String := ["offset", "tab_width"]

/-- A group, if its fields are right and no others are given. -/
def closed {α : Type} (fields : List String) (given : Given) (group : Checked α) : Checked α :=
  Checked.apply (group.map fun group _ => group) (checkKnown fields given)

def rulesFrom (environment : Environment) (given : Given) : Outcome (Checked RulesSettings) :=
  let field (name : String) := pick given name (plain environment ("rules_" ++ name))
  .ok <| closed rulesFields given <| Checked.apply (Checked.apply
    ((read none (Field.optionalText "rules_file") (field "rules_file")).map RulesSettings.mk)
    (read "default" (Field.text "rules_file_ruleset") (field "rules_file_ruleset")))
    (read false (Field.bool "strict_tables") (field "strict_tables"))

/-- The settings for highlighting. Lists in the environment are written as JSON. -/
def highlightFrom (environment : Environment) (given : Given) :
    Outcome (Checked HighlightSettings) := do
  let enable ← environment.value? "highlight_enable"
  let disable ← environment.value? "highlight_disable"
  let level := plain environment "highlight_level"
  return closed highlightFields given <| Checked.apply (Checked.apply
    ((read 3 (Field.int "level" (some 1) (some 4)) (pick given "level" level)).map
      HighlightSettings.mk)
    (read [] (Field.texts "enable") (pick given "enable" enable)))
    (read [] (Field.texts "disable") (pick given "disable" disable))

def indentFrom (environment : Environment) (given : Given) : Outcome (Checked IndentSettings) :=
  let field (name : String) := pick given name (plain environment ("indent_" ++ name))
  .ok <| closed indentFields given <| Checked.apply
    ((read 4 (Field.int "offset" (some 0) none) (field "offset")).map IndentSettings.mk)
    (read 8 (Field.int "tab_width" (some 1) none) (field "tab_width"))

/-- Fails if a variable for a whole group is not JSON. -/
def checkGroups (environment : Environment) : Outcome Unit := do
  let _ ← environment.value? "treelens_rules"
  let _ ← environment.value? "treelens_highlight"
  let _ ← environment.value? "treelens_indent"

/-- Settings from given values, with the environment for the rest. The groups are looked at one
after the other. -/
def ofGiven (environment : Environment) (rules highlight indent : Given) : Outcome Settings := do
  let rules ← (← rulesFrom environment rules).toOutcome
  let highlight ← (← highlightFrom environment highlight).toOutcome
  let indent ← (← indentFrom environment indent).toOutcome
  checkGroups environment
  return ⟨rules, highlight, indent⟩

/-- Given values under the names of the fields, however their letters are written. -/
def rename (fields : List String) (given : Given) : Given :=
  given.foldl (fun renamed (key, value) =>
    Value.put renamed ((fields.find? (· == smallLetters key)).getD key) value) []

/-- A group that may be given as a whole. Faults of a group that is given are collected; those of a
group that is not end the reading. -/
def group {α : Type} (name : String) (fields : List String)
    (build : Given → Outcome (Checked α)) : Option Value → Outcome (Checked α)
  | none => do return .ok (← (← build []).toOutcome)
  | some (.mapping given) => (build (rename fields given)).map (Checked.within name)
  | some _ => .ok (Field.refuse name .notRecord)

/-- Settings from the environment alone. -/
def ofEnvironment (environment : Environment) : Outcome Settings := do
  let rules ← environment.value? "treelens_rules"
  let highlight ← environment.value? "treelens_highlight"
  let indent ← environment.value? "treelens_indent"
  let rules ← group "rules" rulesFields (rulesFrom environment) rules
  let highlight ← group "highlight" highlightFields (highlightFrom environment) highlight
  let indent ← group "indent" indentFields (indentFrom environment) indent
  Checked.toOutcome <| Checked.apply (Checked.apply (rules.map Settings.mk) highlight) indent

end Settings

end TreeRules
