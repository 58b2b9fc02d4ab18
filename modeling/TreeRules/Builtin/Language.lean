import TreeRules.Builtin.Python
import TreeRules.Builtin.Solidity

/-! # Languages that come with rules

A language is known by its name and by the suffixes of its files.
-/
namespace TreeRules.Builtin

/-- A language with its rules. -/
structure Language where
  name : String
  suffixes : List String
  rules : Outcome LanguageRules

def languages : List Language :=
  [⟨"python", [".py", ".pyi"], Python.rules⟩, ⟨"solidity", [".sol"], Solidity.rules⟩]

def available : List String := (languages.map (·.name)).mergeSort (· ≤ ·)

def find? (name : String) : Option Language := languages.find? (·.name == name)

def rulesFor (name : String) : Outcome LanguageRules :=
  match find? name with
  | some language => language.rules
  | none => .error (.value (.noTables name available))

/-- The language whose files have a suffix, in letters of any case. -/
def ofSuffix? (suffix : String) : Option String :=
  (languages.find? (·.suffixes.contains suffix.toLower)).map (·.name)

end TreeRules.Builtin
