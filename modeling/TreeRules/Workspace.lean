import TreeRules.Builtin.Language
import TreeRules.FileName
import TreeRules.Snapshot

/-! # Workspaces

A workspace is a folder of files, with what the parsers know about them. Source files come with
their trees, and rule files with the document that they hold, or the reason why they hold none.
-/
namespace TreeRules

/-- Files by their names, and the parsers' knowledge. -/
structure Workspace where
  files : List (String × Value)
  toolkit : Toolkit

namespace Workspace

variable (workspace : Workspace)

def file? (path : String) : Option Value := workspace.files.lookup (FileName.shown path)

def isFolder (path : String) : Bool :=
  FileName.shown path == "." ||
    workspace.files.any fun (name, _) => FileName.isIn (FileName.shown path) name

def has (path : String) : Bool := (workspace.file? path).isSome || workspace.isFolder path

def ruleDocument (path : String) : Outcome Value :=
  match workspace.file? path with
  | none => .error (.file (.rules path))
  | some file =>
    match Snapshot.part? "yaml_error" file with
    | some reason => .error (.rules (.unreadable path (Snapshot.text reason)))
    | none => .ok (Snapshot.part "loaded" file)

/-- The rules that a ruleset of a rule file gives. -/
def rulesIn (path ruleset : String) : Outcome LanguageRules := do
  LanguageRules.ofDocument (← workspace.ruleDocument path) ruleset

def languageOf? (path : String) : Option String := Builtin.ofSuffix? (FileName.suffix path)

/-- The document of a file in a language for which there is a parser. -/
def parse (language : String) (file : Value) : Outcome Document :=
  match workspace.toolkit.grammar language with
  | .ok _ => .ok (Snapshot.documentOf workspace.toolkit language file)
  | .error reason => .error (.noParser language reason)

/-- The document at a path, in a language that is named or found by the suffix. -/
def document (path : String) (language : Option String) : Outcome Document :=
  let name := match language with
    | some name => if name = "" then languageOf? path else some name
    | none => languageOf? path
  match name with
  | none => .error (.value (.noLanguage (FileName.shown path)))
  | some name =>
    match workspace.file? path with
    | some file => workspace.parse name file
    | none =>
      let shown := FileName.shown path
      let reason := "[Errno 21] Is a directory: " ++ Quoted.quote shown
      .error (.value (.unreadableFile shown reason))

end Workspace

end TreeRules
