import TreeRules.Command.Arguments
import TreeRules.Settings
import TreeRules.Value.Access
import TreeRules.Workspace

/-! # Commands

The commands that can be given on the command line, with their options. Arguments that make no
command are refused, as are files that are not there.
-/
namespace TreeRules

/-- Options in front of every command. -/
structure CommonOptions where
  rulesFile : Option String := none
  ruleset : String := "default"
  strict : Bool := false

/-- How results are written. -/
inductive Format where
  | console
  | json
  deriving DecidableEq, Repr

namespace Format

def name : Format → String
  | .console => "console"
  | .json => "json"

end Format

/-- Options for highlighting. -/
structure HighlightOptions where
  language : Option String
  level : Option Int
  enable : String
  disable : String
  firstLine : Option Int
  lastLine : Option Int
  format : Format
  output : Option String

/-- Options for indentation. -/
structure IndentOptions where
  language : Option String
  line : Option Int
  offset : Option Int
  check : Bool
  format : Format

/-- Options for outlines. -/
structure OutlineOptions where
  language : Option String
  categories : List Category
  format : Format

/-- A command. -/
inductive Command where
  | highlight (file : String) (options : HighlightOptions)
  | indent (file : String) (options : IndentOptions)
  | outline (file : String) (options : OutlineOptions)
  | rules (language : String)

namespace Command
open Arguments

/-- The choice that a word names, in letters of any case. -/
def choice? {α : Type} (all : List α) (name : α → String) (word : String) : Option α :=
  all.find? fun item => name item == smallLetters word

/-- An option that may be missing, read in some way. -/
def optional {α : Type} (read : String → Option α) : Option String → Option (Option α)
  | none => some none
  | some word => (read word).map some

def integer? (word : String) : Option Int := Value.integerOf? word.toList

def within? (least most : Int) (word : String) : Option Int :=
  (integer? word).filter fun n => least ≤ n && n ≤ most

def existing? (workspace : Workspace) (path : String) : Option String :=
  if path ≠ "" ∧ workspace.has path then some path else none

def only? : List String → Option String
  | [argument] => some argument
  | _ => none

def logLevels : List String := ["debug", "info", "warning", "error", "critical"]

/-- The options in front of every command, with the arguments that follow them. -/
def common? (workspace : Workspace) (arguments : List String) :
    Option (CommonOptions × List String) := do
  let known : Known := {
    valued := ["--log-level", "--rules-file", "--ruleset"]
    flags := ["--strict"] }
  let scanned ← scan known false arguments
  let _ ← optional (choice? logLevels id) (scanned.value? "--log-level")
  let rulesFile ← optional (existing? workspace) (scanned.value? "--rules-file")
  return (⟨rulesFile, (scanned.value? "--ruleset").getD "default", scanned.has "--strict"⟩,
    scanned.plain)

def format? (scanned : Scanned) : Option Format := do
  let format ← optional (choice? [Format.console, .json] Format.name) (scanned.value? "--format")
  return format.getD .console

def highlight? (workspace : Workspace) (arguments : List String) : Option Command := do
  let known : Known := {
    valued := ["--language", "--level", "--enable", "--disable", "--start-line", "--end-line",
      "--format", "--output"]
    letters := [('o', "--output")] }
  let scanned ← scan known true arguments
  let file ← existing? workspace (← only? scanned.plain)
  return .highlight file {
    language := scanned.value? "--language"
    level := ← optional (within? 1 4) (scanned.value? "--level")
    enable := (scanned.value? "--enable").getD ""
    disable := (scanned.value? "--disable").getD ""
    firstLine := ← optional integer? (scanned.value? "--start-line")
    lastLine := ← optional integer? (scanned.value? "--end-line")
    format := ← format? scanned
    output := scanned.value? "--output" }

def indent? (workspace : Workspace) (arguments : List String) : Option Command := do
  let known : Known := {
    valued := ["--language", "--line", "--indent-offset", "--format"]
    flags := ["--check"] }
  let scanned ← scan known true arguments
  let file ← existing? workspace (← only? scanned.plain)
  return .indent file {
    language := scanned.value? "--language"
    line := ← optional integer? (scanned.value? "--line")
    offset := ← optional integer? (scanned.value? "--indent-offset")
    check := scanned.has "--check"
    format := ← format? scanned }

def outline? (workspace : Workspace) (arguments : List String) : Option Command := do
  let known : Known := { valued := ["--language", "--category", "--format"] }
  let scanned ← scan known true arguments
  let file ← existing? workspace (← only? scanned.plain)
  return .outline file {
    language := scanned.value? "--language"
    categories := ← (scanned.values "--category").mapM (choice? Category.all Category.name)
    format := ← format? scanned }

def rules? (arguments : List String) : Option Command := do
  let scanned ← scan {} true arguments
  return .rules (← only? scanned.plain)

/-- The command that arguments make, with the options in front of it. -/
def ofArguments? (workspace : Workspace) (arguments : List String) :
    Option (CommonOptions × Command) := do
  let (options, rest) ← common? workspace arguments
  let command ← match rest with
    | "highlight" :: rest => highlight? workspace rest
    | "indent" :: rest => indent? workspace rest
    | "outline" :: rest => outline? workspace rest
    | "rules" :: rest => rules? rest
    | _ => none
  return (options, command)

end Command

end TreeRules
