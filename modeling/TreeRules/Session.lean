import TreeRules.Highlight.Feature
import TreeRules.Highlight.Projection
import TreeRules.Indent.Line
import TreeRules.Outline.Entry
import TreeRules.Ruleset.Validity
import TreeRules.Settings
import TreeRules.Workspace

/-! # Sessions

A session holds the rules for a language, which were checked when it was opened, and the settings.
It answers what is asked about documents of that language. The width of tabs is that of the
settings.
-/
namespace TreeRules

/-- Checked rules with settings. -/
structure Session where
  rules : LanguageRules
  settings : Settings

namespace Session

/-- The rules for a language: those of the rule file if one is set, else those that come with the
library. A rule file has to be for the same language. -/
def rulesFor (workspace : Workspace) (settings : RulesSettings) (language : String) :
    Outcome LanguageRules := do
  match settings.file with
  | none | some "" => Builtin.rulesFor language
  | some path =>
    let rules ← workspace.rulesIn (FileName.shown path) settings.ruleset
    if rules.language.equal (.text language) then return rules
    else throw (.value (.otherLanguage rules.language language))

/-- The rules for a language, checked. -/
def build (workspace : Workspace) (settings : RulesSettings) (language : String) :
    Outcome LanguageRules := do
  let rules ← rulesFor workspace settings language
  Validity.check workspace.toolkit settings.strict rules
  return rules

def start (workspace : Workspace) (settings : Settings) (language : String) : Outcome Session :=
  (build workspace settings.rules language).map fun rules => ⟨rules, settings⟩

variable (session : Session)

/-- A document with the width of tabs that is set. -/
def view (doc : Document) : Document := { doc with tabWidth := session.settings.indent.tabWidth }

def features : Outcome (List Value) :=
  let settings := session.settings.highlight
  Feature.enabled session.rules.highlight.levels settings.level (settings.enable.map .text)
    (settings.disable.map .text)

/-- The spans of a document, for the features that are switched on or for others. -/
def highlight (doc : Document) (range : Option (Int × Int)) (features : Option (List Value)) :
    Outcome (List Span) := do
  let enabled ← match features with
    | some features => pure features
    | none => session.features
  Highlight.project (session.view doc) session.rules.highlight enabled range

/-- The bytes from the start of one row to the end of another. -/
def bytesOfRows (doc : Document) (first last : Int) : Outcome (Int × Int) := do
  let start ← doc.source.lineStart first
  let stop ← doc.source.lineStop last
  return (start, stop)

def highlightRows (doc : Document) (first last : Int) : Outcome (List Span) := do
  doc.source.checkRow first
  doc.source.checkRow last
  let range ← bytesOfRows doc first last
  Highlight.project (session.view doc) session.rules.highlight (← session.features) (some range)

def indentation (doc : Document) (row : Int) : Outcome Indentation :=
  Indentation.ofRow (session.view doc) session.rules.indent session.settings.indent.offset row

/-- The lines of a document that do not start where they should. -/
def misplaced (doc : Document) : Outcome (List Misplaced) :=
  Misplaced.all (session.view doc) session.rules.indent session.settings.indent.offset

def classify (doc : Document) (place : Place) : Outcome (Option Category) :=
  Thing.classify (session.view doc) session.rules.things place

def nameOf (doc : Document) (place : Place) : Outcome (Option (List Char)) :=
  Thing.nameOf (session.view doc) session.rules.things session.rules.names place

def outline (doc : Document) (wanted : List Category) : Outcome Outline.Groups :=
  Outline.ofDocument (session.view doc) session.rules.things session.rules.names wanted

def next (doc : Document) (byte : Int) (category : Category) : Outcome (Option Place) :=
  Thing.next (session.view doc) session.rules.things byte category

def previous (doc : Document) (byte : Int) (category : Category) : Outcome (Option Place) :=
  Thing.previous (session.view doc) session.rules.things byte category

def enclosing (doc : Document) (byte : Int) (category : Category) : Outcome (Option Place) :=
  Thing.enclosing (session.view doc) session.rules.things byte category

end Session

end TreeRules
