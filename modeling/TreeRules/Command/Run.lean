import TreeRules.Command.Basic
import TreeRules.Console.Grid
import TreeRules.Console.Styling
import TreeRules.Report
import TreeRules.Session

/-! # Running commands

A command prints text and may write a file, and ends with an exit code. Errors of the engine are
printed as messages; others end the command.
-/
namespace TreeRules.Command

/-- What a command did. -/
structure Done where
  exit : Nat := 0
  output : String := ""
  written : List (String × String) := []
  deriving Repr

/-- How a run ends: the arguments make no command, an error ends it, or it is done. -/
inductive Ending where
  | refused
  | failed (error : Error)
  | done (result : Done)

def printed (text : List Char) : String := String.ofList (Screen.shown text) ++ "\n"

def line (text : String) : String := printed (Markup.plain text).toList

/-- The message of an error, as the end of a command. -/
def failure (message : String) : Done :=
  { exit := 1, output := line (Markup.tagged "bold red" "Error:" ++ " " ++ message) }

/-- Whether an error is printed as a message when a document is opened. -/
def isReported : Error → Bool
  | .value _ | .noParser _ _ => true
  | error => error.ofEngine

/-- Goes on with a result. Some errors are printed as messages instead. -/
def reporting {α : Type} (reported : Error → Bool) (outcome : Outcome α)
    (next : α → Outcome Done) : Outcome Done :=
  match outcome with
  | .ok a => next a
  | .error error => if reported error then .ok (failure error.message) else .error error

/-- The words of a list that is written with commas. -/
def words (text : String) : List String :=
  ((text.toList.splitOn ',').map fun word => String.ofList (Blank.trimChars word)).filter (· != "")

/-- Changes of the settings by the options of a command. -/
structure Changes where
  level : Option Int := none
  enable : String := ""
  disable : String := ""
  offset : Option Int := none

/-- The settings of the environment, changed by the options. Options are not checked again. -/
def settings (environment : Environment) (options : CommonOptions) (changes : Changes) :
    Outcome Settings := do
  let highlight ← (← Settings.highlightFrom environment []).toOutcome
  let indent ← (← Settings.indentFrom environment []).toOutcome
  let rules ← (← Settings.rulesFrom environment []).toOutcome
  Settings.checkGroups environment
  return {
    rules := {
      file := (options.rulesFile.map FileName.shown).or rules.file
      ruleset := if options.rulesFile.isSome then options.ruleset else rules.ruleset
      strict := options.strict || rules.strict }
    highlight := {
      level := changes.level.getD highlight.level
      enable := highlight.enable ++ words changes.enable
      disable := highlight.disable ++ words changes.disable }
    indent := { indent with offset := changes.offset.getD indent.offset } }

/-- The document of a file with a session for its language. -/
def openDocument (workspace : Workspace) (settings : Settings) (file : String)
    (language : Option String) : Outcome (Document × Session) := do
  let doc ← workspace.document file language
  let session ← Session.start workspace settings doc.language
  return (session.view doc, session)

/-- Writes a text to a file, or prints it. -/
def emit (workspace : Workspace) (text : String) : Option String → Outcome Done
  | none => .ok { output := text ++ "\n" }
  | some path =>
    let shown := FileName.shown path
    let folder := (FileName.parts path.toList).dropLast.map String.ofList
    if workspace.isFolder path then .error .isFolder
    else if folder.isEmpty || workspace.isFolder ("/".intercalate folder) then
      .ok { written := [(shown, text)] }
    else .error (.file (.folder shown))

/-- The text of values between commas; all of them have to be texts. -/
def joined (values : List Value) : Outcome String :=
  if values.all Highlight.isText then .ok (Value.commas (values.map Value.shown))
  else .error .wrongKind

/-- A number of a line, counted from one, as a row; zero counts as not given. -/
def rowOr (standard : Nat) : Option Int → Int
  | some 0 | none => (standard : Int) - 1
  | some line => line - 1

/-- Prints the highlighted text of a file, or its spans. -/
def runHighlight (workspace : Workspace) (settings : Settings) (file : String)
    (options : HighlightOptions) : Outcome Done :=
  reporting isReported (openDocument workspace settings file options.language) fun (doc, session) =>
    let first := rowOr 1 options.firstLine
    let last := rowOr doc.source.rows options.lastLine
    reporting Error.ofEngine (session.highlightRows doc first last) fun spans => do
      let (start, stop) ← Session.bytesOfRows doc first last
      let features ← session.features
      match options.format with
      | .json =>
        emit workspace (Report.highlights true ⟨file, doc.language⟩ features spans) options.output
      | .console =>
        let shown := Markup.tagged "cyan" (← joined features)
        let text := Styling.text spans doc.source.bytes start.toNat stop.toNat
        return { output := line ("\nFeatures: " ++ shown ++ "\n") ++ printed text }

/-- The lines that are not where they should be, as messages. -/
def complaints (doc : Document) (file : String) (results : List Indentation) : List String :=
  results.filterMap fun result => do
    let problem ← Misplaced.ofIndentation? doc result
    let rule := (result.rule.filter (· != "")).getD "no rule"
    let place := FileName.shown file ++ s!":{result.row + 1}"
    let columns := s!"expected column {problem.expected}, found {problem.current} "
    return line (place ++ ": " ++ columns ++ Markup.tagged "dim" s!"({rule})")

def indentGrid (doc : Document) (results : List Indentation) : Grid where
  columns := [⟨"Line", true⟩, ⟨"Column", true⟩, ⟨"Rule", false⟩, ⟨"Text", false⟩]
  rows := results.map fun result =>
    let row := result.row.toNat
    let text := doc.source.textOf (doc.source.rowStart row) (doc.source.rowStop row)
    [toString (result.row + 1), toString result.column, result.rule.getD "",
      String.ofList (Blank.trimChars text)]

/-- Prints the indentation of a file, or of one of its lines. -/
def runIndent (workspace : Workspace) (settings : Settings) (file : String)
    (options : IndentOptions) : Outcome Done :=
  reporting isReported (openDocument workspace settings file options.language) fun (doc, session) =>
    let rows : List Int := match options.line with
      | some line => [line - 1]
      | none => (List.range doc.source.rows).map Int.ofNat
    reporting Error.ofEngine (rows.mapM (session.indentation doc)) fun results =>
      let current := results.map fun result =>
        (result.row, (doc.source.rowColumn doc.tabWidth result.row.toNat : Int))
      if options.check then
        match complaints doc file results with
        | [] => .ok { output := line (Markup.tagged "green" "Indentation OK") }
        | lines => .ok { exit := 1, output := String.join lines }
      else match options.format with
        | .json =>
          .ok { output := Report.indentations true ⟨file, doc.language⟩ results current ++ "\n" }
        | .console => .ok { output := (indentGrid doc results).draw }

def groupText (category : Category) (entries : List Outline.Entry) : String :=
  line ("\n" ++ Markup.tagged "bold cyan" category.name ++ s!" ({entries.length})") ++
    String.join (entries.map fun entry =>
      line (s!"  • {entry.title} " ++
        Markup.tagged "dim" s!"{entry.kind}, lines {entry.firstLine}-{entry.lastLine}"))

def runOutline (workspace : Workspace) (settings : Settings) (file : String)
    (options : OutlineOptions) : Outcome Done :=
  reporting isReported (openDocument workspace settings file options.language)
    fun (doc, session) => do
      let wanted := if options.categories.isEmpty then [.definition] else options.categories
      let groups ← session.outline doc wanted
      match options.format with
      | .json => return { output := Report.outline true ⟨file, doc.language⟩ groups ++ "\n" }
      | .console =>
        if groups.isEmpty then return { output := line (Markup.tagged "yellow" "Nothing found") }
        else
          let texts := groups.map fun (category, entries) => groupText category entries
          return { output := String.join texts ++ "\n" }

/-- The name of a rule in a cell; only texts can stand there. -/
def ruleCell : Value → Outcome String
  | .text name => .ok name
  | .null => .ok ""
  | _ => .error .notShowable

def rulesGrid {α : Type} (title : String) (describe : α → String) (table : Table α) :
    Outcome Grid := do
  let rows ← table.rules.zipIdx.mapM fun (rule, place) => do
    return [toString (place + 1), ← ruleCell rule.name, describe rule.action]
  return { title := some title, columns := [⟨"#", true⟩, ⟨"Name", false⟩, ⟨"Action", false⟩], rows }

def levelsGrid (levels : List (List Value)) : Outcome Grid := do
  let rows ← levels.zipIdx.mapM fun (level, place) => do
    return [toString (place + 1), ← joined level]
  return {
    title := some "Highlight features", columns := [⟨"Level", true⟩, ⟨"Features", false⟩], rows }

def describeIndent (action : IndentAction) : String :=
  action.anchor.name ++ " " ++ action.offset.shown

def runRules (workspace : Workspace) (settings : Settings) (language : String) : Outcome Done :=
  reporting isReported (Session.build workspace settings.rules language) fun rules => do
    let levels ← levelsGrid rules.highlight.levels
    let indent ← rulesGrid "Indent rules" describeIndent rules.indent
    let things ← rulesGrid "Thing rules" Category.name rules.things
    let heading := "\n" ++ Markup.tagged "bold blue" ("Language: " ++ rules.language.shown) ++ "\n"
    return { output := line heading ++ levels.draw ++ indent.draw ++ things.draw }

def perform (workspace : Workspace) (environment : Environment) (options : CommonOptions)
    (command : Command) : Outcome Done := do
  match command with
  | .highlight file chosen =>
    let settings ← settings environment options
      { level := chosen.level, enable := chosen.enable, disable := chosen.disable }
    runHighlight workspace settings file chosen
  | .indent file chosen =>
    runIndent workspace (← settings environment options { offset := chosen.offset }) file chosen
  | .outline file chosen => runOutline workspace (← settings environment options {}) file chosen
  | .rules language => runRules workspace (← settings environment options {}) language

def run (workspace : Workspace) (environment : Environment) (arguments : List String) : Ending :=
  match ofArguments? workspace arguments with
  | none => .refused
  | some (options, command) =>
    match perform workspace environment options command with
    | .ok result => .done result
    | .error error => .failed error

end TreeRules.Command
