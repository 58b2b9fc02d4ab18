import Mathlib.Tactic.Common
import TreeRules.Command.Run

/-! # The bounds of settings

The fields of the settings have bounds, and what comes from the environment is held to them. The
options of a command are put in afterwards and are not checked again, so the settings that a command
runs with keep the bounds only as far as the options have the same ones. That is so for the level,
and there is no option for the width of tabs; the option for the offset takes any integer.
-/
namespace TreeRules

/-! ## Fields with bounds -/

namespace Field

/-- A number is not below and not above bounds, as far as they are given. -/
def Within (least most : Option Int) (n : Int) : Prop :=
  (∀ low ∈ least, low ≤ n) ∧ ∀ high ∈ most, n ≤ high

theorem bounded_within {path : String} {least most : Option Int} {n m : Int}
    (h : bounded path least most n = .ok m) : Within least most m := by
  unfold bounded at h
  split at h
  · cases h
  next hleast =>
    split at h
    · cases h
    next hmost =>
      cases h
      constructor
      · rintro low ⟨⟩
        simpa using hleast
      · rintro high ⟨⟩
        simpa using hmost

/-- Whatever an integer is read from, it lies within the bounds of its field. -/
theorem int_within {path : String} {least most : Option Int} {value : Value} {n : Int}
    (h : int path least most value = .ok n) : Within least most n := by
  cases value with
  | int | bool => exact bounded_within h
  | real x =>
    rw [int] at h
    split at h
    · exact bounded_within h
    · cases h
  | text content =>
    rw [int] at h
    split at h
    · exact bounded_within h
    · cases h
  | null | list | mapping => cases h

end Field

namespace Settings

/-- The level, the offset and the width of tabs have the values that their fields allow. -/
structure Bounded (settings : Settings) : Prop where
  level : 1 ≤ settings.highlight.level ∧ settings.highlight.level ≤ 4
  offset : 0 ≤ settings.indent.offset
  tabWidth : 1 ≤ settings.indent.tabWidth

theorem read_within {path : String} {least most : Option Int} {standard n : Int}
    {value : Option Value} (hstandard : Field.Within least most standard)
    (h : read standard (Field.int path least most) value = .ok n) : Field.Within least most n := by
  cases value with
  | none =>
    cases h
    exact hstandard
  | some value => exact Field.int_within h

theorem closed_eq_ok {α : Type} {fields : List String} {given : Given} {group : Checked α} {a : α}
    (h : closed fields given group = .ok a) : group = .ok a := by
  obtain ⟨_, _, hmap, -, rfl⟩ := Checked.apply_eq_ok_iff.1 h
  obtain ⟨_, hgroup, rfl⟩ := Outcome.map_eq_ok.1 hmap
  exact hgroup

variable {environment : Environment} {given : Given}

theorem highlightFrom_level {highlight : HighlightSettings}
    (h : highlightFrom environment given = .ok (.ok highlight)) :
    1 ≤ highlight.level ∧ highlight.level ≤ 4 := by
  obtain ⟨_, -, h⟩ := Outcome.bind_eq_ok.1 h
  obtain ⟨_, -, h⟩ := Outcome.bind_eq_ok.1 h
  have hgroup := closed_eq_ok (Except.ok.inj h)
  simp only [Checked.apply_eq_ok_iff, Outcome.map_eq_ok] at hgroup
  obtain ⟨_, _, ⟨_, _, ⟨level, hlevel, rfl⟩, -, rfl⟩, -, rfl⟩ := hgroup
  have hwithin := read_within (by simp [Field.Within]) hlevel
  exact ⟨hwithin.1 1 rfl, hwithin.2 4 rfl⟩

theorem indentFrom_least {indent : IndentSettings}
    (h : indentFrom environment given = .ok (.ok indent)) :
    0 ≤ indent.offset ∧ 1 ≤ indent.tabWidth := by
  have hgroup := closed_eq_ok (Except.ok.inj h)
  simp only [Checked.apply_eq_ok_iff, Outcome.map_eq_ok] at hgroup
  obtain ⟨_, tabWidth, ⟨offset, hoffset, rfl⟩, htabs, rfl⟩ := hgroup
  exact ⟨(read_within (by simp [Field.Within]) hoffset).1 0 rfl,
    (read_within (by simp [Field.Within]) htabs).1 1 rfl⟩

end Settings

namespace Command

/-! ## Options -/

/-- The changes of the settings that a command asks for. -/
def changes : Command → Changes
  | .highlight _ chosen =>
    { level := chosen.level, enable := chosen.enable, disable := chosen.disable }
  | .indent _ chosen => { offset := chosen.offset }
  | .outline .. | .rules _ => {}

/-- What a command does once the settings are made. -/
def runWith (workspace : Workspace) (settings : Settings) : Command → Outcome Done
  | .highlight file chosen => runHighlight workspace settings file chosen
  | .indent file chosen => runIndent workspace settings file chosen
  | .outline file chosen => runOutline workspace settings file chosen
  | .rules language => runRules workspace settings language

theorem perform_eq (workspace : Workspace) (environment : Environment) (options : CommonOptions)
    (command : Command) :
    perform workspace environment options command =
      settings environment options command.changes >>= fun settings =>
        command.runWith workspace settings := by
  cases command <;> rfl

variable {workspace : Workspace} {arguments : List String} {options : CommonOptions}
  {command : Command}

theorem optional_within {least most n : Int} {word : Option String}
    (h : optional (within? least most) word = some (some n)) : least ≤ n ∧ n ≤ most := by
  cases word with
  | none => cases h
  | some word =>
    obtain ⟨_, hword, ⟨⟩⟩ := Option.map_eq_some_iff.1 h
    simpa using (Option.filter_eq_some_iff.1 hword).2

theorem highlight?_level (h : highlight? workspace arguments = some command) :
    ∀ level ∈ command.changes.level, 1 ≤ level ∧ level ≤ 4 := by
  simp only [highlight?, Option.bind_eq_bind, Option.bind_eq_some_iff] at h
  obtain ⟨_, -, _, -, _, -, _, hlevel, _, -, _, -, _, -, ⟨⟩⟩ := h
  rintro level ⟨⟩
  exact optional_within hlevel

theorem indent?_level (h : indent? workspace arguments = some command) :
    command.changes.level = none := by
  simp only [indent?, Option.bind_eq_bind, Option.bind_eq_some_iff] at h
  obtain ⟨_, -, _, -, _, -, _, -, _, -, _, -, ⟨⟩⟩ := h
  rfl

theorem outline?_level (h : outline? workspace arguments = some command) :
    command.changes.level = none := by
  simp only [outline?, Option.bind_eq_bind, Option.bind_eq_some_iff] at h
  obtain ⟨_, -, _, -, _, -, _, -, _, -, ⟨⟩⟩ := h
  rfl

theorem rules?_level (h : rules? arguments = some command) : command.changes.level = none := by
  simp only [rules?, Option.bind_eq_bind, Option.bind_eq_some_iff] at h
  obtain ⟨_, -, _, -, ⟨⟩⟩ := h
  rfl

/-- A level that a command asks for is one that the field allows. -/
theorem level_of_ofArguments? (h : ofArguments? workspace arguments = some (options, command)) :
    ∀ level ∈ command.changes.level, 1 ≤ level ∧ level ≤ 4 := by
  simp only [ofArguments?, Option.bind_eq_bind, Option.bind_eq_some_iff] at h
  obtain ⟨⟨common, rest⟩, -, h⟩ := h
  split at h
  · obtain ⟨_, hread, ⟨⟩⟩ := Option.bind_eq_some_iff.1 h
    exact highlight?_level hread
  · obtain ⟨_, hread, ⟨⟩⟩ := Option.bind_eq_some_iff.1 h
    rw [indent?_level hread]
    exact nofun
  · obtain ⟨_, hread, ⟨⟩⟩ := Option.bind_eq_some_iff.1 h
    rw [outline?_level hread]
    exact nofun
  · obtain ⟨_, hread, ⟨⟩⟩ := Option.bind_eq_some_iff.1 h
    rw [rules?_level hread]
    exact nofun
  · cases h

/-! ## Settings of commands -/

/-- The settings of a command are those of the environment, changed in the places that the options
name. -/
theorem settings_eq_ok {environment : Environment} {asked : Changes} {chosen : Settings}
    (h : settings environment options asked = .ok chosen) :
    ∃ highlight indent, Settings.highlightFrom environment [] = .ok (.ok highlight) ∧
      Settings.indentFrom environment [] = .ok (.ok indent) ∧
      chosen.highlight.level = asked.level.getD highlight.level ∧
      chosen.indent = { indent with offset := asked.offset.getD indent.offset } := by
  simp only [settings, Outcome.bind_eq_ok, Checked.toOutcome_eq_ok_iff] at h
  obtain ⟨_, hhighlight, highlight, rfl, _, hindent, indent, rfl, _, -, _, -, _, -, ⟨⟩⟩ := h
  exact ⟨highlight, indent, hhighlight, hindent, rfl, rfl⟩

theorem settings_of_openDocument {chosen : Settings} {file : String} {language : Option String}
    {doc : Document} {session : Session}
    (h : openDocument workspace chosen file language = .ok (doc, session)) :
    session.settings = chosen := by
  simp only [openDocument, Outcome.bind_eq_ok, Session.start, Outcome.map_eq_ok] at h
  obtain ⟨_, -, _, ⟨_, -, rfl⟩, ⟨⟩⟩ := h
  rfl

/-- A command that is accepted runs with the settings of the environment, changed by its options,
and so does every session that it opens. The level and the width of tabs keep their bounds. All
settings do just if the command does not ask for an offset below zero. -/
theorem settings_bounded_iff {environment : Environment} {chosen : Settings}
    (haccepted : ofArguments? workspace arguments = some (options, command))
    (hsettings : settings environment options command.changes = .ok chosen) :
    perform workspace environment options command = command.runWith workspace chosen ∧
      (∀ file language doc session,
        openDocument workspace chosen file language = .ok (doc, session) →
          session.settings = chosen) ∧
      (1 ≤ chosen.highlight.level ∧ chosen.highlight.level ≤ 4) ∧
      1 ≤ chosen.indent.tabWidth ∧
      (chosen.Bounded ↔ ∀ offset ∈ command.changes.offset, 0 ≤ offset) := by
  obtain ⟨highlight, indent, hhighlight, hindent, hlevel, hfields⟩ := settings_eq_ok hsettings
  obtain ⟨hoffset, htabs⟩ := Settings.indentFrom_least hindent
  have hbounds : 1 ≤ chosen.highlight.level ∧ chosen.highlight.level ≤ 4 := by
    rw [hlevel]
    cases hasked : command.changes.level with
    | none => exact Settings.highlightFrom_level hhighlight
    | some level => exact level_of_ofArguments? haccepted level hasked
  have hwidth : 1 ≤ chosen.indent.tabWidth := by
    rw [hfields]
    exact htabs
  have hasked : 0 ≤ chosen.indent.offset ↔ ∀ offset ∈ command.changes.offset, 0 ≤ offset := by
    rw [hfields]
    cases command.changes.offset with
    | none => exact ⟨fun _ => nofun, fun _ => hoffset⟩
    | some offset => simp
  refine ⟨?_, fun _ _ _ _ => settings_of_openDocument, hbounds, hwidth, ?_, ?_⟩
  · rw [perform_eq, hsettings]
    rfl
  · exact fun hbounded => hasked.1 hbounded.offset
  · exact fun hall => ⟨hbounds, hasked.2 hall, hwidth⟩

/-- A folder with one file, for which there is no parser. -/
def oneFile : Workspace where
  files := [("a.py", .mapping [("source", .text "x")])]
  toolkit := ⟨fun _ => .error "", fun _ _ => .error ""⟩

theorem eq_ok_of_toOption {α : Type} {outcome : Outcome α} {a : α}
    (h : outcome.toOption = some a) : outcome = .ok a := by
  cases outcome with
  | error => cases h
  | ok => exact congrArg _ (Option.some.inj h)

/-- The highest level from the command line and the least width of tabs from the environment. -/
theorem settings_bounded_iff_limits : ∃ options command chosen,
    ofArguments? oneFile ["highlight", "a.py", "--level=4"] = some (options, command) ∧
      settings [("Indent_Tab_Width", " 1.0 ")] options command.changes = .ok chosen ∧
      chosen.highlight.level = 4 ∧ chosen.indent.tabWidth = 1 ∧ chosen.Bounded := by
  have haccepted : ofArguments? oneFile ["highlight", "a.py", "--level=4"] =
      some ({}, .highlight "a.py" ⟨none, some 4, "", "", none, none, .console, none⟩) := rfl
  have hsettings : settings [("Indent_Tab_Width", " 1.0 ")] {} { level := some 4 } =
      .ok { highlight := { level := 4 }, indent := { tabWidth := 1 } } :=
    eq_ok_of_toOption (by decide +kernel)
  have hbounded := (settings_bounded_iff haccepted hsettings).2.2.2.2
  exact ⟨_, _, _, haccepted, hsettings, rfl, rfl, hbounded.2 nofun⟩

/-- An offset below zero is accepted and ends up in the settings. -/
theorem settings_offset_below : ∃ options command chosen,
    ofArguments? oneFile ["indent", "a.py", "--indent-offset", "-3"] = some (options, command) ∧
      settings [] options command.changes = .ok chosen ∧ chosen.indent.offset = -3 ∧
      ¬chosen.Bounded := by
  have haccepted : ofArguments? oneFile ["indent", "a.py", "--indent-offset", "-3"] =
      some ({}, .indent "a.py" ⟨none, none, some (-3), false, .console⟩) := rfl
  have hsettings : settings [] {} { offset := some (-3) } = .ok { indent := { offset := -3 } } :=
    rfl
  refine ⟨_, _, _, haccepted, hsettings, rfl, ?_⟩
  exact fun hbounded => absurd hbounded.offset (by decide)

end Command

end TreeRules
