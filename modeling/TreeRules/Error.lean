import TreeRules.Value.Shown

/-! # What can go wrong

One type of causes for the whole library. Rule documents, predicates, trees and given values each
have their own faults; a value of a shape that an operation cannot work with is an error without a
text of its own. The wording of every cause is in the `message` functions.
-/
namespace TreeRules

/-- What a pattern is matched against. -/
inductive PatternUse where
  | type
  | text
  | line
  deriving DecidableEq, Repr

namespace PatternUse

def name : PatternUse → String
  | .type => "type"
  | .text => "text"
  | .line => "line"

end PatternUse

/-- Why a predicate or a table cannot apply to its grammar. -/
inductive PredicateFault where
  | badPattern (use : PatternUse) (source : String)
  | badOffset (value : Value)
  | unknownKind (kind language : String)
  | unknownField (field : Value) (language : String)
  | unknownGrammar (language : Value) (reason : String)
  | badQuery (language reason query : String)
  | missingCapture (capture query : Value)
  | accumulating (table : String)
  | notFirstMatch (table : String)
  | undeclaredFeature (rule feature : Value)
  | chainWithoutKinds (rule : Value)
  | inRule (rule : Value) (fault : PredicateFault)
  deriving Repr

namespace PredicateFault

/-- The wording of a fault. The reason why a pattern is not well formed is not told apart. -/
def message : PredicateFault → String
  | .badPattern use source => s!"Invalid {use.name} pattern '{source}': <re.error>"
  | .badOffset value => s!"Invalid indent offset {value.quoted}"
  | .unknownKind kind language => s!"Node type '{kind}' does not exist in the {language} grammar"
  | .unknownField field language =>
    s!"Field '{field.shown}' does not exist in the {language} grammar"
  | .unknownGrammar language reason => s!"Unknown grammar '{language.shown}': {reason}"
  | .badQuery language reason query => s!"Query does not compile for {language}: {reason}\n{query}"
  | .missingCapture capture query =>
    s!"Capture '@{capture.shown}' is not defined by query {query.quoted}"
  | .accumulating table => s!"Table '{table}' is accumulating; resolve_all returns every match"
  | .notFirstMatch table => s!"Table '{table}' must be first-match, not accumulating"
  | .undeclaredFeature rule feature =>
    s!"Highlight rule '{rule.shown}' belongs to undeclared feature '{feature.shown}'"
  | .chainWithoutKinds rule =>
    s!"Rule '{rule.shown}' uses the member-chain anchor without chain node types"
  | .inRule rule fault =>
    (if rule.truthy then s!"Rule '{rule.shown}': " else "Rule: ") ++ fault.message

end PredicateFault

/-- The keys of a predicate entry, in alphabetical order. -/
def predicateKeys : List String :=
  ["all", "always", "any", "capture", "chain", "field", "line", "no_node", "node", "not", "parent",
    "query", "text", "text_field"]

/-- Why a rule document cannot be read. -/
inductive RulesFault where
  | unknownPredicate (name : String)
  | notPredicate (entry : Value)
  | unknownKeys (keys : List String)
  | badChain (value : Value)
  | badField (value : Value)
  | queryWithoutCapture (query : Value)
  | notPredicates (key : String)
  | testsNothing (entry : Value)
  | predicate (fault : PredicateFault)
  | badChoice (what : String) (value : Value) (choices : List String)
  | missingPart (kind : String) (rule : Option Value) (part : String)
  | badNameSource (kind : String)
  | unknownNameSource (key kind : String)
  | missingLanguage (ruleset : String)
  | circular (ruleset : String) (path : List String)
  | missingBase (ruleset : Value) (extendedBy : String)
  | notRuleset (ruleset : String)
  | missingRulesets
  | notRulesets
  | missingRuleset (ruleset : String) (available : List String)
  | unreadable (path reason : String)
  deriving Repr

namespace RulesFault

def message : RulesFault → String
  | .unknownPredicate name => s!"Unknown predicate '{name}'"
  | .notPredicate entry => s!"Predicate must be a non-empty mapping, got {entry.quoted}"
  | .unknownKeys keys =>
    s!"Unknown predicate key(s) {Value.commas keys}. Valid keys: {Value.commas predicateKeys}"
  | .badChain value => s!"'chain' must be a list of 1 to 3 elements, got {value.quoted}"
  | .badField value =>
    "'field' must be a name or \x7bname, match\x7d, got " ++ value.quoted
  | .queryWithoutCapture query => s!"Query predicate {query.quoted} missing required 'capture'"
  | .notPredicates key => s!"'{key}' must be a non-empty list of predicates"
  | .testsNothing entry => s!"Predicate {entry.quoted} does not test anything"
  | .predicate fault => fault.message
  | .badChoice what value choices =>
    s!"Invalid {what} '{value.shown}'. Valid values: {Value.commas choices}"
  | .missingPart kind rule part =>
    let label := match rule with
      | some name => s!" '{name.shown}'"
      | none => ""
    s!"{kind} rule{label} missing required '{part}' field"
  | .badNameSource kind => s!"Name source for '{kind}' must be one of field/child/named_child"
  | .unknownNameSource key kind => s!"Unknown name source '{key}' for '{kind}'"
  | .missingLanguage ruleset => s!"Ruleset '{ruleset}' missing 'language'"
  | .circular ruleset path =>
    let cycle := " -> ".intercalate path
    s!"Circular dependency detected in ruleset '{ruleset}': {cycle}"
  | .missingBase ruleset extendedBy =>
    s!"Ruleset '{ruleset.shown}' not found (extended by '{extendedBy}')"
  | .notRuleset ruleset => s!"Ruleset '{ruleset}' must be a mapping"
  | .missingRulesets => "Rules document is missing 'rulesets' mapping"
  | .notRulesets => "'rulesets' must map ruleset names to rulesets"
  | .missingRuleset ruleset available =>
    s!"Ruleset '{ruleset}' not found. Available rulesets: {Value.commas available}"
  | .unreadable path reason => s!"Invalid YAML in {path}: {reason}"

end RulesFault

/-- Why a tree, a node or a position does not fit the source. -/
inductive TreeFault where
  | edited
  | beyondSource (stop size : Nat)
  | staleNode (kind : String) (start : Nat)
  | nodeOutside (kind : String) (start stop : Nat)
  | rowOutside (row : Int) (rows : Nat)
  | byteOutside (byte : Int) (size : Nat)
  deriving DecidableEq, Repr

namespace TreeFault

def message : TreeFault → String
  | .edited => "Tree was edited but not re-parsed"
  | .beyondSource stop size => s!"Tree spans {stop} bytes but source has only {size}"
  | .staleNode kind start => s!"Node '{kind}' at byte {start} is stale"
  | .nodeOutside kind start stop => s!"Node '{kind}' spans {start}-{stop} outside the source"
  | .rowOutside row rows => s!"Line {row} is outside the buffer (0-{rows - 1})"
  | .byteOutside byte size => s!"Position {byte} is outside the buffer (0-{size})"

end TreeFault

/-- Why a given value is refused. -/
inductive ValueFault where
  | badInteger (text : String)
  | badByteRange
  | badCategory (value : Value)
  | otherLanguage (rules : Value) (buffer : String)
  | noTables (language : String) (available : List String)
  | noLanguage (path : String)
  | unreadableFile (path reason : String)
  deriving Repr

namespace ValueFault

/-- The wording of a fault. Of a text that is no integer only the start is shown. -/
def message : ValueFault → String
  | .badInteger text =>
    let start := String.ofList ((Quoted.quote text).toList.take 200)
    s!"invalid literal for int() with base 10: {start}"
  | .badByteRange => "Invalid byte range"
  | .badCategory value => s!"{value.quoted} is not a valid ThingCategory"
  | .otherLanguage rules buffer =>
    s!"Rules file is for '{rules.shown}' but the buffer is '{buffer}'"
  | .noTables language available =>
    s!"No rule tables for '{language}'. Available: {Value.commas available}"
  | .noLanguage path => s!"Cannot detect language for file: {path}"
  | .unreadableFile path reason => s!"Failed to read file {path}: {reason}"

end ValueFault

/-- Why a file is not there. -/
inductive FileFault where
  | rules (path : String)
  | folder (path : String)
  deriving DecidableEq, Repr

namespace FileFault

def message : FileFault → String
  | .rules path => s!"Rules file not found: {path}"
  | .folder path => s!"[Errno 2] No such file or directory: {Quoted.quote path}"

end FileFault

/-- What is wrong with one field of a record. -/
inductive FieldProblem where
  | tooSmall
  | tooLarge
  | notText
  | notInteger
  | unreadableInteger
  | fraction
  | notList
  | notBool
  | unreadableBool
  | notRecord
  | unexpected
  deriving DecidableEq, Repr

/-- A field of a record, by its path, and what is wrong with it. -/
structure FieldFault where
  path : String
  problem : FieldProblem
  deriving DecidableEq, Repr

/-- A cause of failure. -/
inductive Error where
  /-- A rule document cannot be read. -/
  | rules (fault : RulesFault)
  /-- A predicate or table cannot apply to its grammar. -/
  | predicate (fault : PredicateFault)
  /-- A table that has to be total lacks a catch-all. -/
  | noCatchAll (table : String)
  /-- A node or position does not fit the tree. -/
  | tree (fault : TreeFault)
  /-- A given value is refused. -/
  | value (fault : ValueFault)
  /-- There is no parser for a language. -/
  | noParser (language reason : String)
  /-- A file is not there. -/
  | file (fault : FileFault)
  /-- Fields of a record are refused. -/
  | fields (faults : List FieldFault)
  /-- A value is of the wrong kind for an operation. -/
  | wrongKind
  /-- A value has no such part. -/
  | noPart
  /-- A position lies outside a list. -/
  | outOfRange
  /-- A setting is not the text of a value. -/
  | unreadableSetting
  /-- A value cannot be shown in a table. -/
  | notShowable
  /-- A folder stands where a file is expected. -/
  | isFolder
  deriving Repr

namespace Error

/-- The wording of a cause, for those that have one. -/
def message : Error → String
  | .rules fault => fault.message
  | .predicate fault => fault.message
  | .noCatchAll table => s!"Table '{table}' does not end in a catch-all rule"
  | .tree fault => fault.message
  | .value fault => fault.message
  | .noParser language reason => s!"Failed to get parser for {language}: {reason}"
  | .file fault => fault.message
  | .fields _ | .wrongKind | .noPart | .outOfRange | .unreadableSetting | .notShowable
  | .isFolder => ""

/-- Whether a cause is an error of the engine itself, as opposed to one of its surroundings. -/
def ofEngine : Error → Bool
  | .rules _ | .predicate _ | .noCatchAll _ | .tree _ => true
  | _ => false

end Error

/-- A result, or the cause why there is none. -/
abbrev Outcome := Except Error

namespace Outcome

variable {ε α β : Type} {outcome : Except ε α}

theorem bind_eq_ok {next : α → Except ε β} {b : β} :
    (outcome >>= next) = .ok b ↔ ∃ a, outcome = .ok a ∧ next a = .ok b := by
  cases outcome <;> simp [bind, Except.bind]

theorem bind_eq_error {next : α → Except ε β} {error : ε} :
    (outcome >>= next) = .error error ↔
      outcome = .error error ∨ ∃ a, outcome = .ok a ∧ next a = .error error := by
  cases outcome <;> simp [bind, Except.bind]

theorem map_eq_ok {f : α → β} {b : β} :
    outcome.map f = .ok b ↔ ∃ a, outcome = .ok a ∧ f a = b := by
  cases outcome <;> simp [Except.map]

theorem map_eq_error {f : α → β} {error : ε} :
    outcome.map f = .error error ↔ outcome = .error error := by
  cases outcome <;> simp [Except.map]

theorem pure_eq_ok {a b : α} : (pure a : Except ε α) = .ok b ↔ a = b := by
  simp [pure, Except.pure]

theorem throw_ne_ok {error : ε} {a : α} : (throw error : Except ε α) ≠ .ok a := nofun

/-- A series of steps either succeeds, with results of its steps only, or one of the steps fails. -/
theorem mapM_cases (step : α → Except ε β) (items : List α) :
    (∃ results, items.mapM step = .ok results ∧
      ∀ result ∈ results, ∃ item ∈ items, step item = .ok result) ∨
    ∃ item ∈ items, ∃ error, step item = .error error := by
  induction items with
  | nil => exact .inl ⟨[], rfl, nofun⟩
  | cons item rest ih =>
    cases hitem : step item with
    | error error => exact .inr ⟨item, List.mem_cons_self, error, hitem⟩
    | ok first =>
      rcases ih with ⟨results, hrest, hall⟩ | ⟨other, hother, error, herror⟩
      · refine .inl ⟨first :: results, ?_, ?_⟩
        · rw [List.mapM_cons, hitem, hrest]
          rfl
        · refine List.forall_mem_cons.2 ⟨⟨item, List.mem_cons_self, hitem⟩, ?_⟩
          intro result hresult
          obtain ⟨source, hsource, hstep⟩ := hall result hresult
          exact ⟨source, List.mem_cons_of_mem _ hsource, hstep⟩
      · exact .inr ⟨other, List.mem_cons_of_mem _ hother, error, herror⟩

end Outcome

end TreeRules
