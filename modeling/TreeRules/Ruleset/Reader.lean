import TreeRules.Predicate.Reader
import TreeRules.Ruleset.Basic
import TreeRules.Value.Access
import TreeRules.Value.Reader

/-! # Rule documents

A rule document maps names to rulesets. A ruleset can extend another one: its own indentation and
navigation rules then come before the inherited ones, its highlight rules after them, and its names
replace inherited ones. Levels and language are inherited if the ruleset gives none.
-/
namespace TreeRules

/-! ## Single rules -/

namespace Ruleset

def choice {α : Type} (what : String) (all : List α) (name : α → String) (value : Value) :
    Outcome α :=
  match all.find? fun item => value.equal (.text (name item)) with
  | some item => .ok item
  | none => .error (.rules (.badChoice what value (all.map name)))

/-- Fails on the first of some keys that a rule lacks. -/
def require (kind : String) (rule : Value) : List String → Outcome Unit
  | [] => .ok ()
  | key :: rest => do
    if ← rule.hasKey key then require kind rule rest
    else if ← rule.hasKey "name" then
      throw (.rules (.missingPart kind (some (← rule.get "name")) key))
    else throw (.rules (.missingPart kind none key))

/-- The name of a rule; the empty text if it has none. -/
def nameOf (rule : Value) : Outcome Value := rule.getD "name" (.text "")

def layeringOf : Value → Outcome Layering
  | .bool true => .ok .override
  | .bool false | .null => .ok .append
  | value => choice "override mode" Layering.all Layering.name value

/-- A refinement; its tag can be any value. -/
def refinementOf (rule : Value) : Outcome (Rule Value) := do
  require "Refine" rule ["match"]
  let predicate ← Predicate.ofValue (← rule.get "match")
  let tag ← rule.getD "tag" .null
  return ⟨predicate, tag, ← nameOf rule⟩

def highlightOf (rule : Value) : Outcome HighlightRule := do
  require "Highlight" rule ["feature", "query"]
  let feature ← rule.get "feature"
  let query ← rule.get "query"
  let layering ← layeringOf (← rule.getD "override" .null)
  let given ← rule.getD "name" .null
  let label := if given.truthy then given else feature
  let refinements ← (← (← rule.getD "refine" (.list [])).elements).mapM refinementOf
  let accumulate ← rule.getD "accumulate" (.bool false)
  return {
    feature, query, layering
    refine := ⟨label.shown ++ " refine", refinements, accumulate.truthy⟩
    name := ← nameOf rule }

def indentOf (rule : Value) : Outcome (Rule IndentAction) := do
  require "Indent" rule ["match", "anchor"]
  let offset ← Predicate.inDocument (Offset.ofValue (← rule.getD "offset" (.int 0)))
  let anchor ← choice "anchor" Anchor.all Anchor.name (← rule.get "anchor")
  let chain ← (← rule.getD "chain" (.list [])).elements
  let predicate ← Predicate.ofValue (← rule.get "match")
  return ⟨predicate, ⟨anchor, offset, chain⟩, ← nameOf rule⟩

def thingOf (rule : Value) : Outcome (Rule Category) := do
  require "Thing" rule ["match", "category"]
  let category ← choice "category" Category.all Category.name (← rule.get "category")
  let predicate ← Predicate.ofValue (← rule.get "match")
  return ⟨predicate, category, ← nameOf rule⟩

def nameSourceOf (kind : String) : Value → Outcome NameSource
  | .mapping [(key, value)] =>
    match key with
    | "field" => .ok (.field value)
    | "child" => value.toInteger.map .child
    | "named_child" => value.toInteger.map .namedChild
    | key => .error (.rules (.unknownNameSource key kind))
  | _ => .error (.rules (.badNameSource kind))

/-! ## Rulesets -/

/-- What a ruleset says itself, apart from what it inherits. -/
structure Own where
  levels : Value
  highlight : List HighlightRule
  indent : List (Rule IndentAction)
  things : List (Rule Category)
  names : List (String × NameSource)

def ownOf (ruleset : Value) : Outcome Own := do
  let highlight ← ruleset.getD "highlight" (.mapping [])
  let levels ← highlight.getD "levels" .null
  let highlightRules ← (← (← highlight.getD "rules" (.list [])).elements).mapM highlightOf
  let indent ← (← (← ruleset.getD "indent" (.list [])).elements).mapM indentOf
  let things ← (← (← ruleset.getD "things" (.list [])).elements).mapM thingOf
  let names ← (← (← ruleset.getD "names" (.mapping [])).entries).mapM fun (kind, value) =>
    return (kind, ← nameSourceOf kind value)
  return ⟨levels, highlightRules, indent, things, names⟩

def levelsOf (value : Value) : Outcome (List (List Value)) := do
  (← value.elements).mapM Value.elements

/-- Names with further names put over them: a known type keeps its place. -/
def mergeNames (base own : List (String × NameSource)) : List (String × NameSource) :=
  base.map (fun (kind, source) => (kind, (own.lookup kind).getD source)) ++
    own.filter fun (kind, _) => !base.any (·.1 == kind)

/-- The language of a ruleset: the one that it gives, or else the one that it inherits. -/
def languageFor (name : String) (given : Value) (base : Option LanguageRules) : Outcome Value :=
  let language := if given.truthy then given else (base.map (·.language)).getD .null
  if language.truthy then .ok language else .error (.rules (.missingLanguage name))

/-- The levels of a ruleset: the ones that it gives, or else the ones that it inherits. -/
def levelsFor (own : Own) (base : Option LanguageRules) : Outcome (List (List Value)) :=
  if own.levels.truthy then levelsOf own.levels
  else .ok ((base.map (·.highlight.levels)).getD [])

/-- The rules of a ruleset on top of those that it extends. -/
def extend (name : String) (ruleset : Value) (base : Option LanguageRules) :
    Outcome LanguageRules := do
  let language ← languageFor name (← ruleset.getD "language" .null) base
  let own ← ownOf ruleset
  let levels ← levelsFor own base
  let inherited := base.getD { language }
  return {
    language
    highlight := ⟨levels, inherited.highlight.rules ++ own.highlight⟩
    indent := { name := name ++ " indent", rules := own.indent ++ inherited.indent.rules }
    things := { name := name ++ " things", rules := own.things ++ inherited.things.rules }
    names := mergeNames inherited.names own.names }

/-- Rulesets one on top of the other, on top of rules that are there. -/
def extendAll (base : LanguageRules) : List (String × Value) → Outcome LanguageRules
  | [] => .ok base
  | (name, ruleset) :: rest => do extendAll (← extend name ruleset (some base)) rest

/-! ## Inheritance -/

def without (name : String) (rulesets : List (String × Value)) : List (String × Value) :=
  rulesets.filter (·.1 != name)

theorem length_without_lt {name : String} {rulesets : List (String × Value)}
    {found : String × Value} (h : rulesets.find? (·.1 == name) = some found) :
    (without name rulesets).length < rulesets.length :=
  List.length_filter_lt_length_iff_exists.2
    ⟨found, List.mem_of_find?_eq_some h, by simpa using List.find?_some h⟩

/-- Follows the links from one ruleset to the one it extends. Every ruleset that is visited is taken
away from those that are left; `visited` holds them, latest first. -/
def ancestry (requested : String) (visited left : List (String × Value)) (current : Value) :
    Outcome (List (String × Value)) :=
  match current with
  | .null => .ok visited
  | .text name =>
    if visited.any (·.1 == name) then
      .error (.rules (.circular requested ((visited.map Prod.fst).reverse ++ [name])))
    else
      match h : left.find? (·.1 == name) with
      | none =>
        match visited with
        | (last, _) :: _ => .error (.rules (.missingBase current last))
        | [] => .error .outOfRange
      | some (_, .mapping entries) =>
        have := length_without_lt h
        ancestry requested ((name, .mapping entries) :: visited) (without name left)
          ((Value.under? "extends" entries).getD .null)
      | some _ => .error (.rules (.notRuleset name))
  | other =>
    if other.isKey then
      match visited with
      | (last, _) :: _ => .error (.rules (.missingBase other last))
      | [] => .error .outOfRange
    else .error .wrongKind
termination_by left.length

/-- The rules of a lineage that starts with its base. -/
def stackAll : List (String × Value) → Outcome LanguageRules
  | (base, ruleset) :: derived => do extendAll (← extend base ruleset none) derived
  | [] => .error .outOfRange

def rulesetsOf : Value → Outcome (List (String × Value))
  | .mapping entries =>
    match Value.under? "rulesets" entries with
    | some (.mapping rulesets) => .ok rulesets
    | some _ => .error (.rules .notRulesets)
    | none => .error (.rules .missingRulesets)
  | _ => .error (.rules .missingRulesets)

end Ruleset

/-- The rules that a ruleset of a document gives. -/
def LanguageRules.ofDocument (document : Value) (name : String) : Outcome LanguageRules := do
  let rulesets ← Ruleset.rulesetsOf document
  if !rulesets.any (·.1 == name) then
    throw (.rules (.missingRuleset name (rulesets.map Prod.fst)))
  Ruleset.stackAll (← Ruleset.ancestry name [] rulesets (.text name))

end TreeRules
