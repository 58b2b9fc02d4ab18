import TreeRules.Predicate.Reader
import TreeRules.Ruleset.Basic

/-! # Validity of rules

Before rules are used they are checked against the grammar of their language: node types that are
plain names, fields, queries and captures have to exist. Tables for indentation and navigation have
to be decided by their first match, and a table can be asked to end in a catch-all.
-/
namespace TreeRules.Validity

variable (toolkit : Toolkit) (grammar : Grammar) (language : Value)

/-- Fails if a pattern is a plain name that the grammar does not know. -/
def checkKind (pattern : Pattern) : Outcome Unit :=
  if pattern.isLiteral && !grammar.hasKind pattern.source then
    .error (.predicate (.unknownKind pattern.source language.shown))
  else .ok ()

/-- Fails if the grammar does not know a field. -/
def checkField : Value → Outcome Unit
  | .text name =>
    if grammar.hasField name then .ok ()
    else .error (.predicate (.unknownField (.text name) language.shown))
  | _ => .error .wrongKind

/-- Fails if a link names a node type that the grammar does not know. -/
def checkLink : Link → Outcome Unit
  | .kind pattern => checkKind grammar language pattern
  | _ => .ok ()

/-- Fails if a query does not compile, or captures nothing under a name. -/
def checkQuery (query capture : Value) : Outcome Unit := do
  let compiled ← toolkit.compile language query
  if capture.memberOf (compiled.captureNames.map .text) then return ()
  else throw (.predicate (.missingCapture capture query))

mutual

/-- Fails at the first place of a predicate that does not fit the grammar. -/
def checkPredicate : Predicate → Outcome Unit
  | .nodeIs pattern | .parentIs pattern => checkKind grammar language pattern
  | .chain node parent grandparent => do
    checkLink grammar language node
    checkLink grammar language parent
    checkLink grammar language grandparent
  | .fieldIs field inner => do
    checkField grammar language field
    checkPredicate inner
  | .captured query capture => checkQuery toolkit language query capture
  | .textHas _ .null => .ok ()
  | .textHas _ field => checkField grammar language field
  | .lineHas _ | .noNode | .always => .ok ()
  | .all tests | .any tests => checkPredicates tests
  | .not test => checkPredicate test

def checkPredicates : List Predicate → Outcome Unit
  | [] => .ok ()
  | test :: rest => do
    checkPredicate test
    checkPredicates rest

end

/-- Fails at the first rule whose predicate does not fit, naming the rule. -/
def checkRules {α : Type} : List (Rule α) → Outcome Unit
  | [] => .ok ()
  | rule :: rest =>
    match checkPredicate toolkit grammar language rule.predicate with
    | .ok () => checkRules rest
    | .error (.predicate fault) => .error (.predicate (.inRule rule.name fault))
    | .error error => .error error

/-- Fails if the node types of a chain are no patterns, or unknown to the grammar. -/
def checkChain : List Value → Outcome Unit
  | [] => .ok ()
  | kind :: rest => do
    checkKind grammar language (← Pattern.ofValue .type kind)
    checkChain rest

/-- Fails at the first indentation rule whose chain is missing or does not fit. -/
def checkActions : List (Rule IndentAction) → Outcome Unit
  | [] => .ok ()
  | rule :: rest => do
    if rule.action.anchor = .memberChain ∧ rule.action.chain.isEmpty then
      throw (.predicate (.chainWithoutKinds rule.name))
    checkChain grammar language rule.action.chain
    checkActions rest

/-- Fails at the first highlight rule whose feature is not declared or whose parts do not fit. -/
def checkHighlights (features : List Value) : List HighlightRule → Outcome Unit
  | [] => .ok ()
  | rule :: rest => do
    if !rule.feature.memberOf features then
      throw (.predicate (.undeclaredFeature rule.name rule.feature))
    let _ ← toolkit.compile language rule.query
    checkRules toolkit grammar language rule.refine.rules
    checkHighlights features rest

/-- Fails if a table is accumulating. -/
def checkFirstMatch {α : Type} (table : Table α) : Outcome Unit :=
  if table.accumulating then .error (.predicate (.notFirstMatch table.name)) else .ok ()

/-- Fails if a table has to be total and does not end in a catch-all. -/
def checkTotal {α : Type} (strict : Bool) (table : Table α) : Outcome Unit :=
  if strict && !table.hasCatchAll then .error (.noCatchAll table.name) else .ok ()

/-- Fails if the rules of a language do not fit its grammar. -/
def check (toolkit : Toolkit) (strict : Bool) (rules : LanguageRules) : Outcome Unit := do
  let language := rules.language
  let grammar ← toolkit.load language
  checkHighlights toolkit grammar language rules.highlight.features rules.highlight.rules
  checkFirstMatch rules.indent
  checkRules toolkit grammar language rules.indent.rules
  checkActions grammar language rules.indent.rules
  checkTotal strict rules.indent
  checkFirstMatch rules.things
  checkRules toolkit grammar language rules.things.rules

end TreeRules.Validity
