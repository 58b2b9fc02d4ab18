import TreeRules.Predicate.Evaluation

/-! # Rule tables

A table is a list of rules, and each rule a predicate with an action. The first rule whose predicate
holds decides, unless the table is accumulating: then the actions of all rules that hold are taken.
A table that is asked of many targets can keep a memory of what the query engine answered.
-/
namespace TreeRules

/-- An action for what a predicate holds of. -/
structure Rule (α : Type) where
  predicate : Predicate
  action : α
  name : Value := .null

/-- Rules in order. -/
structure Table (α : Type) where
  name : String := ""
  rules : List (Rule α) := []
  accumulating : Bool := false

variable {α : Type}

namespace Rule

/-- The first rule whose predicate holds of a target. -/
def first (doc : Document) (target : Target) : List (Rule α) → Outcome (Option (Rule α))
  | [] => .ok none
  | rule :: rest =>
    match rule.predicate.holds doc target with
    | .ok true => .ok (some rule)
    | .ok false => first doc target rest
    | .error error => .error error

/-- The first rule whose predicate holds of a target, when the answers of the query engine are
remembered from rule to rule. -/
def recallFirst (doc : Document) (target : Target) :
    List (Rule α) → Memory → Outcome (Option (Rule α)) × Memory
  | [], memory => (.ok none, memory)
  | rule :: rest, memory =>
    match rule.predicate.evaluate doc target memory with
    | (.ok true, memory) => (.ok (some rule), memory)
    | (.ok false, memory) => recallFirst doc target rest memory
    | (.error error, memory) => (.error error, memory)

def matching (doc : Document) (target : Target) : List (Rule α) → Outcome (List (Rule α))
  | [] => .ok []
  | rule :: rest =>
    match rule.predicate.holds doc target with
    | .ok true => (matching doc target rest).map (rule :: ·)
    | .ok false => matching doc target rest
    | .error error => .error error

end Rule

namespace Table

variable (table : Table α)

/-- Whether the last rule of a table always holds. -/
def hasCatchAll : Bool := table.rules.getLast?.any (·.predicate.isAlways)

/-- The rule that decides a target. -/
def ruleFor (doc : Document) (target : Target) : Outcome (Option (Rule α)) :=
  Rule.first doc target table.rules

/-- The action of the rule that decides a target. Accumulating tables have no such rule. -/
def resolve (doc : Document) (target : Target) : Outcome (Option α) :=
  if table.accumulating then .error (.predicate (.accumulating table.name))
  else (table.ruleFor doc target).map (·.map (·.action))

/-- The action of the rule that decides a target, with a memory of the query engine's answers. -/
def recallResolve (doc : Document) (target : Target) (memory : Memory) :
    Outcome (Option α) × Memory :=
  if table.accumulating then (.error (.predicate (.accumulating table.name)), memory)
  else
    let (rule, memory) := Rule.recallFirst doc target table.rules memory
    (rule.map (·.map (·.action)), memory)

/-- The actions for a target: all of them in an accumulating table, else at most one. -/
def resolveAll (doc : Document) (target : Target) : Outcome (List α) :=
  if table.accumulating then
    (Rule.matching doc target table.rules).map (·.map (·.action))
  else (table.ruleFor doc target).map fun rule => (rule.map (·.action)).toList

end Table

end TreeRules
