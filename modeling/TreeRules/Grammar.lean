import TreeRules.Value.Shown
import TreeRules.Error

/-! # Grammars and queries

The parser and its query engine stand outside this library. What is asked of them is collected here:
whether a grammar knows a node type or a field, and under which names a query captures nodes.
-/
namespace TreeRules

/-- The node types and fields of a language. -/
structure Grammar where
  hasKind : String → Bool
  hasField : String → Bool

/-- The grammars at hand and their query compiler; both may answer with a reason for failure. -/
structure Toolkit where
  grammar : String → Except String Grammar
  captureNames : (language query : String) → Except String (List String)

/-- A query that compiles. -/
structure Query where
  text : String
  captureNames : List String
  deriving Repr

namespace Toolkit

variable (toolkit : Toolkit)

def load (language : Value) : Outcome Grammar :=
  match toolkit.grammar language.shown with
  | .ok grammar => .ok grammar
  | .error reason => .error (.predicate (.unknownGrammar language reason))

/-- A query in a language. The language has to be known before the query is looked at, and both have
to be values that can be remembered. -/
def compile (language query : Value) : Outcome Query :=
  if !language.isKey || !query.isKey then .error .wrongKind
  else do
    let _ ← toolkit.load language
    match query with
    | .text content =>
      match toolkit.captureNames language.shown content with
      | .ok names => return ⟨content, names⟩
      | .error reason => throw (.predicate (.badQuery language.shown reason content))
    | _ => throw .wrongKind

/-- Only texts compile. -/
theorem compile_text {toolkit : Toolkit} {language query : Value} {compiled : Query}
    (h : toolkit.compile language query = .ok compiled) : query = .text compiled.text := by
  unfold compile at h
  split at h
  next => cases h
  next =>
    obtain ⟨_, _, h⟩ := Outcome.bind_eq_ok.1 h
    split at h
    next content =>
      split at h
      next => exact Outcome.pure_eq_ok.1 h ▸ rfl
      next => exact absurd h Outcome.throw_ne_ok
    next => exact absurd h Outcome.throw_ne_ok

end Toolkit

end TreeRules
