import TreeRules.Error
import TreeRules.Pattern.Matcher
import TreeRules.Pattern.Reader

/-! # Patterns

A pattern is a text together with the expression it denotes. Patterns for node types that are made
of letters, digits and underscores only are plain names and are compared as such.
-/
namespace TreeRules

/-- A well-formed pattern. -/
structure Pattern where
  source : String
  expr : Pattern.Expr
  reads : Pattern.Expr.read? source.toList = some expr

namespace Pattern

def ofText? (source : String) : Option Pattern :=
  match h : Expr.read? source.toList with
  | some expr => some ⟨source, expr, h⟩
  | none => none

/-- The pattern that a value of a rule document denotes. Only a text is a pattern. -/
def ofValue (use : PatternUse) : Value → Outcome Pattern
  | .text source =>
    match ofText? source with
    | some pattern => .ok pattern
    | none => .error (.predicate (.badPattern use source))
  | _ => .error .wrongKind

/-- Whether two patterns are the same text. -/
def equal (x y : Pattern) : Bool := x.source == y.source

def isNameChar (c : Char) : Bool := c.isAlphanum || c == '_'

def isLiteral (pattern : Pattern) : Bool :=
  !pattern.source.toList.isEmpty && pattern.source.toList.all isNameChar

/-- Whether a pattern for node types accepts one: a plain name accepts itself, any other pattern
what it matches as a whole. -/
def accepts (pattern : Pattern) (kind : String) : Bool :=
  if pattern.isLiteral then kind == pattern.source else pattern.expr.matchesWhole kind.toList

def foundIn (pattern : Pattern) (text : List Char) : Bool := pattern.expr.foundIn text

/-- Whether a pattern matches the front of a text. -/
def matchesStart (pattern : Pattern) (text : List Char) : Bool := pattern.expr.matchesStart text

theorem eq_of_source_eq {x y : Pattern} (h : x.source = y.source) : x = y := by
  obtain ⟨source, expr, hx⟩ := x
  obtain ⟨_, expr', hy⟩ := y
  cases h
  rw [hx] at hy
  cases hy
  rfl

theorem ofText?_source (pattern : Pattern) : ofText? pattern.source = some pattern := by
  unfold ofText?
  split
  next expr hexpr => exact congrArg some (eq_of_source_eq rfl)
  next hnone =>
    rw [pattern.reads] at hnone
    cases hnone

end Pattern

end TreeRules
