import TreeRules.Field

/-! # Highlight spans

A tagged stretch of bytes. A span is only made when its ends are not negative and its tag and
feature are texts; all that is wrong with it is reported at once.
-/
namespace TreeRules

/-- The bytes from `start` up to `stop` carry a tag for a feature. -/
structure Span where
  start : Int
  stop : Int
  tag : String
  feature : String
  deriving DecidableEq, Repr, Inhabited

namespace Span

def covers (span : Span) (byte : Int) : Bool := span.start ≤ byte && byte < span.stop

def ofValues (start stop tag feature : Value) : Outcome Span :=
  Checked.toOutcome <|
    Checked.apply (Checked.apply (Checked.apply
      ((Field.int "start_byte" (some 0) none start).map Span.mk)
      (Field.int "end_byte" (some 0) none stop))
      (Field.text "tag" tag))
      (Field.text "feature" feature)

def make (start stop : Int) (tag feature : Value) : Outcome Span :=
  ofValues (.int start) (.int stop) tag feature

/-- Whether a span may stand before another: by start, then by end. -/
def before (x y : Span) : Bool := x.start < y.start || (x.start == y.start && x.stop ≤ y.stop)

def shown (span : Span) : String :=
  s!"[{span.start},{span.stop}) {span.tag} ({span.feature})"

end Span

end TreeRules
