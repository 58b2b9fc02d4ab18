import TreeRules.Console.Screen
import TreeRules.Highlight.Span
import TreeRules.Text.Utf8

/-! # Styled text

Highlighted text is printed in runs of bytes of the same style. The styles are painted on a canvas
with one cell for each byte, from the last span to the first, so that a span is painted over those
behind it. Each run is decoded by itself, and what would not be seen is left out.
-/
namespace TreeRules.Styling

def styles : List (String × String) :=
  [("comment", "dim"), ("doc-comment", "dim italic"), ("docstring", "green italic"),
    ("string", "green"), ("keyword", "bold magenta"), ("type", "cyan"), ("type-name", "bold cyan"),
    ("function-name", "bold blue"), ("function-call", "blue"), ("number", "yellow"),
    ("constant", "yellow"), ("builtin", "cyan"), ("decorator", "magenta"),
    ("bracket", "bright_black"), ("operator", "bright_black"), ("property", "bright_blue")]

/-- The style of each byte of a stretch. -/
abbrev Canvas := Array (Option String)

/-- Paints a number of cells from one on. -/
def brush (style : String) (cell : Nat) : Nat → Canvas → Canvas
  | 0, canvas => canvas
  | count + 1, canvas => brush style (cell + 1) count (canvas.setIfInBounds cell (some style))

/-- Paints a span on the canvas of a stretch, as far as it reaches into it. A tag without a style
leaves no trace. -/
def paint (start stop : Nat) (span : Span) (canvas : Canvas) : Canvas :=
  match styles.lookup span.tag with
  | none => canvas
  | some style =>
    let first := max span.start start
    let last := min span.stop stop
    brush style (first - start).toNat (last - first).toNat canvas

/-- The canvas of a stretch, painted from the last span to the first. -/
def painted (spans : List Span) (start stop : Nat) : Canvas :=
  spans.foldr (paint start stop) (.replicate (stop - start) none)

/-- Bytes of the same style. -/
structure Run where
  style : Option String
  bytes : List UInt8
  deriving DecidableEq, Repr

/-- The runs of bytes, each as long as the style of its first cell goes on. -/
def runsOf : List (Option String) → List UInt8 → List Run
  | [], _ => []
  | style :: cells, bytes =>
    let length := (cells.takeWhile (· == style)).length + 1
    ⟨style, bytes.take length⟩ :: runsOf (cells.dropWhile (· == style)) (bytes.drop length)
termination_by cells => cells.length
decreasing_by exact Nat.lt_succ_of_le (List.dropWhile_sublist _).length_le

/-- The runs of a stretch of a byte string. -/
def runs (spans : List Span) (bytes : List UInt8) (start stop : Nat) : List Run :=
  runsOf (painted spans start stop).toList (bytes.drop start)

/-- The text of a stretch of a byte string as it is printed. -/
def text (spans : List Span) (bytes : List UInt8) (start stop : Nat) : List Char :=
  (runs spans bytes start stop).flatMap fun run => Screen.seen (Utf8.decode run.bytes)

end TreeRules.Styling
