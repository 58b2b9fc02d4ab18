import TreeRules.Highlight.Span

/-! # The highlight overlay

Spans in the order in which they were laid down. A new span is put on top of what is there, cuts
away what lies under it, or only fills the gaps that are left.
-/
namespace TreeRules

/-- How a span is laid over those that are there. -/
inductive Layering where
  /-- Both stay. -/
  | append
  /-- What lies under the new span is cut away. -/
  | override
  /-- Only gaps are filled. -/
  | keep
  deriving DecidableEq, Repr, Inhabited

namespace Layering

def name : Layering → String
  | .append => "append"
  | .override => "override"
  | .keep => "keep"

/-- The ways of layering, in the order in which they are listed. -/
def all : List Layering := [.append, .override, .keep]

end Layering

/-- The spans of a document, in layering order. -/
abbrev Overlay := List Span

/-- A span to be laid down. -/
structure Layer where
  start : Int
  stop : Int
  tag : Value
  feature : Value
  mode : Layering

namespace Overlay

/-- What is left of a span outside a stretch of bytes. -/
def outside (start stop : Int) (span : Span) : List Span :=
  if span.stop ≤ start ∨ stop ≤ span.start then [span]
  else
    (if span.start < start then [{ span with stop := start }] else []) ++
      (if stop < span.stop then [{ span with start := stop }] else [])

/-- An overlay with a stretch of bytes cut out. -/
def cut (overlay : Overlay) (start stop : Int) : Overlay := overlay.flatMap (outside start stop)

/-- Whether a stretch of bytes may stand before another: by start, then by end. -/
def stretchBefore (x y : Int × Int) : Bool := x.1 < y.1 || (x.1 == y.1 && x.2 ≤ y.2)

/-- What spans cover of a stretch of bytes, one stretch for each span, from left to right. -/
def covered (overlay : Overlay) (start stop : Int) : List (Int × Int) :=
  ((overlay.filter fun span => span.start < stop && start < span.stop).map fun span =>
    (max span.start start, min span.stop stop)).mergeSort stretchBefore

/-- The stretches from a position up to a byte that others, which come from left to right, leave
free. The position moves on to the furthest end so far. -/
def sweep (stop : Int) : Int → List (Int × Int) → List (Int × Int)
  | position, [] => if position < stop then [(position, stop)] else []
  | position, (first, last) :: rest =>
    (if position < first then [(position, first)] else []) ++ sweep stop (max position last) rest

/-- The stretches between two bytes that no span covers, from left to right. -/
def gaps (overlay : Overlay) (start stop : Int) : List (Int × Int) :=
  sweep stop start (overlay.covered start stop)

/-- Lays spans over stretches one by one, until one of them is refused. -/
def fill (tag feature : Value) : List (Int × Int) → Overlay → Overlay × Outcome Unit
  | [], overlay => (overlay, .ok ())
  | (start, stop) :: rest, overlay =>
    match Span.make start stop tag feature with
    | .ok span => fill tag feature rest (overlay ++ [span])
    | .error error => (overlay, .error error)

/-- Lays a span down. What was done before a failure stays done: the overlay after it is returned
in any case. -/
def add (overlay : Overlay) (layer : Layer) : Overlay × Outcome Unit :=
  let stretch := (layer.start, layer.stop)
  if layer.stop ≤ layer.start then (overlay, .ok ())
  else match layer.mode with
    | .append => fill layer.tag layer.feature [stretch] overlay
    | .override => fill layer.tag layer.feature [stretch] (overlay.cut layer.start layer.stop)
    | .keep => fill layer.tag layer.feature (overlay.gaps layer.start layer.stop) overlay

/-- Lays spans down in order, up to the first that is refused or could not be found out. -/
def addAll (overlay : Overlay) : List (Outcome Layer) → Outcome Overlay
  | [] => .ok overlay
  | .error error :: _ => .error error
  | .ok layer :: rest =>
    match overlay.add layer with
    | (overlay, .ok ()) => overlay.addAll rest
    | (_, .error error) => .error error

/-- The spans by position; equal ones keep their layering order. -/
def spans (overlay : Overlay) : List Span := overlay.mergeSort Span.before

end Overlay

end TreeRules
