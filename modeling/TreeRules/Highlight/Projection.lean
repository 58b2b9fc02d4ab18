import TreeRules.Ruleset.Basic

/-! # Highlighting

The features that are switched on are gone through in the order of their declaration, the rules of a
feature in their order, and the captures of a rule from left to right, larger ones first. Each
capture gives spans that are laid over those before. A range bounds both the captures and the spans.
-/
namespace TreeRules.Highlight

/-- A captured node with the name under which it was captured. -/
structure Capture where
  place : Place
  name : String

/-- Whether a capture only serves its query: its name starts with an underscore. -/
def isHelper (name : String) : Bool := name.toList.head? == some '_'

/-- The captures of a query, without its helpers. -/
def flatten (captures : List (String × List Place)) : List Capture :=
  captures.flatMap fun (name, places) =>
    if isHelper name then [] else places.map fun place => ⟨place, name⟩

/-- Whether a capture may stand before another: by its start, then the longer one first. -/
def Capture.before (x y : Capture) : Bool :=
  x.place.start < y.place.start || (x.place.start == y.place.start && y.place.stop ≤ x.place.stop)

/-- Fails if a range of bytes runs backwards or below zero. A range up to zero has no end. -/
def checkRange : Option (Int × Int) → Outcome Unit
  | none => .ok ()
  | some (start, stop) =>
    if start < 0 ∨ stop < 0 ∨ (stop < start ∧ stop ≠ 0) then .error (.value .badByteRange)
    else .ok ()

def capturesOf (doc : Document) (range : Option (Int × Int)) (rule : HighlightRule) :
    Outcome (List Capture) := do
  let query ← doc.toolkit.compile (.text doc.language) rule.query
  checkRange range
  return (flatten (doc.captures query.text range)).mergeSort Capture.before

/-- The part of a stretch of bytes that lies in a range. -/
def clip (range : Option (Int × Int)) (start stop : Int) : Int × Int :=
  match range with
  | none => (start, stop)
  | some (first, last) => (max start first, min stop last)

/-- The tags of a capture: its name, or what the refinements make of it. -/
def tagsOf (doc : Document) (rule : HighlightRule) (capture : Capture) : Outcome (List Value) :=
  if rule.refine.rules.isEmpty then .ok [.text capture.name]
  else
    (rule.refine.resolveAll doc (Target.ofNode doc capture.place)).map (·.filter Value.truthy)

/-- The layers of a capture, one for each tag. -/
def layersOfCapture (doc : Document) (range : Option (Int × Int)) (feature : Value)
    (rule : HighlightRule) (capture : Capture) : List (Outcome Layer) :=
  match tagsOf doc rule capture with
  | .error error => [.error error]
  | .ok tags =>
    let (start, stop) := clip range capture.place.start capture.place.stop
    tags.map fun tag => .ok ⟨start, stop, tag, feature, rule.layering⟩

def layersOfRule (doc : Document) (range : Option (Int × Int)) (feature : Value)
    (rule : HighlightRule) : List (Outcome Layer) :=
  match capturesOf doc range rule with
  | .error error => [.error error]
  | .ok captures => captures.flatMap (layersOfCapture doc range feature rule)

/-- The layers of a declared feature, if it is switched on. -/
def layersOfFeature (doc : Document) (set : FeatureSet) (enabled : List Value)
    (range : Option (Int × Int)) (feature : Value) : List (Outcome Layer) :=
  if !feature.isKey then [.error .wrongKind]
  else if feature.memberOf enabled then
    (set.rulesFor feature).flatMap (layersOfRule doc range feature)
  else []

/-- All layers of a document, in order. A layer that cannot be found out is an error in its
place. -/
def layers (doc : Document) (set : FeatureSet) (enabled : List Value)
    (range : Option (Int × Int)) : List (Outcome Layer) :=
  set.features.flatMap (layersOfFeature doc set enabled range)

def isText : Value → Bool
  | .text _ => true
  | _ => false

/-- The spans of a document for the features that are switched on, by position. -/
def project (doc : Document) (set : FeatureSet) (enabled : List Value)
    (range : Option (Int × Int) := none) : Outcome (List Span) := do
  doc.checkFresh
  if !enabled.all Value.isKey then throw .wrongKind
  let overlay ← Overlay.addAll [] (layers doc set enabled range)
  if !enabled.all isText then throw .wrongKind
  return overlay.spans

end TreeRules.Highlight
