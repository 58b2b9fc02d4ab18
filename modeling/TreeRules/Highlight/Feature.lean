import TreeRules.Text.Slice
import TreeRules.Error

/-! # Feature levels

Features are grouped into levels. A level switches on the features of all levels up to it; single
features can be switched on and off besides. Names of features are not checked when rules are read,
so any value can stand for one.
-/
namespace TreeRules.Feature

/-- All features, in the order in which they are declared. -/
def declared (levels : List (List Value)) : List Value := levels.flatten

/-- The declared features that are switched on: those of the first `level` levels and the enabled
ones, without the disabled ones. A feature that cannot be looked up is an error. -/
def enabled (levels : List (List Value)) (level : Int) (enable disable : List Value) :
    Outcome (List Value) :=
  let first := (Slice.upTo levels level).flatten
  if (first ++ enable ++ disable ++ declared levels).all Value.isKey then
    .ok ((declared levels).filter fun feature =>
      feature.memberOf (first ++ enable) && !feature.memberOf disable)
  else .error .wrongKind

end TreeRules.Feature
