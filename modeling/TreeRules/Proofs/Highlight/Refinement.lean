import TreeRules.Proofs.FirstMatch
import TreeRules.Proofs.Highlight.Layering
import TreeRules.Proofs.Highlight.Viewport

/-! # Refinements that accumulate

An accumulating table of refinements gives a capture the tags of all rules that hold of it. The tags
are laid down one after the other, in the mode of the highlight rule, so that mode also acts among
the tags of one capture: appended tags are all seen, of overriding tags only the last one, and of
keeping tags only the first.
-/
namespace TreeRules

/-! ## Tags on one stretch -/

/-- The tags that are left to see when they are laid over one stretch in order. -/
def Layering.visible : Layering → List Value → List Value
  | .append, tags => tags
  | .override, tags => tags.getLast?.toList
  | .keep, tags => tags.head?.toList

namespace Layering

theorem visible_eq_self {mode : Layering} {tags : List Value}
    (h : mode = .append ∨ tags.length ≤ 1) : mode.visible tags = tags := by
  rcases h with rfl | h
  · rfl
  · match tags, h with
    | [], _ => cases mode <;> rfl
    | [tag], _ => cases mode <;> rfl

theorem length_visible_eq_iff {mode : Layering} {tags : List Value} :
    (mode.visible tags).length = tags.length ↔ mode = .append ∨ tags.length ≤ 1 := by
  refine ⟨fun h => ?_, fun h => congrArg List.length (visible_eq_self h)⟩
  have hone : ∀ tag : Option Value, tag.toList.length ≤ 1 := by
    intro tag
    cases tag <;> simp
  cases mode with
  | append => exact .inl rfl
  | override => exact .inr (h ▸ hone tags.getLast?)
  | keep => exact .inr (h ▸ hone tags.head?)

end Layering

-- The tags are taken from the last one on, since the last layer sees what the others have left.
theorem Layer.marksAfter_stretch {start stop byte : Int} (hbyte : start ≤ byte ∧ byte < stop)
    (mode : Layering) (feature : Value) (tags : List Value) :
    marksAfter byte [] (tags.map fun tag => ⟨start, stop, tag, feature, mode⟩) =
      (mode.visible tags).map fun tag => (tag, feature) := by
  induction tags using List.reverseRecOn with
  | nil => cases mode <;> rfl
  | append_singleton tags tag ih =>
    have hcovers : (⟨start, stop, tag, feature, mode⟩ : Layer).covers byte = true :=
      covers_iff.2 hbyte
    rw [marksAfter] at ih
    rw [marksAfter, List.map_append, List.foldl_append, ih, List.map_singleton, List.foldl_cons,
      List.foldl_nil, markAt, if_pos hcovers]
    cases mode with
    | append => simp [Layering.visible, mark]
    | override => simp [Layering.visible, mark]
    | keep =>
      cases tags with
      | nil => rfl
      | cons first rest => rfl

/-! ## A capture on its own -/

namespace Highlight

open Overlay

variable {doc : Document} {set : FeatureSet} {enabled : List Value} {feature : String}
  {rule : HighlightRule} {place : Place} {name : String}

/-- The tags of the refinements that hold of a node, without empty ones. -/
def refinedTags (doc : Document) (rule : HighlightRule) (place : Place) : List Value :=
  ((rule.refine.rules.filter (Rule.holdsAt doc (Target.ofNode doc place))).map (·.action)).filter
    Value.truthy

/-- The layer of a tag of a captured node. -/
def tagLayer (feature : String) (rule : HighlightRule) (place : Place) (tag : Value) : Layer :=
  ⟨place.start, place.stop, tag, .text feature, rule.layering⟩

/-- The query of a rule with accumulating refinements captures one node, the rule is the only one of
its feature, and no other feature is switched on. -/
structure SoleCapture (doc : Document) (set : FeatureSet) (enabled : List Value) (feature : String)
    (rule : HighlightRule) (place : Place) (name : String) : Prop where
  fresh : doc.checkFresh = .ok ()
  features : ∀ value ∈ set.features, isText value = true
  switched : ∀ value ∈ enabled, isText value = true
  only_feature : set.features.filter (·.memberOf enabled) = [.text feature]
  only_rule : set.rulesFor (.text feature) = [rule]
  only_capture : ∃ query, doc.toolkit.compile (.text doc.language) rule.query = .ok query ∧
    flatten (doc.captures query.text none) = [⟨place, name⟩]
  filled : place.start < place.stop
  refined : rule.refine.rules ≠ []
  accumulating : rule.refine.accumulating = true
  tags : ∀ refinement ∈ rule.refine.rules, isText refinement.action = true
  decided : Rule.Decided doc (Target.ofNode doc place) rule.refine.rules

theorem isKey_of_isText {value : Value} (h : isText value = true) : value.isKey = true := by
  cases value <;> first | rfl | cases h

/-- Only the features that are switched on have layers. -/
theorem flatMap_layersOfFeature {range : Option (Int × Int)} {features : List Value}
    (h : ∀ value ∈ features, isText value = true) :
    features.flatMap (layersOfFeature doc set enabled range) =
      (features.filter (·.memberOf enabled)).flatMap fun value =>
        (set.rulesFor value).flatMap (layersOfRule doc range value) := by
  induction features with
  | nil => rfl
  | cons value rest ih =>
    obtain ⟨hvalue, hrest⟩ := List.forall_mem_cons.1 h
    rw [List.flatMap_cons, ih hrest, layersOfFeature, isKey_of_isText hvalue, List.filter_cons]
    cases value.memberOf enabled with
    | true => rfl
    | false => rfl

namespace SoleCapture

theorem tagsOf_eq (h : SoleCapture doc set enabled feature rule place name) :
    tagsOf doc rule ⟨place, name⟩ = .ok (refinedTags doc rule place) := by
  have hsome : rule.refine.rules.isEmpty = false := by
    simpa using h.refined
  rw [tagsOf, hsome, Table.resolveAll, h.accumulating, Rule.matching_eq_filter h.decided]
  rfl

/-- The only layers are those of the tags. -/
theorem layers_eq (h : SoleCapture doc set enabled feature rule place name) :
    layers doc set enabled none =
      ((refinedTags doc rule place).map (tagLayer feature rule place)).map .ok := by
  obtain ⟨query, hquery, hcapture⟩ := h.only_capture
  have hrule : layersOfRule doc none (.text feature) rule =
      ((refinedTags doc rule place).map (tagLayer feature rule place)).map .ok := by
    rw [layersOfRule, capturesOf_eq_ok rule rfl hquery, hcapture, List.mergeSort_singleton]
    simp only [List.flatMap_singleton, layersOfCapture, h.tagsOf_eq, List.map_map]
    rfl
  calc layers doc set enabled none
    _ = (set.features.filter (·.memberOf enabled)).flatMap fun value =>
        (set.rulesFor value).flatMap (layersOfRule doc none value) :=
      flatMap_layersOfFeature h.features
    _ = layersOfRule doc none (.text feature) rule := by
      rw [h.only_feature, List.flatMap_singleton, h.only_rule, List.flatMap_singleton]
    _ = _ := hrule

/-- The layers of the tags go down, and each byte of the capture shows what they leave to see. -/
theorem run (h : SoleCapture doc set enabled feature rule place name) :
    ∃ overlay, addAll [] (layers doc set enabled none) = .ok overlay ∧
      ∀ byte : Int, place.start ≤ byte → byte < place.stop → marksAt byte overlay =
        (rule.layering.visible (refinedTags doc rule place)).map
          fun tag => (tag, .text feature) := by
  have hstart : ∀ layer ∈ (refinedTags doc rule place).map (tagLayer feature rule place),
      0 ≤ layer.start := by
    intro layer hlayer
    obtain ⟨tag, -, rfl⟩ := List.mem_map.1 hlayer
    exact Int.natCast_nonneg place.start
  have htexts : ∀ layer ∈ (refinedTags doc rule place).map (tagLayer feature rule place),
      layer.HasTexts := by
    intro layer hlayer
    obtain ⟨tag, htag, rfl⟩ := List.mem_map.1 hlayer
    obtain ⟨refinement, hrefinement, rfl⟩ := List.mem_map.1 (List.mem_filter.1 htag).1
    have haction := h.tags refinement (List.mem_filter.1 hrefinement).1
    cases hvalue : refinement.action with
    | text content => exact ⟨content, feature, rfl⟩
    | _ => simp [hvalue, isText] at haction
  rw [h.layers_eq]
  obtain ⟨overlay, hrun⟩ := addAll_succeeds proper_nil hstart htexts
  refine ⟨overlay, hrun, fun byte hstart hstop => ?_⟩
  rw [(addAll_eq_ok proper_nil hrun).2 byte]
  exact Layer.marksAfter_stretch ⟨hstart, hstop⟩ rule.layering (.text feature) _

end SoleCapture

/-- A capture whose refinements accumulate is highlighted, and at every byte of it just those tags
are seen that the mode of the rule leaves to see. These are all of its tags if the rule appends, or
if there is at most one tag, and only then. -/
theorem project_refined (h : SoleCapture doc set enabled feature rule place name) :
    ∃ spans, project doc set enabled none = .ok spans ∧
      (∀ byte : Int, place.start ≤ byte → byte < place.stop → (marksAt byte spans).Perm
        ((rule.layering.visible (refinedTags doc rule place)).map
          fun tag => (tag, .text feature))) ∧
      ((∀ byte : Int, place.start ≤ byte → byte < place.stop → (marksAt byte spans).Perm
          ((refinedTags doc rule place).map fun tag => (tag, .text feature))) ↔
        rule.layering = .append ∨ (refinedTags doc rule place).length ≤ 1) := by
  obtain ⟨overlay, hrun, hmarks⟩ := h.run
  have hproject : project doc set enabled none = .ok overlay.spans := by
    refine project_eq_ok.2 ⟨⟨h.fresh, ?_, List.all_eq_true.2 h.switched⟩, overlay, hrun, rfl⟩
    exact List.all_eq_true.2 fun value hvalue => isKey_of_isText (h.switched value hvalue)
  have hvisible : ∀ byte : Int, place.start ≤ byte → byte < place.stop →
      (marksAt byte overlay.spans).Perm
        ((rule.layering.visible (refinedTags doc rule place)).map
          fun tag => (tag, .text feature)) := by
    intro byte hstart hstop
    rw [← hmarks byte hstart hstop]
    exact overlay.marksAt_spans byte
  refine ⟨overlay.spans, hproject, hvisible, fun hall => ?_, fun hmode => ?_⟩
  · -- The first byte of the capture shows as many marks as there are tags.
    have hfirst : (place.start : Int) < place.stop := Int.ofNat_lt.2 h.filled
    have hperm := (hvisible place.start (Int.le_refl _) hfirst).symm.trans
      (hall place.start (Int.le_refl _) hfirst)
    have hlength := hperm.length_eq
    rw [List.length_map, List.length_map] at hlength
    exact Layering.length_visible_eq_iff.1 hlength
  · rw [Layering.visible_eq_self hmode] at hvisible
    exact hvisible

/-! ## A line with two tags -/

/-- A rule whose query captures a whole line, with refinements of which two hold of the line. -/
def lineRule (mode : Layering) : HighlightRule where
  feature := .text "lines"
  query := .text "lines"
  layering := mode
  refine :=
    { rules := [⟨.always, .text "one", .null⟩, ⟨.noNode, .text "none", .null⟩,
        ⟨.not .noNode, .text "two", .null⟩]
      accumulating := true }

def lineFeatures (mode : Layering) : FeatureSet := ⟨[[.text "lines"]], [lineRule mode]⟩

theorem soleCapture_line (mode : Layering) :
    SoleCapture wordsDocument (lineFeatures mode) [.text "lines"] "lines" (lineRule mode)
      ⟨wordsTree, []⟩ "line" where
  fresh := rfl
  features := List.forall_mem_cons.2 ⟨rfl, nofun⟩
  switched := List.forall_mem_cons.2 ⟨rfl, nofun⟩
  only_feature := by cbv
  only_rule := by cbv
  only_capture := ⟨⟨"lines", ["word", "line"]⟩, rfl, by cbv⟩
  filled := by decide
  refined := nofun
  accumulating := rfl
  tags := by simp [lineRule, isText]
  decided := by simp [lineRule, Rule.Decided, Predicate.holds, Predicate.evaluate,
    Target.ofNode]

theorem project_refined_line :
    refinedTags wordsDocument (lineRule .append) ⟨wordsTree, []⟩ = [.text "one", .text "two"] ∧
      ∃ spans, project wordsDocument (lineFeatures .append) [.text "lines"] none = .ok spans ∧
        (marksAt 3 spans).Perm
          [(.text "one", .text "lines"), (.text "two", .text "lines")] := by
  have htags : refinedTags wordsDocument (lineRule .append) ⟨wordsTree, []⟩ =
      [.text "one", .text "two"] := by cbv
  obtain ⟨spans, hspans, hmarks, -⟩ := project_refined (soleCapture_line .append)
  have hline := hmarks 3 (by decide) (by decide)
  rw [htags] at hline
  exact ⟨htags, spans, hspans, hline⟩

/-- Of two tags only the last is seen if the rule overrides, and only the first if it keeps. -/
theorem project_refined_hidden :
    (SoleCapture wordsDocument (lineFeatures .override) [.text "lines"] "lines"
        (lineRule .override) ⟨wordsTree, []⟩ "line" ∧
      refinedTags wordsDocument (lineRule .override) ⟨wordsTree, []⟩ =
        [.text "one", .text "two"] ∧
      project wordsDocument (lineFeatures .override) [.text "lines"] none =
        .ok [⟨0, 7, "two", "lines"⟩]) ∧
    SoleCapture wordsDocument (lineFeatures .keep) [.text "lines"] "lines"
        (lineRule .keep) ⟨wordsTree, []⟩ "line" ∧
      refinedTags wordsDocument (lineRule .keep) ⟨wordsTree, []⟩ = [.text "one", .text "two"] ∧
      project wordsDocument (lineFeatures .keep) [.text "lines"] none =
        .ok [⟨0, 7, "one", "lines"⟩] := by
  refine ⟨⟨soleCapture_line .override, ?_, ?_⟩, soleCapture_line .keep, ?_, ?_⟩ <;> cbv

end Highlight

end TreeRules
