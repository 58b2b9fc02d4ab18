import TreeRules.Proofs.FirstMatch
import TreeRules.Proofs.Highlight.Switching

/-! # Where spans come from

A span of an overlay is a part of one of the layers that were laid down: cutting leaves parts of
spans, filling lays down parts of the new layer, and neither changes a mark. A layer belongs to a
capture of a rule of a feature that is on, so every span of a projection can be followed back to a
captured node, and its tag to the name of the capture or to a refinement that holds of the node.
-/
namespace TreeRules

structure Span.PartOf (span : Span) (layer : Layer) : Prop where
  mark : span.mark = layer.mark
  start : layer.start ≤ span.start
  stop : span.stop ≤ layer.stop

namespace Overlay

variable {known : Layer → Prop} {overlay next : Overlay} {layer : Layer}

/-- Every span is part of a layer that is known. -/
def Traced (known : Layer → Prop) (overlay : Overlay) : Prop :=
  ∀ span ∈ overlay, ∃ layer, known layer ∧ span.PartOf layer

theorem traced_nil (known : Layer → Prop) : Traced known [] := nofun

theorem mem_outside {start stop : Int} {span piece : Span} (h : piece ∈ outside start stop span) :
    piece.mark = span.mark ∧ span.start ≤ piece.start ∧ piece.stop ≤ span.stop := by
  unfold outside at h
  split at h
  · obtain rfl := List.mem_singleton.1 h
    exact ⟨rfl, le_rfl, le_rfl⟩
  next hcrossing =>
    obtain ⟨hstart, hstop⟩ := not_or.1 hcrossing
    rcases List.mem_append.1 h with hfront | hback
    · split at hfront
      · obtain rfl := List.mem_singleton.1 hfront
        exact ⟨rfl, le_rfl, by dsimp only; omega⟩
      · cases hfront
    · split at hback
      · obtain rfl := List.mem_singleton.1 hback
        exact ⟨rfl, by dsimp only; omega, le_rfl⟩
      · cases hback

theorem Traced.cut (h : Traced known overlay) (start stop : Int) :
    Traced known (overlay.cut start stop) := by
  intro piece hpiece
  obtain ⟨span, hspan, hpiece⟩ := List.mem_flatMap.1 hpiece
  obtain ⟨layer, hlayer, hpart⟩ := h span hspan
  obtain ⟨hmark, hstart, hstop⟩ := mem_outside hpiece
  exact ⟨layer, hlayer, hmark.trans hpart.mark, hpart.start.trans hstart, hstop.trans hpart.stop⟩

theorem Traced.fill (h : Traced known overlay) (hlayer : known layer)
    {stretches : List (Int × Int)}
    (hinside : ∀ stretch ∈ stretches, layer.start ≤ stretch.1 ∧ stretch.2 ≤ layer.stop)
    (hfill : fill layer.tag layer.feature stretches overlay = (next, .ok ())) :
    Traced known next := by
  obtain ⟨laid, rfl, rfl, hmark⟩ := fill_eq_ok hfill
  intro span hspan
  rcases List.mem_append.1 hspan with hold | hnew
  · exact h span hold
  · obtain ⟨hstart, hstop⟩ := hinside span.stretch (List.mem_map_of_mem hnew)
    exact ⟨layer, hlayer, hmark span hnew, hstart, hstop⟩

theorem Traced.add (h : Traced known overlay) (hproper : Proper overlay) (hlayer : known layer)
    (hadd : overlay.add layer = (next, .ok ())) : Traced known next := by
  simp only [Overlay.add] at hadd
  split at hadd
  next =>
    cases hadd
    exact h
  next hlt =>
    have hlt : layer.start < layer.stop := by omega
    have hwhole : ∀ stretch ∈ [(layer.start, layer.stop)],
        layer.start ≤ stretch.1 ∧ stretch.2 ≤ layer.stop := by simp
    cases hmode : layer.mode with
    | append =>
      simp only [hmode] at hadd
      exact h.fill hlayer hwhole hadd
    | override =>
      simp only [hmode] at hadd
      exact (h.cut layer.start layer.stop).fill hlayer hwhole hadd
    | keep =>
      simp only [hmode] at hadd
      refine h.fill hlayer ?_ hadd
      intro gap hgap
      have hbounds := gaps_bounds hproper hlt hgap
      exact ⟨hbounds.1, hbounds.2.2⟩

/-- A run lays down parts of its layers, and none of them is empty. -/
theorem Traced.addAll {outcomes : List (Outcome Layer)} (h : Traced known overlay)
    (hproper : Proper overlay) (hknown : ∀ layer, .ok layer ∈ outcomes → known layer)
    (hrun : overlay.addAll outcomes = .ok next) : Traced known next ∧ Proper next := by
  induction outcomes generalizing overlay with
  | nil =>
    cases hrun
    exact ⟨h, hproper⟩
  | cons first rest ih =>
    obtain ⟨layer, mid, rfl, hadd, hrest⟩ := addAll_cons_eq_ok.1 hrun
    have hlayer := hknown layer List.mem_cons_self
    have hmid := (add_eq_ok hproper hadd).1
    exact ih (h.add hproper hlayer hadd) hmid
      (fun layer hmem => hknown layer (List.mem_cons_of_mem _ hmem)) hrest

end Overlay

namespace Highlight

open Overlay

variable {doc : Document} {set : FeatureSet} {enabled : List Value} {range : Option (Int × Int)}
  {rule : HighlightRule} {capture : Capture}

/-- The query of a rule captures a node, under a name that is no helper. -/
def Captured (doc : Document) (range : Option (Int × Int)) (rule : HighlightRule)
    (capture : Capture) : Prop :=
  ∃ query places, rule.query = .text query ∧ (capture.name, places) ∈ doc.captures query range ∧
    capture.place ∈ places ∧ isHelper capture.name = false

/-- A rule gives a tag to a capture: its name, or if there are refinements the action, which is not
empty, of one that they choose for the node. -/
def Tagged (doc : Document) (rule : HighlightRule) (capture : Capture) (tag : String) : Prop :=
  (rule.refine.rules = [] ∧ tag = capture.name) ∨
    rule.refine.rules ≠ [] ∧ tag ≠ "" ∧ ∃ refinement,
      rule.refine.Chooses doc (Target.ofNode doc capture.place) refinement ∧
        refinement.action = .text tag

/-- A span comes from a capture of a rule: it lies inside the node and the range. -/
structure Origin (doc : Document) (set : FeatureSet) (range : Option (Int × Int)) (span : Span)
    (rule : HighlightRule) (capture : Capture) : Prop where
  rule_mem : rule ∈ set.rules
  feature : rule.feature = .text span.feature
  captured : Captured doc range rule capture
  inside : (capture.place.start : Int) ≤ span.start ∧ span.stop ≤ (capture.place.stop : Int)
  clipped : ∀ first last, range = some (first, last) → first ≤ span.start ∧ span.stop ≤ last
  tagged : Tagged doc rule capture span.tag

theorem mem_flatten {captures : List (String × List Place)} (h : capture ∈ flatten captures) :
    ∃ places, (capture.name, places) ∈ captures ∧ capture.place ∈ places ∧
      isHelper capture.name = false := by
  obtain ⟨⟨name, places⟩, hentry, hcapture⟩ := List.mem_flatMap.1 h
  dsimp only at hcapture
  split at hcapture
  · cases hcapture
  next hhelper =>
    obtain ⟨place, hplace, rfl⟩ := List.mem_map.1 hcapture
    exact ⟨places, hentry, hplace, Bool.not_eq_true _ ▸ hhelper⟩

theorem captured_of_mem {captures : List Capture} (h : capturesOf doc range rule = .ok captures)
    (hcapture : capture ∈ captures) : Captured doc range rule capture := by
  obtain ⟨query, hquery, h⟩ := Outcome.bind_eq_ok.1 h
  obtain ⟨_, -, h⟩ := Outcome.bind_eq_ok.1 h
  obtain rfl := Outcome.pure_eq_ok.1 h
  obtain ⟨places, hentry, hplace, hhelper⟩ := mem_flatten (List.mem_mergeSort.1 hcapture)
  exact ⟨query.text, places, Toolkit.compile_text hquery, hentry, hplace, hhelper⟩

theorem tagged_of_mem {tags : List Value} {tag : String} (h : tagsOf doc rule capture = .ok tags)
    (htag : .text tag ∈ tags) : Tagged doc rule capture tag := by
  unfold tagsOf at h
  split at h
  next hempty =>
    cases h
    cases List.mem_singleton.1 htag
    exact .inl ⟨List.isEmpty_iff.1 hempty, rfl⟩
  next hrefined =>
    obtain ⟨actions, hactions, rfl⟩ := Outcome.map_eq_ok.1 h
    obtain ⟨haction, htruthy⟩ := List.mem_filter.1 htag
    have hfilled : tag ≠ "" := bne_iff_ne.1 htruthy
    obtain ⟨refinement, hchosen, hsame⟩ := Table.chooses_of_mem_resolveAll hactions haction
    exact .inr ⟨fun hnil => hrefined (List.isEmpty_iff.2 hnil), hfilled, refinement, hchosen, hsame⟩

theorem inside_of_clip {start stop first last : Int} (hstart : (clip range start stop).1 ≤ first)
    (hstop : last ≤ (clip range start stop).2) :
    (start ≤ first ∧ last ≤ stop) ∧
      ∀ lower upper, range = some (lower, upper) → lower ≤ first ∧ last ≤ upper := by
  cases range with
  | none => exact ⟨⟨hstart, hstop⟩, nofun⟩
  | some bounds =>
    dsimp only [clip] at hstart hstop
    refine ⟨by omega, ?_⟩
    rintro lower upper ⟨rfl⟩
    omega

/-- What is part of a layer of a projection comes from a capture, and its feature is declared and
on. -/
theorem origin_of_partOf {layer : Layer} {span : Span} (htexts : enabled.all isText = true)
    (hlayer : .ok layer ∈ layers doc set enabled range) (hpart : span.PartOf layer) :
    .text span.feature ∈ set.features ∧ .text span.feature ∈ enabled ∧
      ∃ rule capture, Origin doc set range span rule capture := by
  obtain ⟨feature, hdeclared, hlayer⟩ := List.mem_flatMap.1 hlayer
  obtain ⟨hon, rule, hrule, hlayer⟩ := mem_layersOfFeature hlayer
  obtain ⟨captures, hcaptures, capture, hcapture, hlayer⟩ := mem_layersOfRule hlayer
  obtain ⟨-, hends, hfeature, tags, htags, htag⟩ := mem_layersOfCapture hlayer
  have hname : Value.text span.feature = feature := (congrArg Prod.snd hpart.mark).trans hfeature
  have hspan : Value.text span.tag = layer.tag := congrArg Prod.fst hpart.mark
  have hfirst : layer.start = (clip range capture.place.start capture.place.stop).1 :=
    congrArg Prod.fst hends
  have hlast : layer.stop = (clip range capture.place.start capture.place.stop).2 :=
    congrArg Prod.snd hends
  subst hname
  obtain ⟨hmem, hruleFeature⟩ := feature_of_mem_rulesFor hrule
  obtain ⟨hinside, hclipped⟩ := inside_of_clip (hfirst ▸ hpart.start) (hlast ▸ hpart.stop)
  refine ⟨hdeclared, (memberOf_texts htexts).1 hon, rule, capture, hmem, hruleFeature,
    captured_of_mem hcaptures hcapture, hinside, hclipped, ?_⟩
  rw [← hspan] at htag
  exact tagged_of_mem htags htag

/-- The spans of a projection stand in order. None of them is empty, the feature of each is declared
and on, and each comes from a capture of a rule of that feature. -/
theorem project_origin {doc : Document} {set : FeatureSet} {enabled : List Value}
    {range : Option (Int × Int)} {spans : List Span}
    (h : project doc set enabled range = .ok spans) :
    (spans.Pairwise fun x y => x.start < y.start ∨ x.start = y.start ∧ x.stop ≤ y.stop) ∧
      ∀ span ∈ spans, span.start < span.stop ∧ .text span.feature ∈ set.features ∧
        .text span.feature ∈ enabled ∧ ∃ rule capture, Origin doc set range span rule capture := by
  obtain ⟨⟨-, -, htexts⟩, overlay, hrun, rfl⟩ := project_eq_ok.1 h
  obtain ⟨htraced, hproper⟩ := (traced_nil _).addAll proper_nil (fun _ hlayer => hlayer) hrun
  refine ⟨overlay.spans_ordered, ?_⟩
  intro span hspan
  have hmem := overlay.spans_perm.mem_iff.1 hspan
  obtain ⟨layer, hlayer, hpart⟩ := htraced span hmem
  exact ⟨hproper span hmem, origin_of_partOf htexts hlayer hpart⟩

/-! ### A clipped line -/

/-- Words override, and the line keeps what they leave; its tag is the action of the second
refinement, because the first one holds of no node. -/
def restFeatures : FeatureSet where
  levels := [[.text "words", .text "lines"]]
  rules := [{ feature := .text "words", query := .text "words", layering := .override },
    { feature := .text "lines", query := .text "lines", layering := .keep,
      refine := { rules := [⟨.noNode, .text "none", .null⟩, ⟨.always, .text "rest", .null⟩] } }]

theorem project_origin_rest :
    project wordsDocument restFeatures [.text "lines", .text "words"] (some (3, 6)) =
        .ok [⟨3, 5, "rest", "lines"⟩, ⟨5, 6, "word", "words"⟩] ∧
      ∃ rule capture, Origin wordsDocument restFeatures (some (3, 6)) ⟨3, 5, "rest", "lines"⟩ rule
        capture := by
  have hspans : project wordsDocument restFeatures [.text "lines", .text "words"] (some (3, 6)) =
      .ok [⟨3, 5, "rest", "lines"⟩, ⟨5, 6, "word", "words"⟩] := by cbv
  exact ⟨hspans, ((project_origin hspans).2 _ List.mem_cons_self).2.2.2⟩

end Highlight

end TreeRules
