import Mathlib
import TreeRules.Proofs.Highlight.Viewport
import TreeRules.Proofs.Predicate.Acceptance

/-! # Features switched on and off

A byte only sees the layers that go over it. So two lists of features give it the same marks as long
as no rule of a feature that is in one list alone captures it, however far the captures of such
rules cut or fill elsewhere. A higher level puts the layers of its new features on top of those that
were there, and of these only overriding ones can take a mark away.
-/
namespace TreeRules

/-! ## Layers over a byte -/

namespace Layer

variable {byte : Int} {marks : List Mark}

/-- The layers that go over a byte, of those that could be found out. -/
def reaching (byte : Int) (outcomes : List (Outcome Layer)) : List Layer :=
  outcomes.filterMap fun outcome => outcome.toOption.filter (·.covers byte)

@[simp] theorem reaching_nil (byte : Int) : reaching byte [] = [] := rfl

@[simp] theorem reaching_cons_error (byte : Int) (error : Error) (rest : List (Outcome Layer)) :
    reaching byte (.error error :: rest) = reaching byte rest := rfl

theorem reaching_cons_ok (byte : Int) (layer : Layer) (rest : List (Outcome Layer)) :
    reaching byte (.ok layer :: rest) =
      (if layer.covers byte then [layer] else []) ++ reaching byte rest := by
  by_cases hc : layer.covers byte <;> simp [reaching, Except.toOption, Option.filter, hc]

theorem reaching_flatMap {α : Type} (byte : Int) (items : List α) (f : α → List (Outcome Layer)) :
    reaching byte (items.flatMap f) = items.flatMap fun item => reaching byte (f item) :=
  List.filterMap_flatMap

theorem mem_reaching {layer : Layer} {outcomes : List (Outcome Layer)} :
    layer ∈ reaching byte outcomes ↔ .ok layer ∈ outcomes ∧ layer.covers byte = true := by
  simp only [reaching, List.mem_filterMap, Option.filter_eq_some_iff]
  constructor
  · rintro ⟨outcome, hmem, hok, hcovers⟩
    cases outcome with
    | error error => cases hok
    | ok found =>
      cases hok
      exact ⟨hmem, hcovers⟩
  · rintro ⟨hmem, hcovers⟩
    exact ⟨.ok layer, hmem, rfl, hcovers⟩

theorem marksAfter_append (front back : List Layer) :
    marksAfter byte marks (front ++ back) = marksAfter byte (marksAfter byte marks front) back :=
  List.foldl_append

theorem prefix_markAt {layer : Layer} (h : layer.mode ≠ .override) :
    marks <+: layer.markAt byte marks := by
  unfold markAt
  split
  · cases hmode : layer.mode with
    | append => exact List.prefix_append marks [layer.mark]
    | override => exact absurd hmode h
    | keep =>
      dsimp only
      split
      next hempty =>
        rw [List.isEmpty_iff.1 hempty]
        exact List.nil_prefix
      next => exact List.prefix_rfl
  · exact List.prefix_rfl

theorem prefix_marksAfter {layers : List Layer} (h : ∀ layer ∈ layers, layer.mode ≠ .override) :
    marks <+: marksAfter byte marks layers := by
  induction layers generalizing marks with
  | nil => exact List.prefix_rfl
  | cons layer rest ih =>
    obtain ⟨hlayer, hrest⟩ := List.forall_mem_cons.1 h
    have hfirst : marks <+: layer.markAt byte marks := prefix_markAt hlayer
    have hlast : layer.markAt byte marks <+: marksAfter byte (layer.markAt byte marks) rest :=
      ih hrest
    exact hfirst.trans hlast

end Layer

namespace Overlay

/-- The marks at a byte come from the layers that go over it. -/
theorem marksAt_addAll {overlay next : Overlay} {outcomes : List (Outcome Layer)}
    (h : Proper overlay) (hrun : overlay.addAll outcomes = .ok next) (byte : Int) :
    marksAt byte next =
      Layer.marksAfter byte (marksAt byte overlay) (Layer.reaching byte outcomes) := by
  induction outcomes generalizing overlay with
  | nil =>
    cases hrun
    rfl
  | cons first rest ih =>
    obtain ⟨layer, mid, rfl, hadd, hrest⟩ := addAll_cons_eq_ok.1 hrun
    obtain ⟨hmid, hmarks⟩ := add_eq_ok h hadd
    rw [ih hmid hrest, hmarks, Layer.reaching_cons_ok, Layer.marksAfter_append]
    by_cases hc : layer.covers byte
    · rw [if_pos hc]
      rfl
    · rw [if_neg hc, Layer.markAt_of_not_covers (by simpa using hc)]
      rfl

end Overlay

namespace Highlight

open Overlay

variable {doc : Document} {set : FeatureSet} {range : Option (Int × Int)} {byte : Int}

/-- The query of a rule captures a node with a byte, under a name that is no helper. -/
def CapturesAt (doc : Document) (range : Option (Int × Int)) (rule : HighlightRule) (byte : Int) :
    Prop :=
  ∃ captures, capturesOf doc range rule = .ok captures ∧
    ∃ capture ∈ captures, (capture.place.start : Int) ≤ byte ∧ byte < capture.place.stop

theorem within_of_clip {start stop : Int} (h : (clip range start stop).1 ≤ byte)
    (h' : byte < (clip range start stop).2) : start ≤ byte ∧ byte < stop := by
  cases range with
  | none => exact ⟨h, h'⟩
  | some bounds =>
    dsimp only [clip] at h h'
    omega

theorem mem_layersOfCapture {feature : Value} {rule : HighlightRule} {capture : Capture}
    {layer : Layer} (h : .ok layer ∈ layersOfCapture doc range feature rule capture) :
    layer.mode = rule.layering ∧
      (layer.start, layer.stop) = clip range capture.place.start capture.place.stop ∧
      layer.feature = feature ∧ ∃ tags, tagsOf doc rule capture = .ok tags ∧ layer.tag ∈ tags := by
  unfold layersOfCapture at h
  cases htags : tagsOf doc rule capture with
  | error error => simp [htags] at h
  | ok tags =>
    simp only [htags, List.mem_map, Except.ok.injEq] at h
    obtain ⟨tag, htag, rfl⟩ := h
    exact ⟨rfl, rfl, rfl, tags, rfl, htag⟩

theorem mem_layersOfRule {feature : Value} {rule : HighlightRule} {layer : Layer}
    (h : .ok layer ∈ layersOfRule doc range feature rule) :
    ∃ captures, capturesOf doc range rule = .ok captures ∧
      ∃ capture ∈ captures, .ok layer ∈ layersOfCapture doc range feature rule capture := by
  unfold layersOfRule at h
  cases hcaptures : capturesOf doc range rule with
  | error error => simp [hcaptures] at h
  | ok captures =>
    simp only [hcaptures] at h
    exact ⟨captures, rfl, List.mem_flatMap.1 h⟩

theorem capturesAt_of_mem_layersOfRule {feature : Value} {rule : HighlightRule} {layer : Layer}
    (h : .ok layer ∈ layersOfRule doc range feature rule) (hcovers : layer.covers byte = true) :
    CapturesAt doc range rule byte ∧ layer.mode = rule.layering := by
  obtain ⟨captures, hcaptures, capture, hcapture, hlayer⟩ := mem_layersOfRule h
  obtain ⟨hmode, hends, -⟩ := mem_layersOfCapture hlayer
  obtain ⟨hstart, hstop⟩ := Layer.covers_iff.1 hcovers
  have hfirst : layer.start = (clip range capture.place.start capture.place.stop).1 :=
    congrArg Prod.fst hends
  have hlast : layer.stop = (clip range capture.place.start capture.place.stop).2 :=
    congrArg Prod.snd hends
  have hwithin := within_of_clip (hfirst ▸ hstart) (hlast ▸ hstop)
  exact ⟨⟨captures, hcaptures, capture, hcapture, hwithin⟩, hmode⟩

/-! ## Lists of features -/

variable {enabled one two : List Value} {feature : Value}

theorem exists_text {value : Value} (h : isText value = true) : ∃ name, value = .text name := by
  cases value with
  | text name => exact ⟨name, rfl⟩
  | _ => cases h

theorem text_of_mem_isText {items : List Value} (h : items.all isText = true) {item : Value}
    (hitem : item ∈ items) : ∃ name, item = .text name :=
  exists_text (List.all_eq_true.1 h item hitem)

theorem memberOf_texts {items : List Value} (h : items.all isText = true) {value : Value} :
    value.memberOf items = true ↔ value ∈ items := by
  unfold Value.memberOf
  rw [List.any_eq_true]
  constructor
  · rintro ⟨item, hitem, hequal⟩
    obtain ⟨name, rfl⟩ := text_of_mem_isText h hitem
    rw [Value.equal_text_left.1 hequal]
    exact hitem
  · intro hvalue
    obtain ⟨name, rfl⟩ := text_of_mem_isText h hvalue
    exact ⟨.text name, hvalue, Value.equal_text_left.2 rfl⟩

theorem layersOfFeature_congr (h : feature.memberOf one = feature.memberOf two) :
    layersOfFeature doc set one range feature = layersOfFeature doc set two range feature := by
  unfold layersOfFeature
  rw [h]

theorem reaching_layersOfFeature_off (h : feature.memberOf enabled = false) :
    Layer.reaching byte (layersOfFeature doc set enabled range feature) = [] := by
  unfold layersOfFeature
  rw [h]
  cases feature.isKey <;> rfl

theorem mem_layersOfFeature {layer : Layer}
    (h : .ok layer ∈ layersOfFeature doc set enabled range feature) :
    feature.memberOf enabled = true ∧
      ∃ rule ∈ set.rulesFor feature, .ok layer ∈ layersOfRule doc range feature rule := by
  unfold layersOfFeature at h
  cases hkey : feature.isKey with
  | false => simp [hkey] at h
  | true =>
    cases hon : feature.memberOf enabled with
    | false => simp [hkey, hon] at h
    | true =>
      simp only [hkey, hon, Bool.not_true, Bool.false_eq_true, if_false, if_true] at h
      exact ⟨rfl, List.mem_flatMap.1 h⟩

theorem rule_of_mem_reaching {layer : Layer}
    (h : layer ∈ Layer.reaching byte (layersOfFeature doc set enabled range feature)) :
    feature.memberOf enabled = true ∧ ∃ rule ∈ set.rulesFor feature,
      CapturesAt doc range rule byte ∧ layer.mode = rule.layering := by
  obtain ⟨hmem, hcovers⟩ := Layer.mem_reaching.1 h
  obtain ⟨hon, rule, hrule, hlayer⟩ := mem_layersOfFeature hmem
  exact ⟨hon, rule, hrule, capturesAt_of_mem_layersOfRule hlayer hcovers⟩

theorem feature_of_mem_rulesFor {rule : HighlightRule} {name : String}
    (h : rule ∈ set.rulesFor (.text name)) : rule ∈ set.rules ∧ rule.feature = .text name := by
  obtain ⟨hrule, hequal⟩ := List.mem_filter.1 h
  exact ⟨hrule, Value.equal_text_right.1 hequal⟩

theorem reaching_layersOfFeature_toggled (hone : one.all isText = true)
    (htwo : two.all isText = true)
    (hdiffer : feature.memberOf one ≠ feature.memberOf two)
    (hbyte : ∀ rule ∈ set.rules, rule.feature.memberOf one ≠ rule.feature.memberOf two →
      ¬CapturesAt doc range rule byte) :
    Layer.reaching byte (layersOfFeature doc set enabled range feature) = [] := by
  -- The feature is in one of the lists, which hold nothing but texts, so its rules name it as it is.
  have hname : ∃ name, feature = .text name := by
    cases hin : feature.memberOf one with
    | true => exact text_of_mem_isText hone ((memberOf_texts hone).1 hin)
    | false =>
      have hin' : feature.memberOf two = true := by
        rw [hin] at hdiffer
        exact Bool.eq_true_of_not_eq_false (Ne.symm hdiffer)
      exact text_of_mem_isText htwo ((memberOf_texts htwo).1 hin')
  obtain ⟨name, rfl⟩ := hname
  refine List.eq_nil_iff_forall_not_mem.2 fun layer hlayer => ?_
  obtain ⟨-, rule, hrule, hcaptures, -⟩ := rule_of_mem_reaching hlayer
  obtain ⟨hmem, hfeature⟩ := feature_of_mem_rulesFor hrule
  refine hbyte rule hmem ?_ hcaptures
  rwa [hfeature]

theorem reaching_layers_toggled (hone : one.all isText = true) (htwo : two.all isText = true)
    (hbyte : ∀ rule ∈ set.rules, rule.feature.memberOf one ≠ rule.feature.memberOf two →
      ¬CapturesAt doc range rule byte) :
    Layer.reaching byte (layers doc set one range) =
      Layer.reaching byte (layers doc set two range) := by
  unfold layers
  rw [Layer.reaching_flatMap, Layer.reaching_flatMap]
  refine List.flatMap_congr fun feature _ => ?_
  by_cases hsame : feature.memberOf one = feature.memberOf two
  · rw [layersOfFeature_congr hsame]
  · rw [reaching_layersOfFeature_toggled hone htwo hsame hbyte,
      reaching_layersOfFeature_toggled hone htwo hsame hbyte]

theorem project_congr (h : ∀ value, value ∈ one ↔ value ∈ two) :
    project doc set one range = project doc set two range := by
  have hall : ∀ p : Value → Bool, one.all p = two.all p := by
    intro p
    rw [Bool.eq_iff_iff, List.all_eq_true, List.all_eq_true]
    exact forall_congr' fun value => imp_congr (h value) Iff.rfl
  have hmember : ∀ value : Value, value.memberOf one = value.memberOf two := by
    intro value
    unfold Value.memberOf
    rw [Bool.eq_iff_iff, List.any_eq_true, List.any_eq_true]
    exact exists_congr fun item => and_congr (h item) Iff.rfl
  have hlayers : layers doc set one range = layers doc set two range := by
    unfold layers
    exact List.flatMap_congr fun feature _ => layersOfFeature_congr (hmember feature)
  unfold project
  rw [hlayers, hall, hall]

/-- Switching features on or off changes nothing at a byte that no rule of these features captures.
How the features that are on are listed, and how often, changes nothing at all. -/
theorem project_local (doc : Document) (set : FeatureSet) (range : Option (Int × Int))
    (one two : List Value) :
    (∀ spans others, project doc set one range = .ok spans →
      project doc set two range = .ok others → ∀ byte,
        (∀ rule ∈ set.rules, rule.feature.memberOf one ≠ rule.feature.memberOf two →
          ¬CapturesAt doc range rule byte) →
        (marksAt byte spans).Perm (marksAt byte others)) ∧
    ((∀ feature, feature ∈ one ↔ feature ∈ two) →
      project doc set one range = project doc set two range) := by
  refine ⟨fun spans others hspans hothers byte hbyte => ?_, project_congr⟩
  obtain ⟨⟨-, -, hone⟩, overlay, hrun, rfl⟩ := project_eq_ok.1 hspans
  obtain ⟨⟨-, -, htwo⟩, overlay', hrun', rfl⟩ := project_eq_ok.1 hothers
  have hsame : marksAt byte overlay = marksAt byte overlay' := by
    rw [marksAt_addAll proper_nil hrun, marksAt_addAll proper_nil hrun',
      reaching_layers_toggled hone htwo hbyte]
  have hperm := overlay.marksAt_spans byte
  rw [hsame] at hperm
  exact hperm.trans (overlay'.marksAt_spans byte).symm

/-! ### A line and its words -/

/-- The line is marked first and once more at the end; in between its words override it. -/
def nestedFeatures : FeatureSet where
  levels := [[.text "lines"], [.text "words", .text "ends"]]
  rules := [{ feature := .text "lines", query := .text "lines" },
    { feature := .text "words", query := .text "words", layering := .override },
    { feature := .text "ends", query := .text "lines" }]

theorem not_capturesAt_words {rule : HighlightRule} (hquery : rule.query = .text "words") :
    ¬CapturesAt wordsDocument none rule 3 := by
  have hcompiled : wordsDocument.toolkit.compile (.text wordsDocument.language) rule.query =
      .ok ⟨"words", ["word", "line"]⟩ := by
    rw [hquery]
    rfl
  have hcaptures : capturesOf wordsDocument none rule =
      .ok [⟨wordsPlace 0, "word"⟩, ⟨wordsPlace 2, "word"⟩] := by
    rw [capturesOf_eq_ok rule rfl hcompiled]
    cbv
  rintro ⟨captures, hok, capture, hcapture, hbyte⟩
  rw [hcaptures] at hok
  cases hok
  simp only [List.mem_cons, List.not_mem_nil, or_false] at hcapture
  rcases hcapture with rfl | rfl
  · exact absurd hbyte (by decide)
  · exact absurd hbyte (by decide)

theorem project_local_words :
    project wordsDocument nestedFeatures [.text "lines"] none = .ok [⟨0, 7, "line", "lines"⟩] ∧
    project wordsDocument nestedFeatures [.text "words", .text "lines", .text "words"] none =
      .ok [⟨0, 2, "word", "words"⟩, ⟨2, 5, "line", "lines"⟩, ⟨5, 7, "word", "words"⟩] ∧
    (marksAt 3 [⟨0, 7, "line", "lines"⟩]).Perm
      (marksAt 3 [⟨0, 2, "word", "words"⟩, ⟨2, 5, "line", "lines"⟩, ⟨5, 7, "word", "words"⟩]) ∧
    project wordsDocument nestedFeatures [.text "words", .text "lines", .text "words"] none =
      project wordsDocument nestedFeatures [.text "lines", .text "words"] none := by
  have hlines : project wordsDocument nestedFeatures [.text "lines"] none =
      .ok [⟨0, 7, "line", "lines"⟩] := by cbv
  have hwords : project wordsDocument nestedFeatures
      [.text "words", .text "lines", .text "words"] none =
      .ok [⟨0, 2, "word", "words"⟩, ⟨2, 5, "line", "lines"⟩, ⟨5, 7, "word", "words"⟩] := by cbv
  refine ⟨hlines, hwords, ?_, ?_⟩
  · refine (project_local wordsDocument nestedFeatures none _ _).1 _ _ hlines hwords 3 ?_
    intro rule hrule hdiffer
    simp only [nestedFeatures, List.mem_cons, List.not_mem_nil, or_false] at hrule
    rcases hrule with rfl | rfl | rfl
    · exact absurd (by cbv) hdiffer
    · exact not_capturesAt_words rfl
    · exact absurd (by cbv) hdiffer
  · refine (project_local wordsDocument nestedFeatures none _ _).2 ?_
    intro feature
    simp only [List.mem_cons, List.not_mem_nil, or_false]
    tauto

end Highlight

/-! ## Levels -/

namespace Feature

variable {levels : List (List Value)} {enable disable on : List Value} {feature : Value}

theorem upTo_natCast (level : Nat) : Slice.upTo levels level = levels.take level := by
  rw [Slice.upTo, Slice.bound_natCast]
  rcases Nat.le_total level levels.length with h | h
  · rw [Nat.min_eq_left h]
  · rw [Nat.min_eq_right h, List.take_of_length_le h, List.take_length]

theorem enabled_eq_ok_iff {level : Int} :
    enabled levels level enable disable = .ok on ↔
      (∀ value ∈ (Slice.upTo levels level).flatten ++ enable ++ disable ++ declared levels,
        value.isKey = true) ∧
      on = (declared levels).filter fun feature =>
        feature.memberOf ((Slice.upTo levels level).flatten ++ enable) &&
          !feature.memberOf disable := by
  unfold enabled
  dsimp only
  rw [← List.all_eq_true]
  split
  next hkeys =>
    rw [Except.ok.injEq, eq_comm]
    exact (and_iff_right hkeys).symm
  next hkeys => exact ⟨nofun, fun h => absurd h.1 hkeys⟩

theorem declared_split (levels : List (List Value)) (level : Nat) :
    declared levels = (levels.take level).flatten ++ (levels.drop level).flatten := by
  rw [← List.flatten_append, List.take_append_drop]
  rfl

/-- A declared feature of the first levels is on unless it is disabled. -/
theorem mem_enabled_of_mem_take {level : Nat} (hon : enabled levels level [] disable = .ok on)
    (h : feature ∈ (levels.take level).flatten) :
    feature ∈ on ↔ feature.memberOf disable = false := by
  obtain ⟨hkeys, rfl⟩ := enabled_eq_ok_iff.1 hon
  rw [upTo_natCast] at *
  have hdeclared : feature ∈ declared levels := by
    rw [declared_split levels level]
    exact List.mem_append_left _ h
  have hself : feature.equal feature = true := by
    refine Value.equal_self (hkeys feature ?_)
    exact List.mem_append_right _ hdeclared
  have hfirst : feature.memberOf ((levels.take level).flatten ++ []) = true := by
    rw [List.append_nil]
    exact List.any_eq_true.2 ⟨feature, h, hself⟩
  rw [List.mem_filter, hfirst]
  simp [hdeclared]

/-- Where no feature is declared twice, those of later levels are off. -/
theorem not_mem_enabled_of_mem_drop {level : Nat}
    (hdistinct : (declared levels).Pairwise fun x y => x.equal y = false)
    (hon : enabled levels level [] disable = .ok on)
    (h : feature ∈ (levels.drop level).flatten) : feature ∉ on := by
  obtain ⟨-, rfl⟩ := enabled_eq_ok_iff.1 hon
  rw [upTo_natCast, List.append_nil]
  intro hmem
  have hfirst := (Bool.and_eq_true _ _ ▸ (List.mem_filter.1 hmem).2).1
  obtain ⟨other, hother, hequal⟩ := List.any_eq_true.1 hfirst
  rw [declared_split levels level, List.pairwise_append] at hdistinct
  have hunequal := hdistinct.2.2 other hother feature h
  rw [hequal] at hunequal
  cases hunequal

end Feature

namespace Highlight

open Overlay

variable {doc : Document} {set : FeatureSet} {range : Option (Int × Int)} {byte : Int}
  {fewer more disable : List Value}

-- In the levels up to the lower one the same features are on; behind them come further ones, none
-- of which is on at the lower level.
theorem reaching_layers_levels (doc : Document) (range : Option (Int × Int)) (byte : Int)
    {level higher : Nat} (hle : level ≤ higher)
    (hdistinct : set.features.Pairwise fun x y => x.equal y = false)
    (hfewer : Feature.enabled set.levels level [] disable = .ok fewer)
    (hmore : Feature.enabled set.levels higher [] disable = .ok more)
    (hfewerTexts : fewer.all isText = true) (hmoreTexts : more.all isText = true) :
    ∃ added, Layer.reaching byte (layers doc set more range) =
        Layer.reaching byte (layers doc set fewer range) ++ added ∧
      ∀ layer ∈ added, ∃ rule ∈ set.rules, rule.feature.memberOf more = true ∧
        rule.feature.memberOf fewer = false ∧ CapturesAt doc range rule byte ∧
        layer.mode = rule.layering := by
  have hsplit : set.features =
      (set.levels.take level).flatten ++ (set.levels.drop level).flatten :=
    Feature.declared_split set.levels level
  have hfront : ∀ feature ∈ (set.levels.take level).flatten,
      feature.memberOf more = feature.memberOf fewer := by
    intro feature hfeature
    have hhigher : feature ∈ (set.levels.take higher).flatten := by
      obtain ⟨features, hfeatures, hmem⟩ := List.mem_flatten.1 hfeature
      exact List.mem_flatten.2 ⟨features, (List.take_subset_take_left _ hle) hfeatures, hmem⟩
    rw [Bool.eq_iff_iff, memberOf_texts hfewerTexts, memberOf_texts hmoreTexts,
      Feature.mem_enabled_of_mem_take hfewer hfeature,
      Feature.mem_enabled_of_mem_take hmore hhigher]
  have hback : ∀ feature ∈ (set.levels.drop level).flatten, feature.memberOf fewer = false := by
    intro feature hfeature
    rw [← Bool.not_eq_true, memberOf_texts hfewerTexts]
    exact Feature.not_mem_enabled_of_mem_drop hdistinct hfewer hfeature
  refine ⟨(set.levels.drop level).flatten.flatMap fun feature =>
    Layer.reaching byte (layersOfFeature doc set more range feature), ?_, ?_⟩
  · unfold layers
    rw [hsplit, Layer.reaching_flatMap, Layer.reaching_flatMap, List.flatMap_append,
      List.flatMap_append]
    have hsame : ((set.levels.take level).flatten.flatMap fun feature =>
          Layer.reaching byte (layersOfFeature doc set more range feature)) =
        (set.levels.take level).flatten.flatMap fun feature =>
          Layer.reaching byte (layersOfFeature doc set fewer range feature) := by
      refine List.flatMap_congr fun feature hfeature => ?_
      rw [layersOfFeature_congr (hfront feature hfeature)]
    have hnone : ((set.levels.drop level).flatten.flatMap fun feature =>
        Layer.reaching byte (layersOfFeature doc set fewer range feature)) = [] := by
      refine List.flatMap_eq_nil_iff.2 fun feature hfeature => ?_
      exact reaching_layersOfFeature_off (hback feature hfeature)
    rw [hsame, hnone, List.append_nil]
  · intro layer hlayer
    obtain ⟨feature, hfeature, hlayer⟩ := List.mem_flatMap.1 hlayer
    obtain ⟨hon, rule, hrule, hcaptures, hmode⟩ := rule_of_mem_reaching hlayer
    obtain ⟨name, rfl⟩ := text_of_mem_isText hmoreTexts ((memberOf_texts hmoreTexts).1 hon)
    obtain ⟨hmem, hname⟩ := feature_of_mem_rulesFor hrule
    refine ⟨rule, hmem, ?_, ?_, hcaptures, hmode⟩
    · rw [hname, hon]
    · rw [hname, hback _ hfeature]

/-- A higher level takes no mark away from a byte, unless an overriding rule of one of the features
that it adds captures that byte. -/
theorem project_level_mono {level higher : Int} {low high : List Span} (hlevel : 0 ≤ level)
    (hle : level ≤ higher)
    (hdistinct : set.features.Pairwise fun x y => x.equal y = false)
    (hfewer : Feature.enabled set.levels level [] disable = .ok fewer)
    (hmore : Feature.enabled set.levels higher [] disable = .ok more)
    (hlow : project doc set fewer range = .ok low) (hhigh : project doc set more range = .ok high)
    (hbyte : ∀ rule ∈ set.rules, rule.layering = .override → rule.feature.memberOf more = true →
      rule.feature.memberOf fewer = false → ¬CapturesAt doc range rule byte) :
    (marksAt byte low).Subperm (marksAt byte high) := by
  obtain ⟨level, rfl⟩ := Int.eq_ofNat_of_zero_le hlevel
  obtain ⟨higher, rfl⟩ := Int.eq_ofNat_of_zero_le (hlevel.trans hle)
  obtain ⟨⟨-, -, hfewerTexts⟩, overlay, hrun, rfl⟩ := project_eq_ok.1 hlow
  obtain ⟨⟨-, -, hmoreTexts⟩, overlay', hrun', rfl⟩ := project_eq_ok.1 hhigh
  obtain ⟨added, hreaching, hadded⟩ := reaching_layers_levels doc range byte
    (Int.ofNat_le.1 hle) hdistinct hfewer hmore hfewerTexts hmoreTexts
  have hkept : ∀ layer ∈ added, layer.mode ≠ .override := by
    intro layer hlayer hoverride
    obtain ⟨rule, hrule, hon, hoff, hcaptures, hmode⟩ := hadded layer hlayer
    exact hbyte rule hrule (hmode.symm.trans hoverride) hon hoff hcaptures
  have hfront : marksAt byte overlay <+: marksAt byte overlay' := by
    rw [marksAt_addAll proper_nil hrun, marksAt_addAll proper_nil hrun', hreaching,
      Layer.marksAfter_append]
    exact Layer.prefix_marksAfter hkept
  exact (overlay.marksAt_spans byte).subperm.trans
    (hfront.sublist.subperm.trans (overlay'.marksAt_spans byte).symm.subperm)

theorem project_level_mono_words :
    (nestedFeatures.features.Pairwise fun x y => x.equal y = false) ∧
    Feature.enabled nestedFeatures.levels 1 [] [.text "tags"] = .ok [.text "lines"] ∧
    Feature.enabled nestedFeatures.levels 2 [] [.text "tags"] =
      .ok [.text "lines", .text "words", .text "ends"] ∧
    ∃ low high, project wordsDocument nestedFeatures [.text "lines"] none = .ok low ∧
      project wordsDocument nestedFeatures [.text "lines", .text "words", .text "ends"] none =
        .ok high ∧ (marksAt 3 low).Subperm (marksAt 3 high) ∧
      marksAt 3 low = [(.text "line", .text "lines")] ∧
      (marksAt 3 high).length = 2 := by
  have hdistinct : nestedFeatures.features.Pairwise fun x y => x.equal y = false := by
    simp only [nestedFeatures, FeatureSet.features, Feature.declared, List.flatten_cons,
      List.flatten_nil, List.append_nil, List.cons_append, List.nil_append, List.pairwise_cons,
      List.forall_mem_cons]
    exact ⟨⟨by cbv, by cbv, List.forall_mem_nil _⟩, ⟨by cbv, List.forall_mem_nil _⟩,
      List.forall_mem_nil _, .nil⟩
  have hfewer : Feature.enabled nestedFeatures.levels 1 [] [.text "tags"] =
      .ok [.text "lines"] := by cbv
  have hmore : Feature.enabled nestedFeatures.levels 2 [] [.text "tags"] =
      .ok [.text "lines", .text "words", .text "ends"] := by cbv
  have hlow : project wordsDocument nestedFeatures [.text "lines"] none =
      .ok [⟨0, 7, "line", "lines"⟩] := by cbv
  have hhigh : project wordsDocument nestedFeatures [.text "lines", .text "words", .text "ends"]
      none = .ok [⟨0, 2, "word", "words"⟩, ⟨0, 7, "line", "ends"⟩, ⟨2, 5, "line", "lines"⟩,
        ⟨5, 7, "word", "words"⟩] := by cbv
  refine ⟨hdistinct, hfewer, hmore, _, _, hlow, hhigh, ?_, rfl, rfl⟩
  refine project_level_mono (by decide) (by decide) hdistinct hfewer hmore hlow hhigh ?_
  intro rule hrule hoverride _ _
  simp only [nestedFeatures, List.mem_cons, List.not_mem_nil, or_false] at hrule
  rcases hrule with rfl | rfl | rfl
  · cases hoverride
  · exact not_capturesAt_words rfl
  · cases hoverride

end Highlight

end TreeRules
