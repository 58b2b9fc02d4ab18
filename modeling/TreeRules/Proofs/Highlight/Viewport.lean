import Mathlib
import TreeRules.Highlight.Projection
import TreeRules.Proofs.Highlight.Layering

/-! # Highlighting a range

Highlighting a range of bytes lays down fewer layers than highlighting a whole document, and clips
those that it lays down. The two runs are compared layer by layer. A layer that is only laid down in
the whole run reaches no byte of the range, and a clipped layer does the same as the unclipped one at
the bytes of the range and nothing elsewhere. So the overlay of the range is the whole overlay seen
through the range.
-/
namespace TreeRules

namespace Layer

def clip (first last : Int) (layer : Layer) : Layer :=
  { layer with start := max layer.start first, stop := min layer.stop last }

theorem covers_clip {first last byte : Int} {layer : Layer} :
    (layer.clip first last).covers byte = true ↔
      layer.covers byte = true ∧ first ≤ byte ∧ byte < last := by
  rw [covers_iff, covers_iff]
  simp only [clip]
  omega

theorem markAt_of_not_covers {layer : Layer} {byte : Int} (h : layer.covers byte = false)
    (marks : List Mark) : layer.markAt byte marks = marks := by
  simp [markAt, h]

theorem markAt_clip {first last byte : Int} (h : first ≤ byte ∧ byte < last) (layer : Layer)
    (marks : List Mark) : (layer.clip first last).markAt byte marks = layer.markAt byte marks := by
  have hcovers : (layer.clip first last).covers byte = layer.covers byte := by
    rw [Bool.eq_iff_iff, covers_clip]
    exact and_iff_left h
  unfold markAt
  rw [hcovers]
  rfl

def Misses (first last : Int) (layer : Layer) : Prop :=
  ∀ byte, first ≤ byte → byte < last → layer.covers byte = false

end Layer

namespace Overlay

/-- An overlay shows what a larger one shows in a range, and nothing outside of it. -/
structure SeenThrough (first last : Int) (whole part : Overlay) : Prop where
  whole_proper : Proper whole
  part_proper : Proper part
  marks : ∀ byte, marksAt byte part =
    if first ≤ byte ∧ byte < last then marksAt byte whole else []

variable {first last : Int} {whole part next : Overlay} {layer : Layer}

theorem seenThrough_nil (first last : Int) : SeenThrough first last [] [] :=
  ⟨proper_nil, proper_nil, fun _ => by simp⟩

/-- A layer that misses the range may be left out. -/
theorem SeenThrough.skip (h : SeenThrough first last whole part) (hmiss : layer.Misses first last)
    (hadd : whole.add layer = (next, .ok ())) : SeenThrough first last next part := by
  obtain ⟨hnext, hmarks⟩ := add_eq_ok h.whole_proper hadd
  refine ⟨hnext, h.part_proper, fun byte => ?_⟩
  rw [h.marks]
  split
  next hin => rw [hmarks, Layer.markAt_of_not_covers (hmiss byte hin.1 hin.2)]
  next => rfl

/-- Where a layer goes down, it also goes down clipped. The mark of a clipped layer that fills bare
bytes of the range was put over the same bytes in the whole overlay, so it is made of texts. -/
theorem SeenThrough.add_clip_succeeds (h : SeenThrough first last whole part) (hfirst : 0 ≤ first)
    (hadd : whole.add layer = (next, .ok ())) : (part.add (layer.clip first last)).2 = .ok () := by
  refine add_succeeds h.part_proper ?_ ?_
  · simp only [Layer.clip]
    omega
  · intro byte hc hbare
    obtain ⟨hc, hin⟩ := Layer.covers_clip.1 hc
    have hmarks := h.marks byte
    rw [if_pos hin] at hmarks
    obtain ⟨span, hmark⟩ := mark_of_add h.whole_proper hadd hc fun hmode => hmarks ▸ hbare hmode
    exact ⟨span, hmark⟩

theorem SeenThrough.both (h : SeenThrough first last whole part) (hfirst : 0 ≤ first)
    (hadd : whole.add layer = (next, .ok ())) :
    ∃ next', part.add (layer.clip first last) = (next', .ok ()) ∧
      SeenThrough first last next next' := by
  have hok := h.add_clip_succeeds hfirst hadd
  have hpart : part.add (layer.clip first last) = ((part.add (layer.clip first last)).1, .ok ()) :=
    Prod.ext rfl hok
  obtain ⟨hnext, hmarks⟩ := add_eq_ok h.whole_proper hadd
  obtain ⟨hnext', hmarks'⟩ := add_eq_ok h.part_proper hpart
  refine ⟨_, hpart, hnext, hnext', fun byte => ?_⟩
  rw [hmarks', h.marks]
  split
  next hin => rw [Layer.markAt_clip hin, hmarks]
  next hout =>
    refine Layer.markAt_of_not_covers ?_ _
    rw [← Bool.not_eq_true, Layer.covers_clip]
    exact fun hc => hout hc.2

/-! ## Runs side by side -/

/-- The layers of a range beside all layers: each of these is clipped, or left out because it misses
the range. -/
inductive Windowed (first last : Int) : List (Outcome Layer) → List (Outcome Layer) → Prop
  | nil : Windowed first last [] []
  | skip {outcome : Outcome Layer} {all some : List (Outcome Layer)} :
      (∀ layer, outcome = .ok layer → layer.Misses first last) → Windowed first last all some →
      Windowed first last (outcome :: all) some
  | both {outcome : Outcome Layer} {all some : List (Outcome Layer)} :
      Windowed first last all some →
      Windowed first last (outcome :: all) (outcome.map (Layer.clip first last) :: some)

theorem Windowed.append {all some all' some' : List (Outcome Layer)}
    (h : Windowed first last all some) (h' : Windowed first last all' some') :
    Windowed first last (all ++ all') (some ++ some') := by
  induction h with
  | nil => exact h'
  | skip hmiss _ ih => exact .skip hmiss ih
  | both _ ih => exact .both ih

theorem Windowed.clipped (all : List (Outcome Layer)) :
    Windowed first last all (all.map (Except.map (Layer.clip first last))) := by
  induction all with
  | nil => exact .nil
  | cons outcome rest ih => exact .both ih

theorem Windowed.missed {all : List (Outcome Layer)}
    (h : ∀ layer, .ok layer ∈ all → layer.Misses first last) : Windowed first last all [] := by
  induction all with
  | nil => exact .nil
  | cons outcome rest ih =>
    refine .skip ?_ (ih fun layer hm => h layer (List.mem_cons_of_mem _ hm))
    rintro layer rfl
    exact h layer List.mem_cons_self

theorem Windowed.flatMap {α : Type} {items : List α} {f g : α → List (Outcome Layer)}
    (h : ∀ item ∈ items, Windowed first last (f item) (g item)) :
    Windowed first last (items.flatMap f) (items.flatMap g) := by
  induction items with
  | nil => exact .nil
  | cons item rest ih =>
    rw [List.flatMap_cons, List.flatMap_cons]
    exact (h item List.mem_cons_self).append (ih fun i hi => h i (List.mem_cons_of_mem _ hi))

/-- If all layers go down, so do those of the range, and they show the same in the range. -/
theorem Windowed.run {all some : List (Outcome Layer)} (h : Windowed first last all some)
    (hfirst : 0 ≤ first) (hseen : SeenThrough first last whole part)
    (hrun : whole.addAll all = .ok next) :
    ∃ next', part.addAll some = .ok next' ∧ SeenThrough first last next next' := by
  induction h generalizing whole part with
  | nil =>
    cases hrun
    exact ⟨part, rfl, hseen⟩
  | skip hmiss _ ih =>
    obtain ⟨layer, mid, rfl, hadd, hrest⟩ := addAll_cons_eq_ok.1 hrun
    exact ih (hseen.skip (hmiss layer rfl) hadd) hrest
  | both _ ih =>
    obtain ⟨layer, mid, rfl, hadd, hrest⟩ := addAll_cons_eq_ok.1 hrun
    obtain ⟨mid', hadd', hmid⟩ := hseen.both hfirst hadd
    obtain ⟨next', hrest', hnext⟩ := ih hmid hrest
    exact ⟨next', addAll_cons_eq_ok.2 ⟨_, mid', rfl, hadd', hrest'⟩, hnext⟩

end Overlay

namespace Highlight
open Overlay

/-- Whether a captured node has a byte in a range. -/
def Capture.overlaps (first last : Int) (capture : Capture) : Bool :=
  max (capture.place.start : Int) first < min (capture.place.stop : Int) last

/-- What is relied on when a query is run over a range: of all captures, in their order, it gives
some, and among them all that overlap the range. -/
structure AnswersRange (doc : Document) (first last : Int) (query : String) : Prop where
  sublist : (flatten (doc.captures query (some (first, last)))).Sublist
    (flatten (doc.captures query none))
  complete : ((flatten (doc.captures query none)).filter (Capture.overlaps first last)).Sublist
    (flatten (doc.captures query (some (first, last))))

variable {doc : Document} {first last : Int}

theorem before_trans (x y z : Capture) (hxy : Capture.before x y) (hyz : Capture.before y z) :
    Capture.before x z := by
  simp only [Capture.before, Bool.or_eq_true, Bool.and_eq_true, decide_eq_true_eq,
    beq_iff_eq] at *
  omega

theorem before_total (x y : Capture) : Capture.before x y || Capture.before y x := by
  simp only [Capture.before, Bool.or_eq_true, Bool.and_eq_true, decide_eq_true_eq, beq_iff_eq]
  omega

theorem checkRange_eq_ok (hfirst : 0 ≤ first) (hlast : first ≤ last) :
    checkRange (some (first, last)) = .ok () := by
  have hok : ¬(first < 0 ∨ last < 0 ∨ (last < first ∧ last ≠ 0)) := by omega
  simp [checkRange, hok]

theorem capturesOf_eq_ok (rule : HighlightRule) {range : Option (Int × Int)}
    (hrange : checkRange range = .ok ()) {query : Query}
    (hquery : doc.toolkit.compile (.text doc.language) rule.query = .ok query) :
    capturesOf doc range rule =
      .ok ((flatten (doc.captures query.text range)).mergeSort Capture.before) := by
  simp [capturesOf, hquery, hrange, bind, Except.bind, pure, Except.pure]

/-! ## Layers of captures and rules -/

theorem layersOfCapture_range (feature : Value) (rule : HighlightRule) (capture : Capture) :
    layersOfCapture doc (some (first, last)) feature rule capture =
      (layersOfCapture doc none feature rule capture).map
        (Except.map (Layer.clip first last)) := by
  unfold layersOfCapture
  cases tagsOf doc rule capture with
  | error error => rfl
  | ok tags => simp [clip, Layer.clip, Except.map]

theorem misses_of_not_overlaps {feature : Value} {rule : HighlightRule} {capture : Capture}
    (h : capture.overlaps first last = false) {layer : Layer}
    (hm : .ok layer ∈ layersOfCapture doc none feature rule capture) :
    layer.Misses first last := by
  intro byte h1 h2
  unfold layersOfCapture at hm
  cases htags : tagsOf doc rule capture with
  | error error => simp [htags] at hm
  | ok tags =>
    simp only [htags, clip, List.mem_map, Except.ok.injEq] at hm
    obtain ⟨tag, _, rfl⟩ := hm
    simp only [Capture.overlaps, decide_eq_false_iff_not] at h
    rw [← Bool.not_eq_true, Layer.covers_iff]
    dsimp only
    omega

theorem windowed_captures (feature : Value) (rule : HighlightRule) {all some : List Capture}
    (hsub : some.Sublist all)
    (hsame : (all.filter (Capture.overlaps first last)).length =
      (some.filter (Capture.overlaps first last)).length) :
    Windowed first last (all.flatMap (layersOfCapture doc none feature rule))
      (some.flatMap (layersOfCapture doc (.some (first, last)) feature rule)) := by
  induction hsub with
  | slnil => exact .nil
  | @cons some all capture hsub ih =>
    have hle := (hsub.filter (Capture.overlaps first last)).length_le
    cases ho : capture.overlaps first last with
    | true =>
      simp only [List.filter_cons, ho, if_true, List.length_cons] at hsame
      omega
    | false =>
      simp only [List.filter_cons, ho, Bool.false_eq_true, if_false] at hsame
      rw [List.flatMap_cons]
      exact (Windowed.missed fun _ hm => misses_of_not_overlaps ho hm).append (ih hsame)
  | @cons_cons some all capture hsub ih =>
    have hsame : (all.filter (Capture.overlaps first last)).length =
        (some.filter (Capture.overlaps first last)).length := by
      cases ho : capture.overlaps first last <;>
        simpa only [List.filter_cons, ho, Bool.false_eq_true, if_false, if_true, List.length_cons,
          Nat.add_right_cancel_iff] using hsame
    rw [List.flatMap_cons, List.flatMap_cons, layersOfCapture_range]
    exact (Windowed.clipped _).append (ih hsame)

/-- Sorting keeps the captures of the range a part of all captures, with all that overlap it. -/
theorem AnswersRange.sorted {query : String} (h : AnswersRange doc first last query) :
    let all := (flatten (doc.captures query none)).mergeSort Capture.before
    let some := (flatten (doc.captures query (some (first, last)))).mergeSort Capture.before
    some.Sublist all ∧ (all.filter (Capture.overlaps first last)).length =
      (some.filter (Capture.overlaps first last)).length := by
  refine ⟨StableOrder.mergeSort_sublist before_trans before_total h.sublist, ?_⟩
  have hlength : ∀ captures : List Capture,
      ((captures.mergeSort Capture.before).filter (Capture.overlaps first last)).length =
        (captures.filter (Capture.overlaps first last)).length :=
    fun captures => ((List.mergeSort_perm captures _).filter _).length_eq
  rw [hlength, hlength]
  refine Nat.le_antisymm ?_ (h.sublist.filter _).length_le
  have hcomplete := (h.complete.filter (Capture.overlaps first last)).length_le
  simpa only [List.filter_filter, Bool.and_self] using hcomplete

theorem windowed_rule (hfirst : 0 ≤ first) (hlast : first ≤ last) (feature : Value)
    {rule : HighlightRule}
    (hengine : ∀ query, rule.query = .text query → AnswersRange doc first last query) :
    Windowed first last (layersOfRule doc none feature rule)
      (layersOfRule doc (some (first, last)) feature rule) := by
  unfold layersOfRule
  cases hquery : doc.toolkit.compile (.text doc.language) rule.query with
  | error error =>
    have hfail : ∀ range, capturesOf doc range rule = .error error := by
      intro range
      simp [capturesOf, hquery, bind, Except.bind]
    rw [hfail, hfail]
    exact Windowed.clipped [.error error]
  | ok query =>
    obtain ⟨hsub, hsame⟩ := (hengine query.text (Toolkit.compile_text hquery)).sorted
    rw [capturesOf_eq_ok rule rfl hquery,
      capturesOf_eq_ok rule (checkRange_eq_ok hfirst hlast) hquery]
    exact windowed_captures feature rule hsub hsame

theorem windowed_layers (hfirst : 0 ≤ first) (hlast : first ≤ last) {set : FeatureSet}
    (hengine : ∀ rule ∈ set.rules, ∀ query, rule.query = .text query →
      AnswersRange doc first last query) (enabled : List Value) :
    Windowed first last (layers doc set enabled none)
      (layers doc set enabled (some (first, last))) := by
  refine Windowed.flatMap fun feature _ => ?_
  unfold layersOfFeature
  split
  · exact Windowed.clipped [.error .wrongKind]
  · split
    · refine Windowed.flatMap fun rule hrule => ?_
      exact windowed_rule hfirst hlast feature (hengine rule (List.mem_filter.1 hrule).1)
    · exact .nil

/-! ## The whole projection -/

theorem project_eq_ok {set : FeatureSet} {enabled : List Value} {range : Option (Int × Int)}
    {spans : List Span} : project doc set enabled range = .ok spans ↔
      (doc.checkFresh = .ok () ∧ enabled.all Value.isKey ∧ enabled.all isText) ∧
        ∃ overlay, addAll [] (layers doc set enabled range) = .ok overlay ∧
          overlay.spans = spans := by
  unfold project
  cases hfresh : doc.checkFresh <;> cases hkey : enabled.all Value.isKey <;>
    cases hrun : addAll [] (layers doc set enabled range) <;> cases htext : enabled.all isText <;>
    simp [bind, Except.bind, pure, Except.pure, throw, throwThe, MonadExceptOf.throw]

/-- Where a whole document can be highlighted, so can every range of it. The spans then lie in the
range, and at every byte of the range they carry the same marks, each as often. -/
theorem project_range {set : FeatureSet} {enabled : List Value} {spans : List Span}
    (hfirst : 0 ≤ first) (hlast : first ≤ last)
    (hengine : ∀ rule ∈ set.rules, ∀ query, rule.query = .text query →
      AnswersRange doc first last query)
    (hwhole : project doc set enabled none = .ok spans) :
    ∃ inRange, project doc set enabled (some (first, last)) = .ok inRange ∧
      (∀ span ∈ inRange, first ≤ span.start ∧ span.stop ≤ last) ∧
      ∀ byte, first ≤ byte → byte < last →
        (marksAt byte inRange).Perm (marksAt byte spans) := by
  obtain ⟨hchecks, whole, hrun, rfl⟩ := project_eq_ok.1 hwhole
  obtain ⟨part, hpart, hseen⟩ := (windowed_layers hfirst hlast hengine enabled).run hfirst
    (seenThrough_nil first last) hrun
  refine ⟨part.spans, project_eq_ok.2 ⟨hchecks, part, hpart, rfl⟩, ?_, ?_⟩
  · intro span hs
    refine hseen.part_proper.within (fun byte hout => ?_) (part.spans_perm.mem_iff.1 hs)
    rw [hseen.marks, if_neg hout]
  · intro byte h1 h2
    have hmarks := hseen.marks byte
    rw [if_pos ⟨h1, h2⟩] at hmarks
    exact (part.marksAt_spans byte).trans (hmarks ▸ (whole.marksAt_spans byte).symm)

/-! ## A line of words -/

def wordsTree : Tree :=
  .node ⟨0, "line", 0, 7, true, none, false⟩
    [.node ⟨1, "word", 0, 2, true, none, false⟩ [], .node ⟨2, "=", 3, 4, false, none, false⟩ [],
      .node ⟨3, "word", 5, 7, true, none, false⟩ []]

def wordsPlace (child : Nat) : Place := ⟨wordsTree.children.getD child wordsTree, [wordsTree]⟩

/-- The line `ab = cd`. Its words are captured by one query, the line itself by any other. -/
def wordsDocument : Document where
  language := "words"
  source := Source.ofBytes [97, 98, 32, 61, 32, 99, 100]
  tree := wordsTree
  captures query range :=
    match query, range with
    | "words", none => [("word", [wordsPlace 0, wordsPlace 2])]
    | "words", some _ => [("word", [wordsPlace 2])]
    | _, _ => [("line", [⟨wordsTree, []⟩])]
  toolkit := ⟨fun _ => .ok ⟨fun _ => true, fun _ => true⟩, fun _ _ => .ok ["word", "line"]⟩

def wordsFeatures : FeatureSet where
  levels := [[.text "words"], [.text "lines"]]
  rules := [{ feature := .text "words", query := .text "words", layering := .override },
    { feature := .text "lines", query := .text "lines", layering := .keep }]

theorem answersRange_words : AnswersRange wordsDocument 3 6 "words" :=
  ⟨.cons _ (.cons_cons _ .slnil), .cons_cons _ .slnil⟩

theorem answersRange_lines : AnswersRange wordsDocument 3 6 "lines" :=
  ⟨.cons_cons _ .slnil, .cons_cons _ .slnil⟩

theorem project_range_words :
    (∀ rule ∈ wordsFeatures.rules, ∀ query, rule.query = .text query →
      AnswersRange wordsDocument 3 6 query) ∧
    project wordsDocument wordsFeatures [.text "words", .text "lines"] none =
      .ok [⟨0, 2, "word", "words"⟩, ⟨2, 5, "line", "lines"⟩, ⟨5, 7, "word", "words"⟩] ∧
    ∃ inRange, project wordsDocument wordsFeatures [.text "words", .text "lines"] (some (3, 6)) =
        .ok inRange ∧
      (∀ span ∈ inRange, 3 ≤ span.start ∧ span.stop ≤ 6) ∧
      (marksAt 4 inRange).Perm [(.text "line", .text "lines")] := by
  have hengine : ∀ rule ∈ wordsFeatures.rules, ∀ query, rule.query = .text query →
      AnswersRange wordsDocument 3 6 query := by
    intro rule hrule query hquery
    simp only [wordsFeatures, List.mem_cons, List.not_mem_nil, or_false] at hrule
    rcases hrule with rfl | rfl <;> cases hquery
    · exact answersRange_words
    · exact answersRange_lines
  have hwhole : project wordsDocument wordsFeatures [.text "words", .text "lines"] none =
      .ok [⟨0, 2, "word", "words"⟩, ⟨2, 5, "line", "lines"⟩, ⟨5, 7, "word", "words"⟩] := by
    cbv
  obtain ⟨inRange, hrange, hinside, hmarks⟩ :=
    project_range (by decide) (by decide) hengine hwhole
  exact ⟨hengine, hwhole, inRange, hrange, hinside, hmarks 4 (by decide) (by decide)⟩

end Highlight

end TreeRules
