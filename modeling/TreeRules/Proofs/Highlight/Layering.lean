import TreeRules.Proofs.Highlight.Coverage

/-! # Layers one after the other

Each byte can be followed on its own while layers are laid down: the marks that an overlay shows at a
byte are those of a run over the layers that looks at this byte alone. Sorting the spans by position
at the end changes neither the spans nor the order among those at the same position.
-/
namespace TreeRules

namespace Layer

/-- The marks at a byte when layers are laid over it one after the other. -/
def marksAfter (byte : Int) (marks : List Mark) (layers : List Layer) : List Mark :=
  layers.foldl (fun marks layer => layer.markAt byte marks) marks

/-- Tag and feature of a layer are texts. -/
def HasTexts (layer : Layer) : Prop := ∃ tag feature, layer.mark = (.text tag, .text feature)

end Layer

namespace Overlay

/-! ## Runs -/

theorem addAll_cons_eq_ok {overlay next : Overlay} {first : Outcome Layer}
    {rest : List (Outcome Layer)} :
    overlay.addAll (first :: rest) = .ok next ↔ ∃ layer mid, first = .ok layer ∧
      overlay.add layer = (mid, .ok ()) ∧ mid.addAll rest = .ok next := by
  cases first with
  | error error => simp [addAll]
  | ok layer =>
    rcases hadd : overlay.add layer with ⟨mid, _ | ⟨⟩⟩
    · simp [addAll, hadd]
    · simp [addAll, hadd]

/-- A run that goes through shows at every byte what the layers make of it. -/
theorem addAll_eq_ok {overlay next : Overlay} {layers : List Layer} (h : Proper overlay)
    (hrun : overlay.addAll (layers.map .ok) = .ok next) :
    Proper next ∧ ∀ byte,
      marksAt byte next = Layer.marksAfter byte (marksAt byte overlay) layers := by
  induction layers generalizing overlay with
  | nil =>
    cases hrun
    exact ⟨h, fun _ => rfl⟩
  | cons layer rest ih =>
    obtain ⟨_, mid, ⟨rfl⟩, hadd, hrest⟩ := addAll_cons_eq_ok.1 hrun
    obtain ⟨hmid, hmarks⟩ := add_eq_ok h hadd
    obtain ⟨hnext, hrun⟩ := ih hmid hrest
    refine ⟨hnext, fun byte => ?_⟩
    rw [hrun, hmarks]
    rfl

theorem addAll_succeeds {overlay : Overlay} {layers : List Layer} (h : Proper overlay)
    (hstart : ∀ layer ∈ layers, 0 ≤ layer.start) (htext : ∀ layer ∈ layers, layer.HasTexts) :
    ∃ next, overlay.addAll (layers.map .ok) = .ok next := by
  induction layers generalizing overlay with
  | nil => exact ⟨overlay, rfl⟩
  | cons layer rest ih =>
    obtain ⟨tag, feature, hmark⟩ := htext layer List.mem_cons_self
    have hok : (overlay.add layer).2 = .ok () :=
      add_succeeds h (hstart layer List.mem_cons_self) fun _ _ _ => ⟨⟨0, 0, tag, feature⟩, hmark.symm⟩
    have hadd : overlay.add layer = ((overlay.add layer).1, .ok ()) := Prod.ext rfl hok
    obtain ⟨next, hnext⟩ := ih (add_eq_ok h hadd).1
      (fun l hl => hstart l (List.mem_cons_of_mem _ hl))
      (fun l hl => htext l (List.mem_cons_of_mem _ hl))
    exact ⟨next, addAll_cons_eq_ok.2 ⟨layer, _, rfl, hadd, hnext⟩⟩

/-! ## Spans by position -/

theorem before_iff {x y : Span} :
    Span.before x y = true ↔ x.start < y.start ∨ x.start = y.start ∧ x.stop ≤ y.stop := by
  simp [Span.before]

theorem before_trans (x y z : Span) (hxy : Span.before x y) (hyz : Span.before y z) :
    Span.before x z := by
  rw [before_iff] at *
  omega

theorem before_total (x y : Span) : Span.before x y || Span.before y x := by
  rw [Bool.or_eq_true, before_iff, before_iff]
  omega

theorem spans_perm (overlay : Overlay) : overlay.spans.Perm overlay := List.mergeSort_perm _ _

theorem spans_ordered (overlay : Overlay) :
    overlay.spans.Pairwise fun x y => x.start < y.start ∨ x.start = y.start ∧ x.stop ≤ y.stop :=
  (List.pairwise_mergeSort before_trans before_total overlay).imp before_iff.1

/-- The spans of one stretch stand in layering order. -/
theorem filter_stretch_spans (overlay : Overlay) (stretch : Int × Int) :
    overlay.spans.filter (·.stretch == stretch) = overlay.filter (·.stretch == stretch) := by
  refine StableOrder.filter_mergeSort_of_tied before_trans before_total ?_ overlay
  intro x y hx hy
  have hxy : x.stretch = y.stretch := (beq_iff_eq.1 hx).trans (beq_iff_eq.1 hy).symm
  have hstart : x.start = y.start := congrArg Prod.fst hxy
  have hstop : x.stop = y.stop := congrArg Prod.snd hxy
  rw [before_iff]
  omega

theorem marksAt_spans (overlay : Overlay) (byte : Int) :
    (marksAt byte overlay.spans).Perm (marksAt byte overlay) := marksAt_perm overlay.spans_perm byte

/-- Layers that are laid over nothing all go down. At every byte the spans then show, in layering
order, what a run over the layers at this byte alone gives; no span is empty; and by position they
are the same spans, those of one stretch in layering order. -/
theorem layers_bytewise (layers : List Layer) (hstart : ∀ layer ∈ layers, 0 ≤ layer.start)
    (htext : ∀ layer ∈ layers, layer.HasTexts) :
    ∃ overlay, addAll [] (layers.map .ok) = .ok overlay ∧
      (∀ byte, marksAt byte overlay = Layer.marksAfter byte [] layers) ∧
      (∀ span ∈ overlay, span.start < span.stop) ∧
      overlay.spans.Perm overlay ∧
      (overlay.spans.Pairwise fun x y =>
        x.start < y.start ∨ x.start = y.start ∧ x.stop ≤ y.stop) ∧
      ∀ stretch, overlay.spans.filter (·.stretch == stretch) =
        overlay.filter (·.stretch == stretch) := by
  obtain ⟨overlay, hrun⟩ := addAll_succeeds proper_nil hstart htext
  obtain ⟨hproper, hmarks⟩ := addAll_eq_ok proper_nil hrun
  exact ⟨overlay, hrun, hmarks, hproper, overlay.spans_perm, overlay.spans_ordered,
    overlay.filter_stretch_spans⟩

/-- Layers of all modes that cut, fill and cover each other. -/
def crossingLayers : List Layer :=
  [⟨0, 4, .text "string", .text "strings", .append⟩, ⟨6, 9, .text "name", .text "names", .append⟩,
    ⟨2, 8, .text "rest", .text "rests", .keep⟩, ⟨3, 7, .text "error", .text "errors", .override⟩,
    ⟨1, 7, .text "word", .text "words", .append⟩]

theorem layers_bytewise_crossing :
    (∀ layer ∈ crossingLayers, 0 ≤ layer.start) ∧ (∀ layer ∈ crossingLayers, layer.HasTexts) ∧
      ∃ overlay, addAll [] (crossingLayers.map .ok) = .ok overlay ∧
        marksAt 2 overlay = [(.text "string", .text "strings"), (.text "word", .text "words")] ∧
        marksAt 5 overlay = [(.text "error", .text "errors"), (.text "word", .text "words")] ∧
        marksAt 7 overlay = [(.text "name", .text "names")] ∧ overlay.spans.Perm overlay := by
  have hstart : ∀ layer ∈ crossingLayers, 0 ≤ layer.start := by
    simp [crossingLayers]
  have htext : ∀ layer ∈ crossingLayers, layer.HasTexts := by
    simp [crossingLayers, Layer.HasTexts, Layer.mark]
  obtain ⟨overlay, hrun, hmarks, _, hperm, _⟩ := layers_bytewise crossingLayers hstart htext
  refine ⟨hstart, htext, overlay, hrun, ?_, ?_, ?_, hperm⟩
  · rw [hmarks]
    rfl
  · rw [hmarks]
    rfl
  · rw [hmarks]
    rfl

end Overlay

end TreeRules
