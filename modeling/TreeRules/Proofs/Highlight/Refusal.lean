import Mathlib.Tactic.Common
import TreeRules.Proofs.Highlight.Provenance

/-! # Layers that are refused

A layer is refused if it would mark a byte below zero, or mark any byte with something that is not
made of texts. The overlay is then as it was before, because the first span of a layer that can be
made is followed by others that can be made as well. A layer that overrides is the exception: it has
cut out its stretch before its span is refused, so all marks of the stretch are gone.
-/
namespace TreeRules

namespace Overlay

variable {overlay : Overlay} {layer : Layer} {error : Error} {tag feature : Value}

/-- What is there after layers have been laid down, with those that were refused on the way. -/
def after (layers : List Layer) : Overlay :=
  layers.foldl (fun overlay layer => (overlay.add layer).1) []

/-! ## Gaps in order -/

/-- Between one gap and the next there is a covered stretch. -/
theorem sweep_apart {stop : Int} {covered : List (Int × Int)} (h : Sweepable stop covered)
    (position : Int) : (sweep stop position covered).Pairwise fun x y => x.2 < y.1 := by
  induction covered generalizing position with
  | nil =>
    simp only [sweep]
    split
    · exact List.pairwise_singleton _ _
    · exact .nil
  | cons head rest ih =>
    obtain ⟨hlt, hle⟩ := h.bounds head List.mem_cons_self
    refine List.pairwise_append.2 ⟨?_, ih h.tail _, ?_⟩
    · split
      · exact List.pairwise_singleton _ _
      · exact .nil
    · intro gap hgap later hlater
      have hbounds := sweep_bounds h.tail hlater
      split at hgap
      · cases List.mem_singleton.1 hgap
        dsimp only
        omega
      · cases hgap

theorem gaps_apart (h : Proper overlay) {start stop : Int} (hlt : start < stop) :
    (overlay.gaps start stop).Pairwise fun x y => x.2 < y.1 :=
  sweep_apart (h.sweepable hlt) start

/-! ## What a refused layer leaves behind -/

/-- Stretches are filled from left to right; if the first of them can be filled, so can all. -/
theorem fill_refused {stretches : List (Int × Int)}
    (hbounds : ∀ stretch ∈ stretches, stretch.1 < stretch.2)
    (hapart : stretches.Pairwise fun x y => x.2 < y.1)
    (h : (fill tag feature stretches overlay).2 = .error error) :
    (fill tag feature stretches overlay).1 = overlay := by
  cases stretches with
  | nil => rfl
  | cons first rest =>
    obtain ⟨hfirst, hrest⟩ := List.forall_mem_cons.1 hbounds
    rw [fill] at h ⊢
    cases hmake : Span.make first.1 first.2 tag feature with
    | error _ => rfl
    | ok span =>
      obtain ⟨hstart, -, -, hmark⟩ := Span.make_eq_ok_iff.1 hmake
      have hlater : ∀ stretch ∈ rest, 0 ≤ stretch.1 ∧ 0 ≤ stretch.2 := by
        intro stretch hstretch
        have hlt := (List.pairwise_cons.1 hapart).1 stretch hstretch
        have hne := hrest stretch hstretch
        omega
      have hok := fill_succeeds hlater (fun _ => ⟨span, hmark⟩) (overlay ++ [span])
      rw [hmake] at h
      cases hok.symm.trans h

theorem add_refused_eq (h : Proper overlay) (hrefused : (overlay.add layer).2 = .error error) :
    (overlay.add layer).1 =
      if layer.mode = .override then overlay.cut layer.start layer.stop else overlay := by
  simp only [add] at hrefused ⊢
  split at hrefused
  next => cases hrefused
  next hlt =>
    rw [if_neg hlt]
    have hlt : layer.start < layer.stop := by omega
    have hstretch : ∀ stretch ∈ [(layer.start, layer.stop)], stretch.1 < stretch.2 := by
      simpa using hlt
    cases hmode : layer.mode with
    | append =>
      simp only [hmode] at hrefused
      exact fill_refused hstretch (List.pairwise_singleton _ _) hrefused
    | override =>
      simp only [hmode] at hrefused
      exact fill_refused hstretch (List.pairwise_singleton _ _) hrefused
    | keep =>
      simp only [hmode] at hrefused
      exact fill_refused (fun gap hgap => (gaps_bounds h hlt hgap).2.1) (gaps_apart h hlt) hrefused

/-! ## Overlays that can be reached -/

/-- Every span has bytes, and none of them is below zero. -/
def Settled (overlay : Overlay) : Prop := ∀ span ∈ overlay, 0 ≤ span.start ∧ span.start < span.stop

theorem Settled.proper (h : Settled overlay) : Proper overlay := fun span hspan => (h span hspan).2

theorem Settled.cut (h : Settled overlay) (start stop : Int) :
    Settled (overlay.cut start stop) := by
  intro piece hpiece
  refine ⟨?_, h.proper.cut start stop piece hpiece⟩
  obtain ⟨span, hspan, hpiece⟩ := List.mem_flatMap.1 hpiece
  exact (h span hspan).1.trans (mem_outside hpiece).2.1

theorem Settled.fill (h : Settled overlay) {stretches : List (Int × Int)}
    (hbounds : ∀ stretch ∈ stretches, stretch.1 < stretch.2) :
    Settled (fill tag feature stretches overlay).1 := by
  induction stretches generalizing overlay with
  | nil => exact h
  | cons first rest ih =>
    obtain ⟨hfirst, hrest⟩ := List.forall_mem_cons.1 hbounds
    obtain ⟨start, stop⟩ := first
    rw [Overlay.fill]
    cases hmake : Span.make start stop tag feature with
    | error _ => exact h
    | ok span =>
      obtain ⟨hstart, -, hstretch, -⟩ := Span.make_eq_ok_iff.1 hmake
      cases hstretch
      refine ih ?_ hrest
      intro other hother
      rcases List.mem_append.1 hother with hold | hnew
      · exact h other hold
      · cases List.mem_singleton.1 hnew
        exact ⟨hstart, hfirst⟩

/-- A layer leaves a settled overlay, whether it goes down or is refused. -/
theorem Settled.add (h : Settled overlay) (layer : Layer) : Settled (overlay.add layer).1 := by
  simp only [Overlay.add]
  split
  next => exact h
  next hlt =>
    have hlt : layer.start < layer.stop := by omega
    have hstretch : ∀ stretch ∈ [(layer.start, layer.stop)], stretch.1 < stretch.2 := by
      simpa using hlt
    cases layer.mode with
    | append => exact h.fill hstretch
    | override => exact (h.cut layer.start layer.stop).fill hstretch
    | keep => exact h.fill fun gap hgap => (gaps_bounds h.proper hlt hgap).2.1

theorem settled_nil : Settled [] := by simp [Settled]

theorem settled_foldl (h : Settled overlay) (layers : List Layer) :
    Settled (layers.foldl (fun overlay layer => (overlay.add layer).1) overlay) := by
  induction layers generalizing overlay with
  | nil => exact h
  | cons layer rest ih => exact ih (h.add layer)

theorem settled_after (layers : List Layer) : Settled (after layers) :=
  settled_foldl settled_nil layers

/-! ## Which layers are refused -/

theorem Settled.marksAt_below (h : Settled overlay) {byte : Int} (hbyte : byte < 0) :
    marksAt byte overlay = [] := by
  refine marksAt_eq_nil_iff.2 fun span hspan => ?_
  rw [← Bool.not_eq_true, Span.covers_iff]
  have hstart := (h span hspan).1
  omega

end Overlay

namespace Layer
open Overlay

/-- A layer would mark a byte that is below zero, or mark some byte with what is not made of
texts. -/
def Misfits (layer : Layer) (overlay : Overlay) : Prop :=
  ∃ byte, layer.covers byte ∧ (layer.mode = .keep → marksAt byte overlay = []) ∧
    (byte < 0 ∨ ¬layer.HasTexts)

/-- A layer cuts away nothing of an overlay. -/
def Spares (layer : Layer) (overlay : Overlay) : Prop :=
  layer.mode = .override → ∀ span ∈ overlay, span.stop ≤ layer.start ∨ layer.stop ≤ span.start

theorem hasTexts_iff {layer : Layer} : layer.HasTexts ↔ ∃ span : Span, span.mark = layer.mark := by
  constructor
  · rintro ⟨tag, feature, hmark⟩
    exact ⟨⟨0, 0, tag, feature⟩, hmark.symm⟩
  · rintro ⟨span, hmark⟩
    exact ⟨span.tag, span.feature, hmark.symm⟩

end Layer

namespace Overlay

variable {overlay : Overlay} {layer : Layer} {error : Error}

theorem misfits_of_refused (h : Settled overlay) (hrefused : (overlay.add layer).2 = .error error) :
    layer.Misfits overlay := by
  by_contra hfits
  have hok : (overlay.add layer).2 = .ok () := by
    by_cases hempty : layer.stop ≤ layer.start
    · simp [add, hempty]
    · have hfirst : layer.covers layer.start := Layer.covers_iff.2 (by omega)
      have hstart : 0 ≤ layer.start := by
        by_contra hbelow
        have hbelow : layer.start < 0 := by omega
        exact hfits ⟨layer.start, hfirst, fun _ => h.marksAt_below hbelow, .inl hbelow⟩
      refine add_succeeds h.proper hstart fun byte hcovers hbare => Layer.hasTexts_iff.1 ?_
      by_contra htexts
      exact hfits ⟨byte, hcovers, hbare, .inr htexts⟩
  cases hok.symm.trans hrefused

theorem refused_of_misfits (h : Settled overlay) (hmisfits : layer.Misfits overlay) :
    ∃ error, (overlay.add layer).2 = .error error := by
  obtain ⟨byte, hcovers, hbare, hbad⟩ := hmisfits
  cases hadd : (overlay.add layer).2 with
  | error error => exact ⟨error, rfl⟩
  | ok _ =>
    have hadd : overlay.add layer = ((overlay.add layer).1, .ok ()) := Prod.ext rfl hadd
    have htexts := Layer.hasTexts_iff.2 (mark_of_add h.proper hadd hcovers hbare)
    have hbelow : byte < 0 := hbad.resolve_right fun hno => hno htexts
    -- The mark went down at a byte where no span can be.
    have hmarks := (add_eq_ok h.proper hadd).2 byte
    rw [(h.add layer).marksAt_below hbelow, h.marksAt_below hbelow, Layer.markAt,
      if_pos hcovers] at hmarks
    cases hmode : layer.mode <;> simp [hmode] at hmarks

/-! ## What is left -/

theorem cut_eq_self {start stop : Int}
    (h : ∀ span ∈ overlay, span.stop ≤ start ∨ stop ≤ span.start) :
    overlay.cut start stop = overlay := by
  have hwhole : ∀ span ∈ overlay, outside start stop span = [span] := fun span hspan =>
    if_pos (h span hspan)
  rw [cut, List.flatMap_congr hwhole, List.flatMap_singleton']

theorem start_lt_of_refused (h : (overlay.add layer).2 = .error error) :
    layer.start < layer.stop := by
  by_contra hempty
  have hempty : layer.stop ≤ layer.start := by omega
  simp [add, hempty] at h

theorem marksAt_refused (h : Proper overlay) (hrefused : (overlay.add layer).2 = .error error)
    (byte : Int) : marksAt byte (overlay.add layer).1 =
      if layer.mode = .override ∧ layer.covers byte then [] else marksAt byte overlay := by
  rw [add_refused_eq h hrefused]
  by_cases hmode : layer.mode = .override
  · have hlt := start_lt_of_refused hrefused
    simp only [hmode, if_true, true_and, marksAt_cut hlt, Layer.covers_iff]
  · simp [hmode]

theorem spares_of_spans (h : Proper overlay) (hrefused : (overlay.add layer).2 = .error error)
    (hspans : (overlay.add layer).1.spans = overlay.spans) : layer.Spares overlay := by
  intro hmode span hspan
  by_contra hcrossing
  have hproper := h span hspan
  have hlt := start_lt_of_refused hrefused
  -- The first byte that the span and the layer have in common has lost its marks.
  have hcovers : layer.covers (max span.start layer.start) := Layer.covers_iff.2 (by omega)
  have hgone := marksAt_refused h hrefused (max span.start layer.start)
  rw [if_pos ⟨hmode, hcovers⟩] at hgone
  have hsame := (marksAt_spans (overlay.add layer).1 (max span.start layer.start)).symm.trans
    (hspans ▸ marksAt_spans overlay (max span.start layer.start))
  rw [hgone] at hsame
  have hbare := marksAt_eq_nil_iff.1 hsame.nil_eq.symm span hspan
  have hcover : span.covers (max span.start layer.start) = true := Span.covers_iff.2 (by omega)
  cases hbare.symm.trans hcover

/-- A layer is refused just if it does not fit. After that the marks of its stretch are gone if it
overrides, and all other marks are there; the overlay is as it was before just if there was nothing
to cut away, and so are its spans. -/
theorem add_refused (layers : List Layer) (layer : Layer) :
    ((∃ error, ((after layers).add layer).2 = .error error) ↔ layer.Misfits (after layers)) ∧
    ∀ error, ((after layers).add layer).2 = .error error →
      (∀ byte, marksAt byte ((after layers).add layer).1 =
        if layer.mode = .override ∧ layer.covers byte then [] else marksAt byte (after layers)) ∧
      (((after layers).add layer).1 = after layers ↔ layer.Spares (after layers)) ∧
      (((after layers).add layer).1.spans = (after layers).spans ↔ layer.Spares (after layers)) := by
  have hsettled := settled_after layers
  refine ⟨⟨?_, refused_of_misfits hsettled⟩, ?_⟩
  · rintro ⟨error, hrefused⟩
    exact misfits_of_refused hsettled hrefused
  · intro error hrefused
    have hspares : layer.Spares (after layers) → ((after layers).add layer).1 = after layers := by
      intro hspares
      rw [add_refused_eq hsettled.proper hrefused]
      split
      next hmode => exact cut_eq_self (hspares hmode)
      next => rfl
    have hspans : ((after layers).add layer).1.spans = (after layers).spans →
        layer.Spares (after layers) := spares_of_spans hsettled.proper hrefused
    exact ⟨marksAt_refused hsettled.proper hrefused,
      ⟨fun hsame => hspans (congrArg spans hsame), hspares⟩,
      ⟨hspans, fun hspare => congrArg spans (hspares hspare)⟩⟩

/-! ### A layer that starts below zero -/

/-- Ten bytes of a string. -/
def stringLayer : Layer := ⟨0, 10, .text "string", .text "strings", .append⟩

/-- A layer over the first half of the string that starts one byte too early. -/
def earlyLayer (mode : Layering) : Layer := ⟨-1, 5, .text "error", .text "errors", mode⟩

theorem add_refused_early :
    (earlyLayer .keep).Misfits (after [stringLayer]) ∧
      (∃ error, ((after [stringLayer]).add (earlyLayer .keep)).2 = .error error) ∧
      ((after [stringLayer]).add (earlyLayer .keep)).1.spans = (after [stringLayer]).spans := by
  have hmisfits : (earlyLayer .keep).Misfits (after [stringLayer]) :=
    ⟨-1, by decide, fun _ => rfl, .inl (by decide)⟩
  obtain ⟨hrefused, hleft⟩ := add_refused [stringLayer] (earlyLayer .keep)
  obtain ⟨error, herror⟩ := hrefused.2 hmisfits
  exact ⟨hmisfits, ⟨error, herror⟩, (hleft error herror).2.2.2 nofun⟩

/-- The first half of the string is gone although nothing was laid over it. -/
theorem add_cut_refused :
    ((after [stringLayer]).add (earlyLayer .override)).2 =
        .error (.fields [⟨"start_byte", .tooSmall⟩]) ∧
      (after [stringLayer]).spans = [⟨0, 10, "string", "strings"⟩] ∧
      ((after [stringLayer]).add (earlyLayer .override)).1.spans =
        [⟨5, 10, "string", "strings"⟩] := by
  refine ⟨rfl, ?_, ?_⟩
  · cbv
  · cbv

end Overlay

end TreeRules
