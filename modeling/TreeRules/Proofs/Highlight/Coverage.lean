import Mathlib.Tactic.Common
import TreeRules.Highlight.Overlay
import TreeRules.Proofs.StableOrder

/-! # What lies over a byte

An overlay is seen through its bytes: the marks at a byte are the tags and features of the spans
that cover it, in layering order. Cutting out a stretch empties its bytes and leaves the others as
they are. The gaps of a stretch cover each of its bare bytes once and no other byte. Laying down one
layer therefore does to the marks at each byte what its mode says, whatever the other bytes are.
-/
namespace TreeRules

/-- A tag with its feature. -/
abbrev Mark := Value × Value

namespace Span

def mark (span : Span) : Mark := (.text span.tag, .text span.feature)

def stretch (span : Span) : Int × Int := (span.start, span.stop)

theorem covers_iff {span : Span} {byte : Int} :
    span.covers byte = true ↔ span.start ≤ byte ∧ byte < span.stop := by
  simp [covers]

theorem make_eq_ok_iff {start stop : Int} {tag feature : Value} {span : Span} :
    make start stop tag feature = .ok span ↔
      0 ≤ start ∧ 0 ≤ stop ∧ span.stretch = (start, stop) ∧ span.mark = (tag, feature) := by
  simp only [make, ofValues, Checked.toOutcome_eq_ok_iff, Checked.apply_eq_ok_iff,
    Outcome.map_eq_ok, Field.int_atLeast_eq_ok_iff, Field.text_eq_ok_iff]
  constructor
  · rintro ⟨_, _, ⟨_, _, ⟨_, _, ⟨_, ⟨hs, rfl⟩, rfl⟩, ⟨he, rfl⟩, rfl⟩, rfl, rfl⟩, rfl, rfl⟩
    exact ⟨hs, he, rfl, rfl⟩
  · rintro ⟨hs, he, hstretch, hmark⟩
    cases hstretch
    cases hmark
    exact ⟨_, _, ⟨_, _, ⟨_, _, ⟨_, ⟨hs, rfl⟩, rfl⟩, ⟨he, rfl⟩, rfl⟩, rfl, rfl⟩, rfl, rfl⟩

end Span

namespace Overlay

/-- The marks of the spans that cover a byte, in their order. -/
def marksAt (byte : Int) (spans : List Span) : List Mark :=
  (spans.filter (·.covers byte)).map Span.mark

@[simp] theorem marksAt_nil (byte : Int) : marksAt byte [] = [] := rfl

@[simp] theorem marksAt_append (byte : Int) (xs ys : List Span) :
    marksAt byte (xs ++ ys) = marksAt byte xs ++ marksAt byte ys := by
  simp [marksAt]

theorem marksAt_cons (byte : Int) (span : Span) (spans : List Span) :
    marksAt byte (span :: spans) = (if span.covers byte then [span.mark] else []) ++
      marksAt byte spans := by
  by_cases h : span.covers byte <;> simp [marksAt, h]

theorem marksAt_eq_nil_iff {byte : Int} {spans : List Span} :
    marksAt byte spans = [] ↔ ∀ span ∈ spans, span.covers byte = false := by
  simp [marksAt, List.filter_eq_nil_iff]

theorem marksAt_perm {xs ys : List Span} (h : xs.Perm ys) (byte : Int) :
    (marksAt byte xs).Perm (marksAt byte ys) := (h.filter _).map _

/-- No span is empty. -/
def Proper (spans : List Span) : Prop := ∀ span ∈ spans, span.start < span.stop

theorem proper_nil : Proper [] := by simp [Proper]

theorem Proper.append {xs ys : List Span} (hx : Proper xs) (hy : Proper ys) :
    Proper (xs ++ ys) := by
  intro span hs
  rcases List.mem_append.1 hs with hs | hs
  · exact hx span hs
  · exact hy span hs

/-- Where the marks of proper spans are all inside a stretch, so are the spans. -/
theorem Proper.within {spans : List Span} (h : Proper spans) {start stop : Int}
    (hout : ∀ byte, ¬(start ≤ byte ∧ byte < stop) → marksAt byte spans = []) {span : Span}
    (hs : span ∈ spans) : start ≤ span.start ∧ span.stop ≤ stop := by
  have hlt := h span hs
  -- The first and the last byte of the span are covered, so neither is outside.
  have inside : ∀ byte, span.start ≤ byte → byte < span.stop → start ≤ byte ∧ byte < stop := by
    intro byte h1 h2
    by_contra hn
    have hbare := marksAt_eq_nil_iff.1 (hout byte hn) span hs
    rw [Span.covers_iff.2 ⟨h1, h2⟩] at hbare
    cases hbare
  have hfirst := inside span.start (by omega) hlt
  have hlast := inside (span.stop - 1) (by omega) (by omega)
  omega

/-! ## Cutting -/

/-- What is left of a span covers its bytes outside the stretch. -/
theorem marksAt_outside {start stop : Int} (h : start < stop) (span : Span) (byte : Int) :
    marksAt byte (outside start stop span) =
      if start ≤ byte ∧ byte < stop then [] else marksAt byte [span] := by
  simp only [marksAt_cons, marksAt_nil, List.append_nil, Span.covers_iff]
  unfold outside
  split_ifs <;> simp [marksAt, Span.covers, Span.mark] <;> grind

theorem marksAt_cut {start stop : Int} (h : start < stop) (overlay : Overlay) (byte : Int) :
    marksAt byte (overlay.cut start stop) =
      if start ≤ byte ∧ byte < stop then [] else marksAt byte overlay := by
  induction overlay with
  | nil => simp [cut]
  | cons span rest ih =>
    have hcut : cut (span :: rest) start stop = outside start stop span ++ cut rest start stop :=
      List.flatMap_cons
    rw [hcut, marksAt_append, ih, marksAt_outside h]
    split
    · rfl
    · rw [← marksAt_append]
      rfl

theorem Proper.cut {overlay : Overlay} (h : Proper overlay) (start stop : Int) :
    Proper (overlay.cut start stop) := by
  intro span hs
  obtain ⟨source, hm, hs⟩ := List.mem_flatMap.1 hs
  have hsource := h source hm
  unfold outside at hs
  split_ifs at hs <;> simp at hs <;> grind

/-! ## Gaps -/

def inStretch (byte : Int) (stretch : Int × Int) : Bool :=
  stretch.1 ≤ byte && byte < stretch.2

theorem inStretch_iff {byte : Int} {stretch : Int × Int} :
    inStretch byte stretch = true ↔ stretch.1 ≤ byte ∧ byte < stretch.2 := by
  simp [inStretch]

/-- Covered stretches as the sweep needs them: by their starts, none empty, none beyond the end. -/
structure Sweepable (stop : Int) (covered : List (Int × Int)) : Prop where
  ordered : covered.Pairwise fun x y => x.1 ≤ y.1
  bounds : ∀ stretch ∈ covered, stretch.1 < stretch.2 ∧ stretch.2 ≤ stop

theorem Sweepable.tail {stop : Int} {head : Int × Int} {rest : List (Int × Int)}
    (h : Sweepable stop (head :: rest)) : Sweepable stop rest :=
  ⟨(List.pairwise_cons.1 h.ordered).2, fun s hs => h.bounds s (List.mem_cons_of_mem _ hs)⟩

/-- The stretch in front of the next covered one holds each byte up to there. -/
theorem countP_gapBefore (position first byte : Int) :
    (if position < first then [(position, first)] else []).countP (inStretch byte) =
      if position ≤ byte ∧ byte < first then 1 else 0 := by
  by_cases h : position < first
  · simp [h, List.countP_cons, inStretch]
  · have hempty : ¬(position ≤ byte ∧ byte < first) := by omega
    simp [h, hempty]

/-- From its position on, the sweep finds each byte once that no stretch covers. -/
theorem countP_sweep {stop : Int} {covered : List (Int × Int)} (h : Sweepable stop covered)
    (position byte : Int) :
    (sweep stop position covered).countP (inStretch byte) =
      if position ≤ byte ∧ byte < stop ∧ ∀ s ∈ covered, inStretch byte s = false then 1 else 0 := by
  induction covered generalizing position with
  | nil => simpa [sweep] using countP_gapBefore position stop byte
  | cons head rest ih =>
    obtain ⟨first, last⟩ := head
    obtain ⟨hlt, hle⟩ := h.bounds (first, last) List.mem_cons_self
    dsimp only at hlt hle
    simp only [sweep, List.countP_append, ih h.tail, countP_gapBefore, List.forall_mem_cons]
    by_cases hb : byte < first
    · -- No stretch reaches back to the byte, and the sweep is past it.
      have hbare : inStretch byte (first, last) = false ∧ ∀ s ∈ rest, inStretch byte s = false := by
        constructor
        · simp [inStretch]
          omega
        · intro s hs
          have hs := (List.pairwise_cons.1 h.ordered).1 s hs
          simp [inStretch]
          omega
      have hpast : ¬(max position last ≤ byte ∧ byte < stop ∧
          ∀ s ∈ rest, inStretch byte s = false) := by omega
      rw [if_neg hpast, Nat.add_zero]
      refine if_congr ?_ rfl rfl
      constructor
      · intro hp
        exact ⟨hp.1, by omega, hbare⟩
      · intro hp
        exact ⟨hp.1, hb⟩
    · have hcover : inStretch byte (first, last) = false ↔ last ≤ byte := by
        simp [inStretch]
        omega
      rw [if_neg fun hp => hb hp.2, Nat.zero_add]
      refine if_congr ?_ rfl rfl
      rw [hcover]
      constructor
      · rintro ⟨hp, hs, hc⟩
        exact ⟨by omega, hs, by omega, hc⟩
      · rintro ⟨hp, hs, hl, hc⟩
        exact ⟨by omega, hs, hc⟩

theorem stretchBefore_trans (x y z : Int × Int) (hxy : stretchBefore x y) (hyz : stretchBefore y z) :
    stretchBefore x z := by
  simp only [stretchBefore, Bool.or_eq_true, Bool.and_eq_true, decide_eq_true_eq, beq_iff_eq] at *
  omega

theorem stretchBefore_total (x y : Int × Int) : stretchBefore x y || stretchBefore y x := by
  simp only [stretchBefore, Bool.or_eq_true, Bool.and_eq_true, decide_eq_true_eq, beq_iff_eq]
  omega

theorem mem_covered {overlay : Overlay} {start stop : Int} {stretch : Int × Int} :
    stretch ∈ overlay.covered start stop ↔ ∃ span ∈ overlay, (span.start < stop ∧ start < span.stop) ∧
      (max span.start start, min span.stop stop) = stretch := by
  simp [covered, and_assoc]

theorem Proper.sweepable {overlay : Overlay} (h : Proper overlay) {start stop : Int}
    (hlt : start < stop) : Sweepable stop (overlay.covered start stop) := by
  constructor
  · refine (List.pairwise_mergeSort stretchBefore_trans stretchBefore_total _).imp ?_
    intro x y hxy
    simp only [stretchBefore, Bool.or_eq_true, Bool.and_eq_true, decide_eq_true_eq,
      beq_iff_eq] at hxy
    omega
  · intro stretch hs
    obtain ⟨span, hm, _, rfl⟩ := mem_covered.1 hs
    have hspan := h span hm
    dsimp only
    omega

/-- The covered stretches and the spans cover the same bytes of a stretch. -/
theorem covered_bare_iff {overlay : Overlay} {start stop byte : Int}
    (h : start ≤ byte ∧ byte < stop) :
    (∀ s ∈ overlay.covered start stop, inStretch byte s = false) ↔ marksAt byte overlay = [] := by
  have same : ∀ span : Span, inStretch byte (max span.start start, min span.stop stop) =
      span.covers byte := by
    intro span
    rw [Bool.eq_iff_iff, inStretch_iff, Span.covers_iff]
    dsimp only
    omega
  rw [marksAt_eq_nil_iff]
  constructor
  · intro hc span hm
    by_contra hcover
    have hin := Span.covers_iff.1 (Bool.not_eq_false _ ▸ hcover)
    have hbare := hc _ (mem_covered.2 ⟨span, hm, by omega, rfl⟩)
    rw [same] at hbare
    exact hcover hbare
  · intro hc stretch hs
    obtain ⟨span, hm, _, rfl⟩ := mem_covered.1 hs
    rw [same]
    exact hc span hm

/-- The gaps of a stretch cover each of its bare bytes once, and no other byte. -/
theorem countP_gaps {overlay : Overlay} (h : Proper overlay) {start stop : Int}
    (hlt : start < stop) (byte : Int) :
    (overlay.gaps start stop).countP (inStretch byte) =
      if (start ≤ byte ∧ byte < stop) ∧ marksAt byte overlay = [] then 1 else 0 := by
  rw [gaps, countP_sweep (h.sweepable hlt)]
  refine if_congr ?_ rfl rfl
  rw [← and_assoc]
  exact and_congr_right fun hb => covered_bare_iff hb

theorem sweep_bounds {stop : Int} {covered : List (Int × Int)} (h : Sweepable stop covered)
    {position : Int} {gap : Int × Int} (hg : gap ∈ sweep stop position covered) :
    position ≤ gap.1 ∧ gap.1 < gap.2 ∧ gap.2 ≤ stop := by
  induction covered generalizing position with
  | nil =>
    simp only [sweep] at hg
    split at hg <;> simp at hg
    subst hg
    dsimp only
    omega
  | cons head rest ih =>
    obtain ⟨hlt, hle⟩ := h.bounds head List.mem_cons_self
    rcases List.mem_append.1 hg with hg | hg
    · split at hg <;> simp at hg
      subst hg
      dsimp only
      omega
    · have hrest := ih h.tail hg
      omega

theorem gaps_bounds {overlay : Overlay} (h : Proper overlay) {start stop : Int}
    (hlt : start < stop) {gap : Int × Int} (hg : gap ∈ overlay.gaps start stop) :
    start ≤ gap.1 ∧ gap.1 < gap.2 ∧ gap.2 ≤ stop :=
  sweep_bounds (h.sweepable hlt) hg

/-! ## Laying down -/

/-- Filling that goes through appends one span for each stretch, all with the same mark. -/
theorem fill_eq_ok {tag feature : Value} {stretches : List (Int × Int)} {overlay next : Overlay}
    (h : fill tag feature stretches overlay = (next, .ok ())) :
    ∃ laid : List Span, next = overlay ++ laid ∧ laid.map Span.stretch = stretches ∧
      ∀ span ∈ laid, span.mark = (tag, feature) := by
  induction stretches generalizing overlay with
  | nil =>
    cases h
    exact ⟨[], by simp⟩
  | cons stretch rest ih =>
    obtain ⟨start, stop⟩ := stretch
    simp only [fill] at h
    split at h
    next span hmake =>
      obtain ⟨_, _, hstretch, hmark⟩ := Span.make_eq_ok_iff.1 hmake
      obtain ⟨laid, rfl, rfl, hlaid⟩ := ih h
      refine ⟨span :: laid, by simp, by simp [hstretch], ?_⟩
      exact List.forall_mem_cons.2 ⟨hmark, hlaid⟩
    next => cases h

/-- Filling goes through on stretches that are not negative, if the mark is made of texts or there
is nothing to fill. -/
theorem fill_succeeds {tag feature : Value} {stretches : List (Int × Int)}
    (hs : ∀ s ∈ stretches, 0 ≤ s.1 ∧ 0 ≤ s.2)
    (ht : stretches ≠ [] → ∃ span : Span, span.mark = (tag, feature)) (overlay : Overlay) :
    (fill tag feature stretches overlay).2 = .ok () := by
  induction stretches generalizing overlay with
  | nil => rfl
  | cons stretch rest ih =>
    obtain ⟨start, stop⟩ := stretch
    obtain ⟨⟨h1, h2⟩, hrest⟩ := List.forall_mem_cons.1 hs
    obtain ⟨span, hmark⟩ := ht (by simp)
    have hmake : Span.make start stop tag feature = .ok { span with start, stop } :=
      Span.make_eq_ok_iff.2 ⟨h1, h2, rfl, hmark⟩
    simp only [fill, hmake]
    exact ih hrest (fun _ => ⟨span, hmark⟩) _

theorem marksAt_of_mark {spans : List Span} {mark : Mark} (h : ∀ span ∈ spans, span.mark = mark)
    (byte : Int) :
    marksAt byte spans = List.replicate ((spans.map Span.stretch).countP (inStretch byte)) mark := by
  refine List.eq_replicate_iff.2 ⟨?_, ?_⟩
  · rw [marksAt, List.length_map, ← List.countP_eq_length_filter, List.countP_map]
    rfl
  · intro other ho
    obtain ⟨span, hs, rfl⟩ := List.mem_map.1 ho
    exact h span (List.mem_filter.1 hs).1

/-- Filling puts the mark on top of the others, once for each stretch that holds the byte. -/
theorem marksAt_fill {tag feature : Value} {stretches : List (Int × Int)} {overlay next : Overlay}
    (hp : Proper overlay) (hs : ∀ s ∈ stretches, s.1 < s.2)
    (h : fill tag feature stretches overlay = (next, .ok ())) :
    Proper next ∧ ∀ byte, marksAt byte next = marksAt byte overlay ++
      List.replicate (stretches.countP (inStretch byte)) (tag, feature) := by
  obtain ⟨laid, rfl, rfl, hmark⟩ := fill_eq_ok h
  refine ⟨hp.append ?_, fun byte => ?_⟩
  · intro span hm
    exact hs span.stretch (List.mem_map_of_mem hm)
  · rw [marksAt_append, marksAt_of_mark hmark]

end Overlay

namespace Layer

variable (layer : Layer)

def mark : Mark := (layer.tag, layer.feature)

def covers (byte : Int) : Bool := layer.start ≤ byte && byte < layer.stop

/-- What laying down a layer does to the marks at a byte. -/
def markAt (byte : Int) (marks : List Mark) : List Mark :=
  if layer.covers byte then
    match layer.mode with
    | .append => marks ++ [layer.mark]
    | .override => [layer.mark]
    | .keep => if marks.isEmpty then [layer.mark] else marks
  else marks

theorem covers_iff {layer : Layer} {byte : Int} :
    layer.covers byte = true ↔ layer.start ≤ byte ∧ byte < layer.stop := by
  simp [covers]

theorem countP_stretch (byte : Int) :
    [(layer.start, layer.stop)].countP (Overlay.inStretch byte) =
      if layer.covers byte then 1 else 0 := by
  simp [List.countP_cons, Overlay.inStretch, covers]

end Layer

namespace Overlay

/-- A layer that goes down changes the marks at every byte as its mode says, and leaves no empty
span. -/
theorem add_eq_ok {overlay next : Overlay} {layer : Layer} (h : Proper overlay)
    (hadd : overlay.add layer = (next, .ok ())) :
    Proper next ∧ ∀ byte, marksAt byte next = layer.markAt byte (marksAt byte overlay) := by
  simp only [add] at hadd
  split at hadd
  next hempty =>
    cases hadd
    refine ⟨h, fun byte => ?_⟩
    have hbare : layer.covers byte = false := by
      rw [← Bool.not_eq_true, Layer.covers_iff]
      omega
    simp [Layer.markAt, hbare]
  next hlt =>
    have hlt : layer.start < layer.stop := by omega
    have hstretch : ∀ s ∈ [(layer.start, layer.stop)], s.1 < s.2 := by simpa using hlt
    cases hmode : layer.mode with
    | append =>
      simp only [hmode] at hadd
      obtain ⟨hnext, hmarks⟩ := marksAt_fill h hstretch hadd
      refine ⟨hnext, fun byte => ?_⟩
      rw [hmarks, layer.countP_stretch]
      by_cases hc : layer.covers byte <;> simp [Layer.markAt, Layer.mark, hmode, hc]
    | override =>
      simp only [hmode] at hadd
      obtain ⟨hnext, hmarks⟩ := marksAt_fill (h.cut _ _) hstretch hadd
      refine ⟨hnext, fun byte => ?_⟩
      rw [hmarks, layer.countP_stretch, marksAt_cut hlt]
      simp only [← Layer.covers_iff]
      by_cases hc : layer.covers byte <;> simp [Layer.markAt, Layer.mark, hmode, hc]
    | keep =>
      simp only [hmode] at hadd
      obtain ⟨hnext, hmarks⟩ := marksAt_fill h (fun gap hg => (gaps_bounds h hlt hg).2.1) hadd
      refine ⟨hnext, fun byte => ?_⟩
      rw [hmarks, countP_gaps h hlt]
      simp only [← Layer.covers_iff]
      by_cases hc : layer.covers byte <;> by_cases hbare : marksAt byte overlay = [] <;>
        simp [Layer.markAt, Layer.mark, hmode, hc, hbare]

/-- A layer that does not start below zero goes down, unless it would put a mark that is not made of
texts over some byte. -/
theorem add_succeeds {overlay : Overlay} {layer : Layer} (h : Proper overlay)
    (hstart : 0 ≤ layer.start)
    (htext : ∀ byte, layer.covers byte → (layer.mode = .keep → marksAt byte overlay = []) →
      ∃ span : Span, span.mark = layer.mark) :
    (overlay.add layer).2 = .ok () := by
  simp only [add]
  split
  next => rfl
  next hlt =>
    have hlt : layer.start < layer.stop := by omega
    have hstretch : ∀ s ∈ [(layer.start, layer.stop)], 0 ≤ s.1 ∧ 0 ≤ s.2 := by
      simp only [List.mem_singleton, forall_eq]
      omega
    have hfirst : layer.covers layer.start := Layer.covers_iff.2 ⟨by omega, hlt⟩
    cases hmode : layer.mode with
    | append => exact fill_succeeds hstretch (fun _ => htext _ hfirst (by simp [hmode])) _
    | override => exact fill_succeeds hstretch (fun _ => htext _ hfirst (by simp [hmode])) _
    | keep =>
      refine fill_succeeds ?_ ?_ _
      · intro gap hg
        have hb := gaps_bounds h hlt hg
        omega
      · -- The first byte of a gap is bare.
        intro hne
        obtain ⟨gap, hg⟩ := List.exists_mem_of_ne_nil _ hne
        have hb := gaps_bounds h hlt hg
        have hin : inStretch gap.1 gap := inStretch_iff.2 ⟨by omega, hb.2.1⟩
        have hcount := countP_gaps h hlt gap.1
        have hpos := List.countP_pos_iff.2 ⟨gap, hg, hin⟩
        rw [hcount] at hpos
        split at hpos
        next hbare => exact htext gap.1 (Layer.covers_iff.2 hbare.1) fun _ => hbare.2
        next => cases hpos

/-- A layer that went down and put its mark over some byte has a mark made of texts. -/
theorem mark_of_add {overlay next : Overlay} {layer : Layer} (h : Proper overlay)
    (hadd : overlay.add layer = (next, .ok ())) {byte : Int} (hc : layer.covers byte)
    (hbare : layer.mode = .keep → marksAt byte overlay = []) :
    ∃ span : Span, span.mark = layer.mark := by
  have hmarks := (add_eq_ok h hadd).2 byte
  have hmem : layer.mark ∈ marksAt byte next := by
    rw [hmarks, Layer.markAt, if_pos hc]
    cases hmode : layer.mode with
    | append => simp
    | override => simp
    | keep => simp [hbare hmode]
  obtain ⟨span, _, hs⟩ := List.mem_map.1 hmem
  exact ⟨span, hs⟩

end Overlay

end TreeRules
