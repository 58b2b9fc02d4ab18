import Mathlib.Data.List.Pairwise
import TreeRules.Proofs.Highlight.Refusal

/-! # Gaps of an overlay

The gaps between two bytes are the longest stretches that no span touches. They come from left to
right, with some covered byte between one and the next. A layer that keeps what is there fills all
gaps of its stretch or none of them; so laying it down a second time changes nothing.
-/
namespace TreeRules.Overlay

variable {overlay : Overlay} {start stop byte : Int} {gap other : Int × Int}

/-- Some span lies over a byte. -/
def Covers (overlay : Overlay) (byte : Int) : Prop := ∃ span ∈ overlay, span.covers byte = true

instance (overlay : Overlay) (byte : Int) : Decidable (overlay.Covers byte) :=
  inferInstanceAs (Decidable (∃ span ∈ overlay, span.covers byte = true))

/-- A stretch of bytes between two bytes over which no span lies, and which cannot be made longer on
either side. -/
structure IsGap (overlay : Overlay) (start stop : Int) (gap : Int × Int) : Prop where
  within : start ≤ gap.1 ∧ gap.1 < gap.2 ∧ gap.2 ≤ stop
  bare : ∀ byte, gap.1 ≤ byte → byte < gap.2 → ¬overlay.Covers byte
  left : gap.1 = start ∨ overlay.Covers (gap.1 - 1)
  right : gap.2 = stop ∨ overlay.Covers gap.2

theorem marksAt_eq_nil_iff_not_covers : marksAt byte overlay = [] ↔ ¬overlay.Covers byte := by
  simp [marksAt_eq_nil_iff, Covers]

/-! ## Bytes in gaps -/

theorem exists_mem_gaps_iff (h : Proper overlay) (hlt : start < stop) :
    (∃ gap ∈ overlay.gaps start stop, gap.1 ≤ byte ∧ byte < gap.2) ↔
      (start ≤ byte ∧ byte < stop) ∧ ¬overlay.Covers byte := by
  have hcount := countP_gaps h hlt byte
  simp only [marksAt_eq_nil_iff_not_covers] at hcount
  simp only [← inStretch_iff, ← List.countP_pos_iff, hcount]
  split
  next hbare => simpa using hbare
  next hbare => simpa using hbare

theorem not_covers_of_mem_gaps (h : Proper overlay) (hlt : start < stop)
    (hgap : gap ∈ overlay.gaps start stop) (hfirst : gap.1 ≤ byte) (hlast : byte < gap.2) :
    ¬overlay.Covers byte :=
  ((exists_mem_gaps_iff h hlt).1 ⟨gap, hgap, hfirst, hlast⟩).2

theorem apart_of_mem_gaps (h : Proper overlay) (hlt : start < stop)
    (hgap : gap ∈ overlay.gaps start stop) (hother : other ∈ overlay.gaps start stop)
    (hne : gap ≠ other) : gap.2 < other.1 ∨ other.2 < gap.1 := by
  have hsymm : Std.Symm fun x y : Int × Int => x.2 < y.1 ∨ y.2 < x.1 := ⟨fun _ _ => Or.symm⟩
  have hpairs : (overlay.gaps start stop).Pairwise fun x y => x.2 < y.1 ∨ y.2 < x.1 :=
    (gaps_apart h hlt).imp Or.inl
  exact hpairs.forall hgap hother hne

/-- A byte that touches a gap, but is not in it, is in no gap. -/
theorem covers_of_touches (h : Proper overlay) (hlt : start < stop)
    (hgap : gap ∈ overlay.gaps start stop) (hbyte : start ≤ byte ∧ byte < stop)
    (htouches : byte = gap.1 - 1 ∨ byte = gap.2) : overlay.Covers byte := by
  by_contra hbare
  obtain ⟨other, hother, hfirst, hlast⟩ := (exists_mem_gaps_iff h hlt).2 ⟨hbyte, hbare⟩
  have hbounds := gaps_bounds h hlt hgap
  by_cases hsame : gap = other
  · subst hsame
    omega
  · have hapart := apart_of_mem_gaps h hlt hgap hother hsame
    omega

/-! ## Longest gaps -/

theorem isGap_of_mem_gaps (h : Proper overlay) (hlt : start < stop)
    (hgap : gap ∈ overlay.gaps start stop) : overlay.IsGap start stop gap := by
  have hbounds := gaps_bounds h hlt hgap
  refine ⟨hbounds, fun byte => not_covers_of_mem_gaps h hlt hgap, ?_, ?_⟩
  · by_cases hstart : gap.1 = start
    · exact .inl hstart
    · exact .inr (covers_of_touches h hlt hgap (by omega) (.inl rfl))
  · by_cases hstop : gap.2 = stop
    · exact .inl hstop
    · exact .inr (covers_of_touches h hlt hgap (by omega) (.inr rfl))

/-- Of two gaps with a common byte neither reaches further than the other. -/
theorem IsGap.bounds_le (h : overlay.IsGap start stop gap) (hother : overlay.IsGap start stop other)
    (hfirst : gap.1 ≤ byte ∧ other.1 ≤ byte) (hlast : byte < gap.2 ∧ byte < other.2) :
    other.1 ≤ gap.1 ∧ gap.2 ≤ other.2 := by
  constructor
  · by_contra hlt
    rcases hother.left with hstart | hcovers
    · have hwithin := h.within
      omega
    · exact h.bare (other.1 - 1) (by omega) (by omega) hcovers
  · by_contra hlt
    rcases hother.right with hstop | hcovers
    · have hwithin := h.within
      omega
    · exact h.bare other.2 (by omega) (by omega) hcovers

theorem mem_gaps_iff (h : Proper overlay) (hlt : start < stop) :
    gap ∈ overlay.gaps start stop ↔ overlay.IsGap start stop gap := by
  refine ⟨isGap_of_mem_gaps h hlt, fun hgap => ?_⟩
  have hwithin := hgap.within
  obtain ⟨found, hfound, hfirst, hlast⟩ := (exists_mem_gaps_iff h hlt).2
    ⟨⟨hwithin.1, hwithin.2.1.trans_le hwithin.2.2⟩, hgap.bare gap.1 (le_refl _) hwithin.2.1⟩
  have hisGap := isGap_of_mem_gaps h hlt hfound
  have hle := hgap.bounds_le hisGap ⟨le_refl _, hfirst⟩ ⟨hwithin.2.1, hlast⟩
  have hge := hisGap.bounds_le hgap ⟨hfirst, le_refl _⟩ ⟨hlast, hwithin.2.1⟩
  have hsame : gap = found := Prod.ext (by omega) (by omega)
  exact hsame ▸ hfound

/-- Between one gap and the next there is a byte under some span. -/
theorem gaps_pairwise_covers (h : Proper overlay) (hlt : start < stop) :
    (overlay.gaps start stop).Pairwise fun x y =>
      x.2 < y.1 ∧ ∃ byte, x.2 ≤ byte ∧ byte < y.1 ∧ overlay.Covers byte := by
  refine (gaps_apart h hlt).imp_of_mem fun {x y} hx hy hxy => ⟨hxy, x.2, le_refl _, hxy, ?_⟩
  have hfirst := gaps_bounds h hlt hx
  have hsecond := gaps_bounds h hlt hy
  exact covers_of_touches h hlt hx (by omega) (.inr rfl)

theorem gaps_eq_nil (h : Proper overlay) (hlt : start < stop)
    (hcovers : ∀ byte, start ≤ byte → byte < stop → overlay.Covers byte) :
    overlay.gaps start stop = [] := by
  refine List.eq_nil_iff_forall_not_mem.2 fun gap hgap => ?_
  have hbounds := gaps_bounds h hlt hgap
  exact not_covers_of_mem_gaps h hlt hgap (le_refl _) hbounds.2.1
    (hcovers gap.1 (by omega) (by omega))

/-! ## Keeping twice -/

/-- A layer that went down and keeps what is there has left no byte of its stretch bare. -/
theorem covers_of_kept {next : Overlay} {layer : Layer} (h : Proper overlay)
    (hmode : layer.mode = .keep) (hadd : overlay.add layer = (next, .ok ()))
    (hbyte : layer.covers byte) : next.Covers byte := by
  have hmarks := (add_eq_ok h hadd).2 byte
  rw [Layer.markAt, if_pos hbyte, hmode] at hmarks
  by_contra hbare
  rw [marksAt_eq_nil_iff_not_covers.2 hbare] at hmarks
  cases hold : marksAt byte overlay <;> simp [hold] at hmarks

theorem add_keep_again {layer : Layer} (h : Proper overlay) (hmode : layer.mode = .keep) :
    (overlay.add layer).1.add layer = overlay.add layer := by
  cases hresult : (overlay.add layer).2 with
  | error error =>
    have hsame : (overlay.add layer).1 = overlay := by
      rw [add_refused_eq h hresult, if_neg (by simp [hmode])]
    rw [hsame]
  | ok _ =>
    have hadd : overlay.add layer = ((overlay.add layer).1, .ok ()) := Prod.ext rfl hresult
    by_cases hempty : layer.stop ≤ layer.start
    · simp [add, hempty]
    · have hlt : layer.start < layer.stop := Int.not_le.1 hempty
      have hfull : (overlay.add layer).1.gaps layer.start layer.stop = [] :=
        gaps_eq_nil (add_eq_ok h hadd).1 hlt fun byte hfirst hlast =>
          covers_of_kept h hmode hadd (Layer.covers_iff.2 ⟨hfirst, hlast⟩)
      have hagain : (overlay.add layer).1.add layer = ((overlay.add layer).1, .ok ()) := by
        rw [add, if_neg hempty]
        simp only [hmode, hfull, fill]
      exact hagain.trans hadd.symm

/-- However an overlay has come about, its gaps between two bytes are the longest stretches that no
span touches, from left to right and with some covered byte between one and the next. A byte is in
one of them just if no span lies over it. So a layer that keeps what is there can be laid down a
second time without any effect. -/
theorem gaps_maximal (layers : List Layer) :
    (∀ start stop, start < stop →
      (∀ gap, gap ∈ (after layers).gaps start stop ↔ (after layers).IsGap start stop gap) ∧
      ((after layers).gaps start stop).Pairwise (fun x y =>
        x.2 < y.1 ∧ ∃ byte, x.2 ≤ byte ∧ byte < y.1 ∧ (after layers).Covers byte) ∧
      ∀ byte, start ≤ byte → byte < stop →
        ((∃ gap ∈ (after layers).gaps start stop, gap.1 ≤ byte ∧ byte < gap.2) ↔
          ¬(after layers).Covers byte)) ∧
    ∀ layer : Layer, layer.mode = .keep →
      ((after layers).add layer).1.add layer = (after layers).add layer := by
  have hproper := (settled_after layers).proper
  refine ⟨fun start stop hlt => ?_, fun layer hmode => add_keep_again hproper hmode⟩
  refine ⟨fun gap => mem_gaps_iff hproper hlt, gaps_pairwise_covers hproper hlt, ?_⟩
  intro byte hfirst hlast
  rw [exists_mem_gaps_iff hproper hlt]
  exact and_iff_right ⟨hfirst, hlast⟩

/-- Layers that overlap, lie in each other and touch. -/
def raggedLayers : List Layer :=
  [⟨12, 20, .text "comment", .text "comments", .append⟩,
    ⟨0, 4, .text "string", .text "strings", .append⟩,
    ⟨6, 9, .text "name", .text "names", .append⟩, ⟨7, 8, .text "call", .text "calls", .append⟩,
    ⟨3, 5, .text "error", .text "errors", .append⟩]

/-- A layer for what the others leave free in front of byte 15. -/
def restLayer : Layer := ⟨2, 15, .text "rest", .text "rests", .keep⟩

theorem gaps_maximal_ragged :
    (2 : Int) < 15 ∧ (after raggedLayers).IsGap 2 15 (9, 12) ∧
      (∃ gap ∈ (after raggedLayers).gaps 2 15, gap.1 ≤ 5 ∧ 5 < gap.2) ∧ restLayer.mode = .keep ∧
      ((after raggedLayers).add restLayer).1.add restLayer =
        (after raggedLayers).add restLayer := by
  obtain ⟨hgaps, hkeep⟩ := gaps_maximal raggedLayers
  obtain ⟨hmem, -, hbytes⟩ := hgaps 2 15 (by decide)
  have hlist : (after raggedLayers).gaps 2 15 = [(5, 6), (9, 12)] := by cbv
  have hgap : (9, 12) ∈ (after raggedLayers).gaps 2 15 := by simp [hlist]
  exact ⟨by decide, (hmem (9, 12)).1 hgap, (hbytes 5 (by decide) (by decide)).2 (by decide), rfl,
    hkeep restLayer rfl⟩

end TreeRules.Overlay
