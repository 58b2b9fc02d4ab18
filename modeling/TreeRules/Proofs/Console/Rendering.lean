import Mathlib.Data.List.Chain
import Mathlib.Data.List.TakeWhile
import Mathlib.Tactic.Common
import TreeRules.Console.Styling
import TreeRules.Proofs.Highlight.Coverage
import TreeRules.Proofs.Text.Encoding

/-! # What is printed of a stretch

A canvas is seen through its cells: after painting, each has the style of the first span over its
byte whose tag has one. The runs cut the canvas where the style changes, so their bytes are those of
the stretch. Styles change only where a span starts or ends. If these places are boundaries of an
encoded text, every run is a text of its own, and together they print the text of the stretch, less
the characters that are not seen.
-/
namespace TreeRules.Styling

/-! ## The canvas -/

/-- The style of the first span over a byte whose tag has one. -/
def styleAt (spans : List Span) (byte : Nat) : Option String :=
  spans.findSome? fun span => if span.covers byte then styles.lookup span.tag else none

theorem styleAt_cons (span : Span) (spans : List Span) (byte : Nat) :
    styleAt (span :: spans) byte =
      (if span.covers byte then styles.lookup span.tag else none).or (styleAt spans byte) := by
  rw [styleAt, List.findSome?_cons]
  cases (if span.covers byte then styles.lookup span.tag else none) <;> rfl

theorem getElem?_brush (style : String) (cell count : Nat) (canvas : Canvas) (place : Nat) :
    (brush style cell count canvas)[place]? =
      if cell ≤ place ∧ place < cell + count then canvas[place]?.map fun _ => some style
      else canvas[place]? := by
  induction count generalizing cell canvas with
  | zero =>
    rw [brush, if_neg (by omega)]
  | succ count ih =>
    rw [brush, ih, Array.getElem?_setIfInBounds]
    grind

theorem size_brush (style : String) (cell count : Nat) (canvas : Canvas) :
    (brush style cell count canvas).size = canvas.size := by
  induction count generalizing cell canvas with
  | zero => rfl
  | succ count ih => rw [brush, ih, Array.size_setIfInBounds]

/-- A span paints the cells of its bytes, if its tag has a style. -/
theorem getElem?_paint {start stop : Nat} {canvas : Canvas} (hsize : canvas.size = stop - start)
    (span : Span) (place : Nat) :
    (paint start stop span canvas)[place]? =
      canvas[place]?.map fun old =>
        (if span.covers (start + place : Nat) then styles.lookup span.tag else none).or old := by
  cases hstyle : styles.lookup span.tag with
  | none => simp [paint, hstyle]
  | some style =>
    rcases Nat.lt_or_ge place canvas.size with hlt | hge
    · have hcovers : ((max span.start start - start).toNat ≤ place ∧
          place < (max span.start start - start).toNat +
            (min span.stop stop - max span.start start).toNat) ↔
          span.covers (start + place : Nat) = true := by
        rw [Span.covers_iff]
        omega
      simp only [paint, hstyle, getElem?_brush, hcovers]
      split <;> simp
    · simp [paint, hstyle, getElem?_brush, Array.getElem?_eq_none hge]

theorem size_paint (start stop : Nat) (span : Span) (canvas : Canvas) :
    (paint start stop span canvas).size = canvas.size := by
  unfold paint
  split
  · rfl
  · exact size_brush ..

theorem size_painted (spans : List Span) (start stop : Nat) :
    (painted spans start stop).size = stop - start := by
  induction spans with
  | nil => simp [painted]
  | cons span spans ih => exact (size_paint ..).trans ih

theorem getElem?_painted (spans : List Span) {start stop place : Nat} (h : place < stop - start) :
    (painted spans start stop)[place]? = some (styleAt spans (start + place)) := by
  induction spans with
  | nil => simp [painted, styleAt, h]
  | cons span spans ih =>
    have hpaint := getElem?_paint (size_painted spans start stop) span place
    rw [ih, Option.map_some, ← styleAt_cons] at hpaint
    exact hpaint

/-- After all spans each cell has the style of its byte. -/
theorem toList_painted (spans : List Span) (start stop : Nat) :
    (painted spans start stop).toList =
      (List.range' start (stop - start)).map (styleAt spans) := by
  apply List.ext_getElem?
  intro place
  rw [Array.getElem?_toList]
  rcases Nat.lt_or_ge place (stop - start) with hlt | hge
  · simp [getElem?_painted spans hlt, hlt]
  · have hnone : (painted spans start stop)[place]? = none := by
      apply Array.getElem?_eq_none
      rw [size_painted]
      exact hge
    simp [hnone, hge]

/-! ## Runs -/

/-- The style of a run for each of its bytes. -/
def Run.cells (run : Run) : List (Option String) := List.replicate run.bytes.length run.style

theorem takeWhile_same (style : Option String) (cells : List (Option String)) :
    cells.takeWhile (· == style) =
      List.replicate (cells.takeWhile (· == style)).length style := by
  apply List.eq_replicate_length.2
  intro cell hcell
  exact beq_iff_eq.1 (List.mem_takeWhile_imp (p := (· == style)) hcell)

theorem length_dropWhile_same (style : Option String) (cells : List (Option String)) :
    (cells.takeWhile (· == style)).length + (cells.dropWhile (· == style)).length =
      cells.length := by
  rw [← List.length_append, List.takeWhile_append_dropWhile]

theorem runsOf_cons (style : Option String) (cells : List (Option String)) (bytes : List UInt8) :
    runsOf (style :: cells) bytes =
      ⟨style, bytes.take ((cells.takeWhile (· == style)).length + 1)⟩ ::
        runsOf (cells.dropWhile (· == style))
          (bytes.drop ((cells.takeWhile (· == style)).length + 1)) := by
  rw [runsOf]

/-- The runs of a canvas hold as many bytes as it has cells. -/
theorem flatMap_bytes_runsOf (cells : List (Option String)) (bytes : List UInt8) :
    (runsOf cells bytes).flatMap Run.bytes = bytes.take cells.length := by
  fun_induction runsOf cells bytes with
  | case1 => simp
  | case2 style cells bytes length ih =>
    have hlength : (style :: cells).length = length + (cells.dropWhile (· == style)).length := by
      have hcells := length_dropWhile_same style cells
      simp only [List.length_cons, length]
      omega
    rw [List.flatMap_cons, ih, hlength]
    exact List.take_add.symm

/-- Where there are bytes enough, the runs have the styles of the cells. -/
theorem flatMap_cells_runsOf {cells : List (Option String)} {bytes : List UInt8}
    (h : cells.length ≤ bytes.length) : (runsOf cells bytes).flatMap Run.cells = cells := by
  fun_induction runsOf cells bytes with
  | case1 => rfl
  | case2 style cells bytes length ih =>
    have hcells := length_dropWhile_same style cells
    rw [List.length_cons] at h
    rw [List.flatMap_cons, ih (by rw [List.length_drop]; omega), Run.cells, List.length_take,
      Nat.min_eq_left (by omega), List.replicate_succ, ← takeWhile_same, List.cons_append,
      List.takeWhile_append_dropWhile]

theorem bytes_ne_nil_of_mem_runsOf {cells : List (Option String)} {bytes : List UInt8}
    (h : cells.length ≤ bytes.length) {run : Run} (hrun : run ∈ runsOf cells bytes) :
    run.bytes ≠ [] := by
  fun_induction runsOf cells bytes with
  | case1 => cases hrun
  | case2 style cells bytes length ih =>
    have hcells := length_dropWhile_same style cells
    rw [List.length_cons] at h
    rcases List.mem_cons.1 hrun with rfl | hrun
    · apply List.ne_nil_of_length_pos
      simp only [List.length_take]
      omega
    · exact ih (by rw [List.length_drop]; omega) hrun

theorem style_of_head?_runsOf {cells : List (Option String)} {bytes : List UInt8} {run : Run}
    (h : run ∈ (runsOf cells bytes).head?) : cells.head? = some run.style := by
  cases cells with
  | nil => simp [runsOf] at h
  | cons style cells =>
    rw [runsOf_cons] at h
    cases h
    rfl

/-- A run ends where the style changes. -/
theorem isChain_runsOf (cells : List (Option String)) (bytes : List UInt8) :
    (runsOf cells bytes).IsChain fun run next => run.style ≠ next.style := by
  fun_induction runsOf cells bytes with
  | case1 => exact List.IsChain.nil
  | case2 style cells bytes length ih =>
    apply List.isChain_cons.2 ⟨_, ih⟩
    intro next hnext
    have hhead := style_of_head?_runsOf hnext
    have hother := List.head?_dropWhile_not (· == style) cells
    simp only [hhead] at hother
    exact fun heq => by simp [← heq] at hother

/-! ## Stretches -/

/-- Runs that a stretch of a byte string is split into. Each byte has the style of the first span
over it that gives one. -/
structure Splits (spans : List Span) (bytes : List UInt8) (start stop : Nat) (runs : List Run) :
    Prop where
  filled : ∀ run ∈ runs, run.bytes ≠ []
  joined : runs.flatMap Run.bytes = (bytes.take stop).drop start
  apart : runs.IsChain fun run next => run.style ≠ next.style
  styled : runs.flatMap Run.cells = (List.range' start (stop - start)).map (styleAt spans)

theorem splits_runs (spans : List Span) {bytes : List UInt8} {start stop : Nat}
    (h : start ≤ stop) (h' : stop ≤ bytes.length) :
    Splits spans bytes start stop (runs spans bytes start stop) := by
  have hlength : (painted spans start stop).toList.length = stop - start := by
    rw [Array.length_toList, size_painted]
  have henough : (painted spans start stop).toList.length ≤ (bytes.drop start).length := by
    rw [hlength, List.length_drop]
    omega
  constructor
  · intro run hrun
    exact bytes_ne_nil_of_mem_runsOf henough hrun
  · rw [runs, flatMap_bytes_runsOf, hlength, List.drop_take]
  · exact isChain_runsOf _ _
  · rw [runs, flatMap_cells_runsOf henough, toList_painted]

/-- The style changes only where a span starts or ends. -/
theorem exists_limit_of_styleAt_ne {spans : List Span} {byte : Nat}
    (h : styleAt spans byte ≠ styleAt spans (byte + 1)) :
    ∃ span ∈ spans, ((byte + 1 : Nat) : Int) ∈ [span.start, span.stop] := by
  induction spans with
  | nil => exact absurd rfl h
  | cons span spans ih =>
    by_cases hcovers : span.covers byte = span.covers (byte + 1 : Nat)
    · have hrest : styleAt spans byte ≠ styleAt spans (byte + 1) := by
        intro heq
        rw [styleAt_cons, styleAt_cons, hcovers, heq] at h
        exact h rfl
      obtain ⟨other, hother, hlimit⟩ := ih hrest
      exact ⟨other, List.mem_cons_of_mem _ hother, hlimit⟩
    · refine ⟨span, List.mem_cons_self, ?_⟩
      rw [Bool.eq_iff_iff, Span.covers_iff, Span.covers_iff] at hcovers
      simp only [List.mem_cons, List.not_mem_nil, or_false]
      omega

section Splits

variable {spans : List Span} {bytes : List UInt8} {start stop : Nat} {run : Run} {rest : List Run}

theorem Splits.next_le (h : Splits spans bytes start stop (run :: rest)) :
    start + run.bytes.length ≤ stop := by
  have hfilled := List.length_pos_of_ne_nil (h.filled run List.mem_cons_self)
  have hjoined := congrArg List.length h.joined
  simp only [List.flatMap_cons, List.length_append, List.length_drop, List.length_take] at hjoined
  omega

theorem Splits.bytes_eq (h : Splits spans bytes start stop (run :: rest)) :
    run.bytes = (bytes.take (start + run.bytes.length)).drop start := by
  have hjoined := congrArg (List.take run.bytes.length) h.joined
  rw [List.flatMap_cons, List.take_left, List.take_drop, List.take_take,
    Nat.min_eq_left h.next_le] at hjoined
  exact hjoined

theorem Splits.cells_eq (h : Splits spans bytes start stop (run :: rest)) :
    run.cells = (List.range' start run.bytes.length).map (styleAt spans) ∧
      rest.flatMap Run.cells =
        (List.range' (start + run.bytes.length) (stop - (start + run.bytes.length))).map
          (styleAt spans) := by
  have hcount : stop - start = run.bytes.length + (stop - (start + run.bytes.length)) := by
    have hle := h.next_le
    omega
  have hstyled := h.styled
  rw [hcount, ← List.range'_append_1, List.map_append, List.flatMap_cons] at hstyled
  exact List.append_inj hstyled (by simp [Run.cells])

theorem Splits.tail (h : Splits spans bytes start stop (run :: rest)) :
    Splits spans bytes (start + run.bytes.length) stop rest where
  filled other hother := h.filled other (List.mem_cons_of_mem _ hother)
  joined := by
    have hjoined := congrArg (List.drop run.bytes.length) h.joined
    rw [List.flatMap_cons, List.drop_left, List.drop_drop] at hjoined
    exact hjoined
  apart := h.apart.tail
  styled := h.cells_eq.2

theorem Splits.styleAt_eq (h : Splits spans bytes start stop (run :: rest)) {byte : Nat}
    (hfirst : start ≤ byte) (hlast : byte < start + run.bytes.length) :
    styleAt spans byte = run.style := by
  have hcell : styleAt spans byte ∈ run.cells := by
    rw [h.cells_eq.1]
    exact List.mem_map_of_mem (List.mem_range'_1.2 ⟨hfirst, hlast⟩)
  exact List.eq_of_mem_replicate hcell

/-- A stretch of encoded text that begins and ends at boundaries, as do the spans inside it. -/
structure Aligned (spans : List Span) (bytes : List UInt8) (start stop : Nat) : Prop where
  first : Utf8.Boundary bytes start
  last : Utf8.Boundary bytes stop
  limits : ∀ span ∈ spans, ∀ limit ∈ [span.start, span.stop], start < limit → limit < stop →
    Utf8.Boundary bytes limit

/-- The next run begins at a boundary, since a span starts or ends there. -/
theorem Splits.next_boundary (h : Splits spans bytes start stop (run :: rest))
    (hstop : stop ≤ bytes.length) (haligned : Aligned spans bytes start stop) :
    Utf8.Boundary bytes (start + run.bytes.length : Nat) := by
  have hfilled := List.length_pos_of_ne_nil (h.filled run List.mem_cons_self)
  cases rest with
  | nil =>
    have hend : start + run.bytes.length = stop := by
      have hrest := congrArg List.length h.tail.joined
      have hle := h.next_le
      simp only [List.flatMap_nil, List.length_nil, List.length_drop, List.length_take] at hrest
      omega
    rw [hend]
    exact haligned.last
  | cons next rest =>
    have hnext := List.length_pos_of_ne_nil (h.tail.filled next List.mem_cons_self)
    have hle := h.tail.next_le
    obtain ⟨byte, hbyte⟩ : ∃ byte, start + run.bytes.length = byte + 1 :=
      ⟨start + run.bytes.length - 1, by omega⟩
    have hchange : styleAt spans byte ≠ styleAt spans (byte + 1) := by
      rw [← hbyte, h.styleAt_eq (by omega) (by omega), h.tail.styleAt_eq le_rfl (by omega)]
      exact (List.isChain_cons_cons.1 h.apart).1
    obtain ⟨span, hspan, hlimit⟩ := exists_limit_of_styleAt_ne hchange
    rw [hbyte]
    exact haligned.limits span hspan _ hlimit (by omega) (by omega)

/-- In an aligned stretch every run is a text of its own. -/
theorem Splits.encoded {runs : List Run} (h : Splits spans bytes start stop runs)
    (hstop : stop ≤ bytes.length) (haligned : Aligned spans bytes start stop) :
    ∀ run ∈ runs, ∃ text, run.bytes = Utf8.encode text := by
  -- The place moves from run to run; only spans behind it matter from there on.
  induction runs generalizing start with
  | nil => simp
  | cons run rest ih =>
    have hnext := h.next_boundary hstop haligned
    have hrest : Aligned spans bytes (start + run.bytes.length) stop :=
      ⟨hnext, haligned.last, fun span hspan limit hlimit hlow =>
        haligned.limits span hspan limit hlimit (by omega)⟩
    refine List.forall_mem_cons.2 ⟨?_, ih h.tail hrest⟩
    obtain ⟨text, htext⟩ := haligned.first.between hnext (Nat.le_add_right ..)
    exact ⟨text, h.bytes_eq.trans htext⟩

end Splits

/-! ## Printing -/

/-- What is printed is the text of the stretch, less what is not seen. -/
theorem text_eq_seen {spans : List Span} {bytes : List UInt8} {start stop : Nat}
    (h : start ≤ stop) (h' : stop ≤ bytes.length) (haligned : Aligned spans bytes start stop) :
    text spans bytes start stop = Screen.seen (Utf8.decode ((bytes.take stop).drop start)) := by
  have hsplits := splits_runs spans h h'
  have hpieces : ∀ piece ∈ (runs spans bytes start stop).map Run.bytes,
      ∃ text, piece = Utf8.encode text := by
    intro piece hpiece
    obtain ⟨run, hrun, rfl⟩ := List.mem_map.1 hpiece
    exact hsplits.encoded h' haligned run hrun
  rw [← hsplits.joined, List.flatMap_def, Utf8.decode_flatten hpieces, List.flatMap_map,
    Screen.seen, List.filter_flatMap]
  rfl

/-- A stretch is split into runs of the styles of its spans. If it is aligned, the runs print its
text, less the characters that are not seen. -/
theorem runs_reproduce (spans : List Span) (bytes : List UInt8) (start stop : Nat)
    (h : start ≤ stop) (h' : stop ≤ bytes.length) :
    Splits spans bytes start stop (runs spans bytes start stop) ∧
      (Aligned spans bytes start stop →
        text spans bytes start stop =
            Screen.seen (Utf8.decode ((bytes.take stop).drop start)) ∧
          (text spans bytes start stop = Utf8.decode ((bytes.take stop).drop start) ↔
            ∀ c ∈ Utf8.decode ((bytes.take stop).drop start), Screen.isUnseen c = false)) := by
  refine ⟨splits_runs spans h h', fun haligned => ?_⟩
  have htext := text_eq_seen h h' haligned
  refine ⟨htext, ?_⟩
  rw [htext, Screen.seen, List.filter_eq_self]
  simp only [Bool.not_eq_true']

/-- An operator over the end of a number, and a name without a style. -/
def overlap : List Span :=
  [⟨2, 4, "operator", "operators"⟩, ⟨0, 3, "number", "literals"⟩, ⟨3, 9, "name", "names"⟩]

theorem overlap_aligned : Aligned overlap (Utf8.encode ['é', '=', '1']) 0 4 where
  first := ⟨[], ['é', '=', '1'], rfl, rfl⟩
  last := ⟨['é', '=', '1'], [], rfl, by decide⟩
  limits span hspan limit hlimit hlow hhigh := by
    have hinside : ∀ span ∈ overlap, ∀ limit ∈ [span.start, span.stop], 0 < limit → limit < 4 →
        limit = 2 ∨ limit = 3 := by decide
    rcases hinside span hspan limit hlimit hlow hhigh with rfl | rfl
    · exact ⟨['é'], ['=', '1'], rfl, by decide⟩
    · exact ⟨['é', '='], ['1'], rfl, by decide⟩

theorem runs_reproduce_overlap :
    Splits overlap (Utf8.encode ['é', '=', '1']) 0 4
        (runs overlap (Utf8.encode ['é', '=', '1']) 0 4) ∧
      text overlap (Utf8.encode ['é', '=', '1']) 0 4 = ['é', '=', '1'] := by
  have hreproduce := runs_reproduce overlap (Utf8.encode ['é', '=', '1']) 0 4 (by decide)
    (by decide)
  exact ⟨hreproduce.1, (hreproduce.2 overlap_aligned).1.trans (by decide)⟩

/-- A form feed between two letters is not printed. -/
theorem text_form_feed :
    Aligned [] (Utf8.encode ['a', '\x0c', 'b']) 0 3 ∧
      text [] (Utf8.encode ['a', '\x0c', 'b']) 0 3 = ['a', 'b'] ∧
      text [] (Utf8.encode ['a', '\x0c', 'b']) 0 3 ≠
        Utf8.decode (((Utf8.encode ['a', '\x0c', 'b']).take 3).drop 0) := by
  have haligned : Aligned [] (Utf8.encode ['a', '\x0c', 'b']) 0 3 :=
    ⟨⟨[], ['a', '\x0c', 'b'], rfl, rfl⟩, ⟨['a', '\x0c', 'b'], [], rfl, by decide⟩, by simp⟩
  have htext : text [] (Utf8.encode ['a', '\x0c', 'b']) 0 3 = ['a', 'b'] :=
    (text_eq_seen (by decide) (by decide) haligned).trans (by decide)
  refine ⟨haligned, htext, ?_⟩
  rw [htext]
  decide

end TreeRules.Styling
