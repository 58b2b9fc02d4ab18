import Mathlib.Data.List.Infix
import Mathlib.Tactic.Common
import TreeRules.Indent.Column
import TreeRules.Proofs.Indent.RowTarget
import TreeRules.Proofs.Text.Columns

/-! # The column of comment text

A line without a marker of its own goes on below the text of the comment before it. Its column is
put together from three pieces of that line, of which the blanks behind the marker are counted and
not measured. So it is the column of the text just if every tab among these blanks takes one column,
and else it is too small.
-/
namespace TreeRules

namespace CommentStart
open Utf8

variable {start : CommentStart} {front rest : List Char} {line text : List UInt8}

/-! ## Markers -/

/-- The shortest markers, each with the character that may go on behind it. -/
def markers : List (List Char × Char) :=
  [(['/', '*'], '*'), (['*'], '*'), (['/', '/'], '/'), (['#'], '#'), (['-', '-'], '-')]

/-- The characters of the markers. -/
def signs : List Char := ['/', '*', '#', '-']

theorem plain_of_mem_signs {c : Char} (h : c ∈ signs) : Plain c ∧ c ≠ '\n' ∧ c ≠ '\r' := by
  simp only [signs, List.mem_cons, List.not_mem_nil, or_false] at h
  rcases h with rfl | rfl | rfl | rfl <;> simp [Plain]

theorem isSpace_of_mem_signs {c : Char} (h : c ∈ signs) : isSpace c = false := by
  simp only [signs, List.mem_cons, List.not_mem_nil, or_false] at h
  rcases h with rfl | rfl | rfl | rfl <;> rfl

theorem signs_of_mem_markers {kind : List Char × Char} (h : kind ∈ markers) :
    kind.1 ≠ [] ∧ (∀ c ∈ kind.1, c ∈ signs) ∧ kind.2 ∈ signs := by
  simp only [markers, List.mem_cons, List.not_mem_nil, or_false] at h
  rcases h with rfl | rfl | rfl | rfl | rfl <;> simp [signs]

theorem isSpace_head?_marker {kind : List Char × Char} (h : kind ∈ markers) (rest : List Char) :
    ∀ c ∈ (kind.1 ++ rest).head?, isSpace c = false := by
  obtain ⟨hne, hsigns, -⟩ := signs_of_mem_markers h
  intro c hc
  rw [List.head?_append_of_ne_nil _ hne] at hc
  exact isSpace_of_mem_signs (hsigns c (List.mem_of_mem_head? hc))

theorem markerOf_append {kind : List Char × Char} (h : kind ∈ markers) (rest : List Char) :
    markerOf (kind.1 ++ rest) = kind.1 ++ rest.takeWhile (· == kind.2) := by
  simp only [markers, List.mem_cons, List.not_mem_nil, or_false] at h
  rcases h with rfl | rfl | rfl | rfl | rfl <;> rfl

theorem exists_of_markerOf_ne_nil (h : markerOf rest ≠ []) :
    ∃ kind ∈ markers, ∃ tail, rest = kind.1 ++ tail := by
  unfold markerOf at h
  dsimp only at h
  split at h
  next tail => exact ⟨(['/', '*'], '*'), by decide, tail, rfl⟩
  next tail => exact ⟨(['*'], '*'), by decide, tail, rfl⟩
  next tail => exact ⟨(['/', '/'], '/'), by decide, tail, rfl⟩
  next tail => exact ⟨(['#'], '#'), by decide, tail, rfl⟩
  next tail => exact ⟨(['-', '-'], '-'), by decide, tail, rfl⟩
  next => exact absurd rfl h

/-! ## Lines of comment -/

/-- A line is a comment with a start: spaces and tabs, a marker that does not go on, spaces and
tabs, and what follows them, if anything. -/
structure Opens (start : CommentStart) (line text : List UInt8) : Prop where
  bytes : line = encode (start.margin ++ (start.marker ++ start.gap)) ++ text
  margin : ∀ c ∈ start.margin, isSpace c = true
  marker : ∃ kind ∈ markers, ∃ n, start.marker = kind.1 ++ List.replicate n kind.2 ∧
    (start.gap = [] → text.head? ≠ some (UInt8.ofNat kind.2.toNat))
  gap : ∀ c ∈ start.gap, isSpace c = true
  text : text.head? ≠ some 32 ∧ text.head? ≠ some 9

/-- How many bytes a line of comment has up to the end of its marker. -/
def markerStop (start : CommentStart) : Nat := start.margin.length + start.marker.length

/-- How many bytes a line of comment has in front of its text. -/
def textStart (start : CommentStart) : Nat := start.markerStop + start.gap.length

/-- A line has no marker behind the spaces and tabs that it starts with. -/
def Unmarked (line : List UInt8) : Prop :=
  ∀ margin, (∀ c ∈ margin, isSpace c = true) → ∀ kind ∈ markers, ∀ text,
    line ≠ encode (margin ++ kind.1) ++ text

theorem plain_of_isSpace {c : Char} (h : isSpace c = true) : Plain c ∧ c ≠ '\n' ∧ c ≠ '\r' := by
  simp only [isSpace, Bool.or_eq_true, beq_iff_eq] at h
  rcases h with rfl | rfl <;> decide

theorem takeWhile_eq_nil {p : Char → Bool} (h : ∀ c ∈ rest.head?, p c = false) :
    rest.takeWhile p = [] := by
  cases rest with
  | nil => rfl
  | cons c rest => simp [h c rfl]

theorem dropWhile_eq_self {p : Char → Bool} (h : ∀ c ∈ rest.head?, p c = false) :
    rest.dropWhile p = rest := by
  cases rest with
  | nil => rfl
  | cons c rest => simp [h c rfl]

theorem ofLine_append (hfront : ∀ c ∈ front, isSpace c = true)
    (hrest : ∀ c ∈ rest.head?, isSpace c = false) :
    ofLine (front ++ rest) =
      ⟨front, markerOf rest, (rest.drop (markerOf rest).length).takeWhile isSpace⟩ := by
  simp only [ofLine, List.takeWhile_append_of_pos hfront, List.dropWhile_append_of_pos hfront,
    takeWhile_eq_nil hrest, dropWhile_eq_self hrest, List.append_nil]

namespace Opens

theorem mem_signs {c : Char} (h : start.Opens line text) (hc : c ∈ start.marker) : c ∈ signs := by
  obtain ⟨kind, hkind, n, hmarker, -⟩ := h.marker
  obtain ⟨-, hshort, hgoing⟩ := signs_of_mem_markers hkind
  rw [hmarker] at hc
  rcases List.mem_append.mp hc with hc | hc
  · exact hshort c hc
  · rw [List.eq_of_mem_replicate hc]
    exact hgoing

theorem marker_ne_nil (h : start.Opens line text) : start.marker ≠ [] := by
  obtain ⟨kind, hkind, n, hmarker, -⟩ := h.marker
  rw [hmarker]
  exact List.append_ne_nil_of_left_ne_nil (signs_of_mem_markers hkind).1 _

/-- The part of a line in front of the text is plain and has no end of line in it. -/
theorem plain (h : start.Opens line text) :
    ∀ c ∈ start.margin ++ (start.marker ++ start.gap), Plain c ∧ c ≠ '\n' ∧ c ≠ '\r' := by
  intro c hc
  rcases List.mem_append.mp hc with hc | hc
  · exact plain_of_isSpace (h.margin c hc)
  · rcases List.mem_append.mp hc with hc | hc
    · exact plain_of_mem_signs (h.mem_signs hc)
    · exact plain_of_isSpace (h.gap c hc)

theorem oneLine (h : start.Opens line text) :
    Tabs.OneLine start.margin ∧ Tabs.OneLine start.marker ∧ Tabs.OneLine start.gap := by
  have hplain := h.plain
  simp only [List.forall_mem_append] at hplain
  obtain ⟨hmargin, hmarker, hgap⟩ := hplain
  exact ⟨fun c hc => (hmargin c hc).2, fun c hc => (hmarker c hc).2, fun c hc => (hgap c hc).2⟩

theorem decode_line (h : start.Opens line text) :
    decode line = start.margin ++ (start.marker ++ (start.gap ++ decode text)) := by
  rw [h.bytes, decode_encode_append, List.append_assoc, List.append_assoc]

theorem head?_text (h : start.Opens line text) :
    ∀ c ∈ (decode text).head?, isSpace c = false := by
  intro c hc
  by_contra hspace
  have hspace : isSpace c = true := by simpa using hspace
  have hbyte := head?_of_head?_decode (plain_of_isSpace hspace).1 hc
  simp only [isSpace, Bool.or_eq_true, beq_iff_eq] at hspace
  rcases hspace with rfl | rfl
  · exact h.text.1 hbyte
  · exact h.text.2 hbyte

theorem ofLine_eq (h : start.Opens line text) : ofLine (decode line) = start := by
  obtain ⟨kind, hkind, n, hmarker, hends⟩ := h.marker
  have hsign := (signs_of_mem_markers hkind).2.2
  -- The marker takes every character that can go on behind it.
  have hstop : ∀ c ∈ (start.gap ++ decode text).head?, (c == kind.2) = false := by
    intro c hc
    rw [beq_eq_false_iff_ne]
    rintro rfl
    cases hgap : start.gap with
    | nil =>
      rw [hgap, List.nil_append] at hc
      exact hends hgap (head?_of_head?_decode (plain_of_mem_signs hsign).1 hc)
    | cons blank gap =>
      rw [hgap, List.cons_append, List.head?_cons, Option.mem_some_iff] at hc
      have hblank := h.gap blank (hgap ▸ List.mem_cons_self)
      rw [hc, isSpace_of_mem_signs hsign] at hblank
      cases hblank
  have hrun : markerOf (start.marker ++ (start.gap ++ decode text)) = start.marker := by
    have hreplicate : ∀ c ∈ List.replicate n kind.2, (c == kind.2) = true := by
      intro c hc
      exact beq_iff_eq.mpr (List.eq_of_mem_replicate hc)
    rw [hmarker, List.append_assoc, markerOf_append hkind,
      List.takeWhile_append_of_pos hreplicate, takeWhile_eq_nil hstop, List.append_nil]
  have hhead := isSpace_head?_marker hkind (List.replicate n kind.2 ++ (start.gap ++ decode text))
  rw [← List.append_assoc, ← hmarker] at hhead
  rw [h.decode_line, ofLine_append h.margin hhead, hrun, List.drop_left,
    List.takeWhile_append_of_pos h.gap, takeWhile_eq_nil h.head?_text, List.append_nil]

end Opens

theorem plain_append_marker {kind : List Char × Char} (hfront : ∀ c ∈ front, isSpace c = true)
    (hkind : kind ∈ markers) : ∀ c ∈ front ++ kind.1, Plain c := by
  intro c hc
  rcases List.mem_append.mp hc with hc | hc
  · exact (plain_of_isSpace (hfront c hc)).1
  · exact (plain_of_mem_signs ((signs_of_mem_markers hkind).2.1 c hc)).1

theorem unmarked_iff : Unmarked line ↔ (ofLine (decode line)).marker = [] := by
  constructor
  · intro h
    by_contra hmarker
    obtain ⟨kind, hkind, tail, htail⟩ := exists_of_markerOf_ne_nil hmarker
    have hspaces : ∀ c ∈ (decode line).takeWhile isSpace, isSpace c = true :=
      fun c hc => List.mem_takeWhile_imp hc
    have hline : decode line = (decode line).takeWhile isSpace ++ kind.1 ++ tail := by
      rw [List.append_assoc, ← htail, List.takeWhile_append_dropWhile]
    obtain ⟨rest, hrest, -⟩ := (decode_eq_append_iff (plain_append_marker hspaces hkind)).mp hline
    exact h _ hspaces kind hkind rest hrest
  · rintro h margin hmargin kind hkind text rfl
    rw [decode_encode_append, List.append_assoc,
      ofLine_append hmargin (isSpace_head?_marker hkind _), markerOf_append hkind] at h
    exact (signs_of_mem_markers hkind).1 (List.append_eq_nil_iff.mp h).1

end CommentStart

/-! ## The line before -/

namespace Source
open Utf8

variable {source : Source} {row before : Nat}

/-- The last row before a row that is not blank. -/
structure LastInked (source : Source) (before row : Nat) : Prop where
  lt : before < row
  inked : source.rowInk before ≠ source.rowStop before
  blank : ∀ other, before < other → other < row → source.rowInk other = source.rowStop other

/-- The column behind the plain characters at the front of a row. -/
theorem columnOf_front {front : List Char} {rest : List UInt8} (tabWidth : Int)
    (hrow : row < source.rows) (hplain : ∀ c ∈ front, Plain c)
    (h : source.rowBytes row = encode front ++ rest) :
    source.columnOf tabWidth (source.rowStart row + front.length : Nat) =
      Tabs.width tabWidth front := by
  have hlength := length_rowBytes hrow
  have hstart := rowStart_le_rowStop hrow
  have hsize := rowStop_le_size hrow
  rw [h, List.length_append, length_encode hplain] at hlength
  have hwithin : source.rowStart row + front.length ≤ source.rowStop row := by omega
  have hrowOf : source.rowOf (source.rowStart row + front.length : Nat) = row :=
    (rowOf_eq_iff hrow (by omega)).mpr ⟨by omega, hwithin⟩
  have htaken : (encode front ++ rest).take front.length = encode front := by
    rw [← length_encode hplain, List.take_left]
  rw [columnOf, hrowOf, textOf_natCast, take_rowBytes hwithin, h, htaken, decode_encode]

end Source

namespace Column
open Utf8 CommentStart

variable {doc : Document} {target : Target} {row before : Nat} {start : CommentStart}
  {text : List UInt8}

theorem rowBefore?_of_lastInked (h : doc.source.LastInked before row) :
    rowBefore? doc row = some before := by
  induction row with
  | zero => exact absurd h.lt (Nat.not_lt_zero before)
  | succ row ih =>
    rw [rowBefore?]
    rcases Nat.lt_or_eq_of_le (Nat.le_of_lt_succ h.lt) with hlt | rfl
    · rw [if_pos (h.blank row hlt (Nat.lt_succ_self row))]
      exact ih ⟨hlt, h.inked, fun other hlow hhigh => h.blank other hlow (Nat.lt_succ_of_lt hhigh)⟩
    · rw [if_neg h.inked]

theorem commentStart_eq (doc : Document) (row : Nat) :
    commentStart doc row = ofLine (decode (doc.source.rowBytes row)) := by
  rw [commentStart, Source.textOf_natCast, Source.rowBytes]

/-- A line without a marker goes on behind the marker and the blanks of the comment before, where
each blank counts as one column. -/
theorem atCommentText_eq (htarget : target.row = some (row : Int))
    (hrow : Unmarked (doc.source.rowBytes row)) (hbefore : doc.source.LastInked before row)
    (hstart : start.Opens (doc.source.rowBytes before) text) :
    atCommentText doc target =
      Tabs.width doc.tabWidth start.margin + start.marker.length + start.gap.length := by
  have hmarked : start.marker.isEmpty = false := by
    simpa using hstart.marker_ne_nil
  have hplain : (commentStart doc row).marker = [] := by
    rw [commentStart_eq]
    exact unmarked_iff.mp hrow
  have hopened : commentStart doc before = start := by
    rw [commentStart_eq]
    exact hstart.ofLine_eq
  have hrowOf : rowOf target = row := by
    rw [rowOf, htarget]
    rfl
  rw [atCommentText, hrowOf, rowBefore?_of_lastInked hbefore]
  simp [afterComment, hopened, hplain, hmarked]

theorem columnOf_behind_marker {front back : List Char} (htab : 1 ≤ doc.tabWidth)
    (hrow : before < doc.source.rows) (hstart : start.Opens (doc.source.rowBytes before) text)
    (hgap : start.gap = front ++ back) :
    doc.columnOf (doc.source.rowStart before + start.markerStop + front.length : Nat) =
      Tabs.width doc.tabWidth start.margin + start.marker.length +
        Tabs.widthFrom doc.tabWidth
          (Tabs.width doc.tabWidth start.margin + start.marker.length) front := by
  obtain ⟨hmargin, hmarker, -⟩ := hstart.oneLine
  have hbytes : doc.source.rowBytes before =
      encode (start.margin ++ (start.marker ++ front)) ++ (encode back ++ text) := by
    rw [hstart.bytes, hgap]
    simp only [encode, List.flatMap_append, List.append_assoc]
  have hplain : ∀ c ∈ start.margin ++ (start.marker ++ front), Plain c := by
    intro c hc
    have hfront : c ∈ start.margin ++ (start.marker ++ start.gap) := by
      rw [hgap, ← List.append_assoc start.marker, ← List.append_assoc]
      exact List.mem_append_left back hc
    exact (hstart.plain c hfront).1
  have hcolumn := Source.columnOf_front doc.tabWidth hrow hplain hbytes
  have hsigns : Tabs.widthFrom doc.tabWidth (Tabs.width doc.tabWidth start.margin) start.marker =
      start.marker.length := by
    rw [Tabs.widthFrom_eq_length_iff htab hmarker]
    intro left right hsplit
    have htabs : '\t' ∈ start.marker := hsplit ▸ List.mem_append_right left List.mem_cons_self
    exact absurd (isSpace_of_mem_signs (hstart.mem_signs htabs)) (by decide)
  rw [Tabs.width, Tabs.widthFrom_append hmargin, Tabs.widthFrom_append hmarker, Nat.zero_add,
    ← Tabs.width, hsigns, ← Nat.add_assoc] at hcolumn
  rw [Document.columnOf, ← hcolumn, markerStop, List.length_append, List.length_append]
  congr 2
  omega

/-- A line without a marker of its own, below a comment, is put behind the comment's marker by as
many columns as blanks follow the marker. This never goes beyond the column at which the comment's
text starts, and it reaches that column just if every tab among the blanks stands right before a
tab stop. -/
theorem commentText_column (unit : Int) {action : IndentAction}
    (hanchor : action.anchor = .commentText) (htab : 1 ≤ doc.tabWidth)
    (hrow : row < doc.source.rows) (htarget : target.row = some (row : Int))
    (hunmarked : Unmarked (doc.source.rowBytes row)) (hbefore : doc.source.LastInked before row)
    (hstart : start.Opens (doc.source.rowBytes before) text) :
    ∃ column : Int, ofAnchor doc target unit action = .ok column ∧
      column = doc.columnOf (doc.source.rowStart before + start.markerStop : Nat) +
        start.gap.length ∧
      column ≤ doc.columnOf (doc.source.rowStart before + start.textStart : Nat) ∧
      (column = doc.columnOf (doc.source.rowStart before + start.textStart : Nat) ↔
        ∀ front back, start.gap = front ++ '\t' :: back →
          doc.tabWidth ∣
            (doc.columnOf (doc.source.rowStart before + start.markerStop + front.length : Nat) + 1 :
              Int)) := by
  have hlines := Nat.lt_trans hbefore.lt hrow
  have hmarker : doc.columnOf (doc.source.rowStart before + start.markerStop : Nat) =
      Tabs.width doc.tabWidth start.margin + start.marker.length := by
    have hnone := columnOf_behind_marker htab hlines hstart (List.nil_append start.gap).symm
    simpa [Tabs.widthFrom] using hnone
  have htext : doc.columnOf (doc.source.rowStart before + start.textStart : Nat) =
      Tabs.width doc.tabWidth start.margin + start.marker.length +
        Tabs.widthFrom doc.tabWidth
          (Tabs.width doc.tabWidth start.margin + start.marker.length) start.gap := by
    have hgap := columnOf_behind_marker htab hlines hstart (List.append_nil start.gap).symm
    rwa [Nat.add_assoc] at hgap
  have hle := Tabs.length_le_widthFrom htab start.gap
    (Tabs.width doc.tabWidth start.margin + start.marker.length)
  have hiff := Tabs.widthFrom_eq_length_iff htab hstart.oneLine.2.2
    (Tabs.width doc.tabWidth start.margin + start.marker.length)
  refine ⟨atCommentText doc target, by rw [ofAnchor, hanchor], ?_, ?_, ?_⟩
  all_goals rw [atCommentText_eq htarget hunmarked hbefore hstart]
  · rw [hmarker]
    push_cast
    rfl
  · rw [htext]
    omega
  · have hcast : ((Tabs.width doc.tabWidth start.margin : Int) + start.marker.length +
          start.gap.length = doc.columnOf (doc.source.rowStart before + start.textStart : Nat)) ↔
        Tabs.widthFrom doc.tabWidth (Tabs.width doc.tabWidth start.margin + start.marker.length)
          start.gap = start.gap.length := by
      rw [htext]
      omega
    rw [hcast, hiff]
    constructor
    · intro hstops front back hsplit
      rw [columnOf_behind_marker htab hlines hstart hsplit]
      exact hstops front back hsplit
    · intro hstops front back hsplit
      have hstop := hstops front back hsplit
      rwa [columnOf_behind_marker htab hlines hstart hsplit] at hstop

/-! ### Blanks behind a marker -/

/-- An action that goes by the comment before. -/
def belowComment : IndentAction := { anchor := .commentText }

def wordTree : Tree := .node ⟨0, "module", 0, 1, true, none, false⟩ []

/-- The row `x` behind a blank row and a comment with a tab that takes one column. -/
def spacedDocument : Document :=
  Target.plainDocument [32, 32, 47, 47, 32, 32, 32, 9, 32, 110, 10, 32, 10, 120] wordTree

theorem commentText_column_spaced :
    Opens ⟨[' ', ' '], ['/', '/'], [' ', ' ', ' ', '\t', ' ']⟩
        (spacedDocument.source.rowBytes 0) [110] ∧
      Unmarked (spacedDocument.source.rowBytes 2) ∧ spacedDocument.source.LastInked 0 2 ∧
      ofAnchor spacedDocument (Target.ofRowAt spacedDocument 2) 4 belowComment =
        .ok (spacedDocument.columnOf 9) := by
  have hstart : Opens ⟨[' ', ' '], ['/', '/'], [' ', ' ', ' ', '\t', ' ']⟩
      (spacedDocument.source.rowBytes 0) [110] :=
    ⟨rfl, by simp [isSpace], ⟨(['/', '/'], '/'), by decide, 0, rfl, nofun⟩, by simp [isSpace],
      by decide⟩
  have hunmarked : Unmarked (spacedDocument.source.rowBytes 2) := by
    rw [unmarked_iff]
    rfl
  have hbefore : spacedDocument.source.LastInked 0 2 := by
    refine ⟨by decide, by decide, ?_⟩
    intro other hlow hhigh
    obtain rfl : other = 1 := by omega
    rfl
  have hanchor : belowComment.anchor = .commentText := rfl
  have htarget : (Target.ofRowAt spacedDocument 2).row = some ((2 : Nat) : Int) := rfl
  obtain ⟨column, hcolumn, hsum, -⟩ := commentText_column 4 hanchor (by decide) (by decide) htarget
    hunmarked hbefore hstart
  have hrow : spacedDocument.source.rowOf 4 = 0 ∧ spacedDocument.source.rowOf 9 = 0 :=
    ⟨Source.rowOf_natCast _ 4, Source.rowOf_natCast _ 9⟩
  have hmarker : spacedDocument.columnOf 4 = 4 := by
    rw [Document.columnOf, Source.columnOf, hrow.1]
    rfl
  have htext : spacedDocument.columnOf 9 = 9 := by
    rw [Document.columnOf, Source.columnOf, hrow.2]
    rfl
  have hsum : column = spacedDocument.columnOf 4 + 5 := hsum
  refine ⟨hstart, hunmarked, hbefore, ?_⟩
  rw [hcolumn, hsum, hmarker, htext]
  rfl

/-- The row `#` with a tab and a word, and the row `x`. -/
def tabbedDocument : Document := Target.plainDocument [35, 9, 110, 10, 120] wordTree

/-- Behind a tab the line is not put below the text of the comment. -/
theorem commentText_before_text :
    Opens ⟨[], ['#'], ['\t']⟩ (tabbedDocument.source.rowBytes 0) [110] ∧
      Unmarked (tabbedDocument.source.rowBytes 1) ∧ tabbedDocument.source.LastInked 0 1 ∧
      ofAnchor tabbedDocument (Target.ofRowAt tabbedDocument 1) 4 belowComment = .ok 2 ∧
      tabbedDocument.columnOf 2 = 8 := by
  have hrow : tabbedDocument.source.rowOf 2 = 0 := Source.rowOf_natCast tabbedDocument.source 2
  refine ⟨⟨rfl, by simp, ⟨(['#'], '#'), by decide, 0, rfl, nofun⟩, by simp [isSpace], by decide⟩,
    ?_, ⟨by decide, by decide, ?_⟩, rfl, ?_⟩
  · rw [unmarked_iff]
    rfl
  · intro other hlow hhigh
    omega
  · rw [Document.columnOf, Source.columnOf, hrow]
    rfl

end Column

end TreeRules
