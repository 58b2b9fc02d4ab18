import TreeRules.Document
import TreeRules.Proofs.Source.Rows
import TreeRules.Proofs.Tree.Relocation

/-! # Moving a row to another column

A row is moved by putting spaces in place of the blanks it starts with. The bytes in front of the
row stay as they are, and those from its text on move together, with the nodes that cover them. So a
source is looked at as three parts, of which a move exchanges the one in the middle.
-/
namespace TreeRules

namespace Source

/-- A source in three parts: what stands before a row, the blanks at the start of the row, and the
rest, which starts with the text of the row. -/
structure RowSplit (source : Source) (row : Nat) (front margin rest : List UInt8) : Prop where
  bytes : source.bytes = front ++ (margin ++ rest)
  count : front.count lineFeed = row
  start : (ofBytes front).rowStart row = front.length
  spaces : ∀ byte ∈ margin, byte = 32 ∨ byte = 9
  inked : ∃ ink tail, rest = ink :: tail ∧ ink ≠ lineFeed ∧ Blank.isMargin ink = false

namespace RowSplit

variable {source : Source} {row : Nat} {front margin rest : List UInt8}

/-- What holds of a space and of a tab holds of the margin. -/
theorem forall_margin (h : source.RowSplit row front margin rest) {P : UInt8 → Prop}
    (hspace : P 32) (htab : P 9) : ∀ byte ∈ margin, P byte := by
  intro byte hbyte
  rcases h.spaces byte hbyte with rfl | rfl
  · exact hspace
  · exact htab

theorem count_margin (h : source.RowSplit row front margin rest) : margin.count lineFeed = 0 := by
  have hmargin : ∀ byte ∈ margin, byte ≠ lineFeed := h.forall_margin (by decide) (by decide)
  exact List.count_eq_zero.2 fun hmem => hmargin lineFeed hmem rfl

theorem rows (h : source.RowSplit row front margin rest) :
    source.rows = row + rest.count lineFeed + 1 := by
  rw [rows_eq, h.bytes, List.count_append, List.count_append, h.count, h.count_margin, Nat.zero_add]

theorem row_lt (h : source.RowSplit row front margin rest) : row < source.rows := by
  rw [h.rows]
  omega

theorem size (h : source.RowSplit row front margin rest) :
    source.size = front.length + margin.length + rest.length := by
  rw [Source.size, h.bytes, List.length_append, List.length_append, Nat.add_assoc]

theorem rowStart (h : source.RowSplit row front margin rest) :
    source.rowStart row = front.length :=
  (rowStart_of_append h.bytes h.count.ge).trans h.start

theorem drop_rowStart (h : source.RowSplit row front margin rest) :
    source.bytes.drop (source.rowStart row) = margin ++ rest := by
  rw [h.rowStart, h.bytes, List.drop_left]

theorem rowInk (h : source.RowSplit row front margin rest) :
    source.rowInk row = front.length + margin.length := by
  obtain ⟨ink, tail, hrest, -, hink⟩ := h.inked
  have hmargin : ∀ byte ∈ margin, Blank.isMargin byte = true :=
    h.forall_margin (by decide) (by decide)
  have hnone : rest.takeWhile Blank.isMargin = [] := by
    rw [hrest, List.takeWhile_cons, hink]
    rfl
  rw [rowInk_eq h.row_lt, h.drop_rowStart, h.rowStart, List.takeWhile_append_of_pos hmargin, hnone,
    List.append_nil]

theorem rowStop (h : source.RowSplit row front margin rest) :
    source.rowStop row =
      front.length + margin.length + (rest.takeWhile (· != lineFeed)).length := by
  have hmargin : ∀ byte ∈ margin, (byte != lineFeed) = true :=
    h.forall_margin (by decide) (by decide)
  rw [rowStop_eq h.row_lt, h.drop_rowStart, h.rowStart, List.takeWhile_append_of_pos hmargin,
    List.length_append, Nat.add_assoc]

theorem rowInk_ne_rowStop (h : source.RowSplit row front margin rest) :
    source.rowInk row ≠ source.rowStop row := by
  obtain ⟨ink, tail, hrest, hink, -⟩ := h.inked
  rw [h.rowInk, h.rowStop, hrest, List.takeWhile_cons, if_pos (bne_iff_ne.2 hink),
    List.length_cons]
  omega

theorem isBlank (h : source.RowSplit row front margin rest) :
    source.isBlank = (front.all Blank.isBlankByte && rest.all Blank.isBlankByte) := by
  have hmargin : margin.all Blank.isBlankByte = true :=
    List.all_eq_true.2 (h.forall_margin (by decide) (by decide))
  rw [Source.isBlank, h.bytes, List.all_append, List.all_append, hmargin, Bool.true_and]

/-- The text behind the margin, by the distance from its start. -/
theorem textOf_rest (h : source.RowSplit row front margin rest) (start stop : Nat) :
    source.textOf (source.rowInk row + start : Nat) (source.rowInk row + stop : Nat) =
      Utf8.decode ((rest.take stop).drop start) := by
  have hlength : (front ++ margin).length = front.length + margin.length := List.length_append
  rw [textOf_natCast, h.bytes, ← List.append_assoc, h.rowInk, ← hlength,
    List.take_length_add_append, List.drop_length_add_append]

theorem decode_margin_append (h : source.RowSplit row front margin rest) (text : List UInt8) :
    Utf8.decode (margin ++ text) =
      margin.map (fun byte => Char.ofNat byte.toNat) ++ Utf8.decode text :=
  Utf8.decode_ascii_append (h.forall_margin (by decide) (by decide)) text

theorem textOf_row (h : source.RowSplit row front margin rest) :
    source.textOf (source.rowStart row) (source.rowStop row) =
      margin.map (fun byte => Char.ofNat byte.toNat) ++
        Utf8.decode (rest.takeWhile (· != lineFeed)) := by
  have htext : rest.take (rest.takeWhile (· != lineFeed)).length =
      rest.takeWhile (· != lineFeed) :=
    (List.prefix_iff_eq_take.1 (List.takeWhile_prefix _)).symm
  rw [textOf_natCast, h.rowStart, h.rowStop, h.bytes, Nat.add_assoc, List.take_length_add_append,
    List.drop_left, List.take_length_add_append, htext, h.decode_margin_append]

theorem rowColumn (h : source.RowSplit row front margin rest) (tabWidth : Int) :
    source.rowColumn tabWidth row =
      Tabs.width tabWidth (margin.map fun byte => Char.ofNat byte.toNat) := by
  have htake : source.bytes.take (source.rowInk row) = front ++ margin := by
    rw [h.rowInk, h.bytes, List.take_length_add_append, List.take_left]
  have hrow : source.rowOf (source.rowInk row) = row := by
    rw [rowOf_natCast, htake, List.count_append, h.count, h.count_margin, Nat.add_zero]
  have hnil := h.decode_margin_append []
  rw [List.append_nil] at hnil
  rw [Source.rowColumn, columnOf, hrow, textOf_natCast, htake, h.rowStart, List.drop_left, hnil]
  congr 1
  exact List.append_nil _

end RowSplit

/-- A line that goes on behind its margin does so with a byte that is no margin. -/
theorem dropWhile_isMargin_of_ne {line : List UInt8}
    (h : (line.takeWhile Blank.isMargin).length ≠ (line.takeWhile (· != lineFeed)).length) :
    ∃ ink tail, line.dropWhile Blank.isMargin = ink :: tail ∧ ink ≠ lineFeed ∧
      Blank.isMargin ink = false := by
  induction line with
  | nil => exact absurd rfl h
  | cons byte line ih =>
    rw [List.takeWhile_cons, List.takeWhile_cons] at h
    rw [List.dropWhile_cons]
    by_cases hfeed : byte = lineFeed
    · subst hfeed
      exact absurd rfl h
    · rw [if_pos (bne_iff_ne.2 hfeed)] at h
      split
      next hmargin =>
        rw [if_pos hmargin, List.length_cons, List.length_cons] at h
        exact ih fun heq => h (congrArg (· + 1) heq)
      next hmargin => exact ⟨byte, line, rfl, hfeed, Bool.not_eq_true _ ▸ hmargin⟩

/-- A row with text that starts with spaces and tabs only splits its source. -/
theorem rowSplit_of_inked {source : Source} {row : Nat} (hrow : row < source.rows)
    (hinked : source.rowInk row ≠ source.rowStop row)
    (hspaces : ∀ byte ∈ (source.bytes.take (source.rowInk row)).drop (source.rowStart row),
      byte = 32 ∨ byte = 9) :
    source.RowSplit row (source.bytes.take (source.rowStart row))
      ((source.bytes.take (source.rowInk row)).drop (source.rowStart row))
      (source.bytes.drop (source.rowInk row)) := by
  have hstart := rowStart_le_rowInk hrow
  have hink := rowInk_le_size hrow
  have hlength : (source.bytes.take (source.rowStart row)).length = source.rowStart row := by
    rw [List.length_take]
    exact Nat.min_eq_left (hstart.trans hink)
  have hcount := count_take_rowStart hrow
  refine ⟨?_, hcount, ?_, hspaces, ?_⟩
  · have hmargin : source.bytes.take (source.rowStart row) ++
        (source.bytes.take (source.rowInk row)).drop (source.rowStart row) =
          source.bytes.take (source.rowInk row) := by
      rw [← List.take_append_drop (source.rowStart row) (source.bytes.take (source.rowInk row)),
        List.take_take, Nat.min_eq_left hstart]
      simp [hlength]
    rw [← List.append_assoc, hmargin, List.take_append_drop]
  · rw [← rowStart_of_append (List.take_append_drop _ _).symm hcount.ge, hlength]
  · rw [rowInk_eq hrow, rowStop_eq hrow] at hinked
    have hline := dropWhile_isMargin_of_ne fun heq =>
      hinked (congrArg (source.rowStart row + ·) heq)
    have hsplit := List.takeWhile_append_dropWhile (p := Blank.isMargin)
      (l := source.bytes.drop (source.rowStart row))
    have hdrop : source.bytes.drop (source.rowInk row) =
        (source.bytes.drop (source.rowStart row)).dropWhile Blank.isMargin := by
      rw [rowInk_eq hrow, ← List.drop_drop]
      nth_rewrite 2 [← hsplit]
      exact List.drop_left
    rw [hdrop]
    exact hline

/-! ## The move -/

/-- The source with spaces in place of the blanks at the start of a row. -/
def reindent (source : Source) (row column : Nat) : Source :=
  ofBytes (source.bytes.take (source.rowStart row) ++
    (List.replicate column 32 ++ source.bytes.drop (source.rowInk row)))

/-- Where an offset goes when the text of a row moves to a column. -/
def moved (source : Source) (row column byte : Nat) : Nat :=
  if byte < source.rowInk row then byte
  else source.rowStart row + column + (byte - source.rowInk row)

variable {source : Source} {row : Nat} {front margin rest : List UInt8}

theorem moved_of_lt {byte : Nat} (h : byte < source.rowInk row) (column : Nat) :
    source.moved row column byte = byte := if_pos h

theorem moved_of_le {byte : Nat} (h : source.rowInk row ≤ byte) (column : Nat) :
    source.moved row column byte = source.rowStart row + column + (byte - source.rowInk row) :=
  if_neg (Nat.not_lt.2 h)

theorem moved_of_lt_rowStart (hrow : row < source.rows) {byte : Nat}
    (h : byte < source.rowStart row) (column : Nat) : source.moved row column byte = byte :=
  moved_of_lt (h.trans_le (rowStart_le_rowInk hrow)) column

namespace RowSplit

theorem reindent (h : source.RowSplit row front margin rest) (column : Nat) :
    (source.reindent row column).RowSplit row front (List.replicate column 32) rest := by
  refine ⟨?_, h.count, h.start, fun byte hbyte => .inl (List.eq_of_mem_replicate hbyte), h.inked⟩
  rw [Source.reindent, h.rowStart, h.rowInk, h.bytes, List.take_left,
    ← List.append_assoc front margin, ← List.length_append, List.drop_left]
  rfl

theorem rowInk_reindent (h : source.RowSplit row front margin rest) (column : Nat) :
    (source.reindent row column).rowInk row = source.rowStart row + column := by
  rw [(h.reindent column).rowInk, h.rowStart, List.length_replicate]

theorem rowColumn_reindent (h : source.RowSplit row front margin rest) (column : Nat)
    (tabWidth : Int) : (source.reindent row column).rowColumn tabWidth row = column := by
  rw [(h.reindent column).rowColumn, List.map_replicate]
  exact Tabs.widthFrom_spaces tabWidth 0 column

/-- The text of what lies behind the margin moves along. -/
theorem textOf_moved (h : source.RowSplit row front margin rest) (column : Nat) {start stop : Nat}
    (hstart : source.rowInk row ≤ start) (hstop : source.rowInk row ≤ stop) :
    (source.reindent row column).textOf (source.moved row column start)
      (source.moved row column stop) = source.textOf start stop := by
  have hnew := (h.reindent column).textOf_rest (start - source.rowInk row)
    (stop - source.rowInk row)
  have hold := h.textOf_rest (start - source.rowInk row) (stop - source.rowInk row)
  rw [h.rowInk_reindent, ← moved_of_le hstart, ← moved_of_le hstop] at hnew
  rw [Nat.add_sub_cancel' hstart, Nat.add_sub_cancel' hstop] at hold
  exact hnew.trans hold.symm

theorem rowStop_moved (h : source.RowSplit row front margin rest) (column : Nat) :
    (source.reindent row column).rowStop row = source.moved row column (source.rowStop row) := by
  have hle : source.rowInk row ≤ source.rowStop row := by
    rw [h.rowInk, h.rowStop]
    exact Nat.le_add_right _ _
  rw [moved_of_le hle, (h.reindent column).rowStop, h.rowStop, h.rowInk, h.rowStart,
    List.length_replicate, Nat.add_sub_cancel_left]

theorem size_moved (h : source.RowSplit row front margin rest) (column : Nat) :
    (source.reindent row column).size = source.moved row column source.size := by
  have hle : source.rowInk row ≤ source.size := rowInk_le_size h.row_lt
  rw [moved_of_le hle, (h.reindent column).size, h.size, h.rowInk, h.rowStart,
    List.length_replicate, Nat.add_sub_cancel_left]

/-! ### In front of the row -/

theorem rowOf_reindent (h : source.RowSplit row front margin rest) (column : Nat) {byte : Nat}
    (hbyte : byte ≤ source.rowStart row) :
    (source.reindent row column).rowOf byte = source.rowOf byte := by
  rw [h.rowStart] at hbyte
  rw [rowOf_of_append (h.reindent column).bytes hbyte, rowOf_of_append h.bytes hbyte]

theorem columnOf_reindent (h : source.RowSplit row front margin rest) (column : Nat) {byte : Nat}
    (hbyte : byte ≤ source.rowStart row) (tabWidth : Int) :
    (source.reindent row column).columnOf tabWidth byte = source.columnOf tabWidth byte := by
  rw [h.rowStart] at hbyte
  rw [columnOf_of_append (h.reindent column).bytes hbyte, columnOf_of_append h.bytes hbyte]

variable {before : Nat}

theorem rowInk_reindent_of_lt (h : source.RowSplit row front margin rest) (column : Nat)
    (hbefore : before < row) :
    (source.reindent row column).rowInk before = source.rowInk before := by
  rw [← h.count] at hbefore
  rw [rowInk_of_append (h.reindent column).bytes hbefore, rowInk_of_append h.bytes hbefore]

theorem rowStop_reindent_of_lt (h : source.RowSplit row front margin rest) (column : Nat)
    (hbefore : before < row) :
    (source.reindent row column).rowStop before = source.rowStop before := by
  rw [← h.count] at hbefore
  rw [(rowStop_of_append (h.reindent column).bytes hbefore).1,
    (rowStop_of_append h.bytes hbefore).1]

theorem rowColumn_reindent_of_lt (h : source.RowSplit row front margin rest) (column : Nat)
    (hbefore : before < row) (tabWidth : Int) :
    (source.reindent row column).rowColumn tabWidth before = source.rowColumn tabWidth before := by
  rw [← h.count] at hbefore
  rw [rowColumn_of_append (h.reindent column).bytes hbefore, rowColumn_of_append h.bytes hbefore]

theorem textOf_row_reindent_of_lt (h : source.RowSplit row front margin rest) (column : Nat)
    (hbefore : before < row) :
    (source.reindent row column).textOf ((source.reindent row column).rowStart before)
        ((source.reindent row column).rowStop before) =
      source.textOf (source.rowStart before) (source.rowStop before) := by
  rw [rowStop_reindent_of_lt h column hbefore]
  rw [← h.count] at hbefore
  have hstop := (rowStop_of_append h.bytes hbefore).2
  rw [rowStart_of_append (h.reindent column).bytes hbefore.le,
    rowStart_of_append h.bytes hbefore.le,
    textOf_of_append (h.reindent column).bytes hstop, textOf_of_append h.bytes hstop]

end RowSplit

/-- A node that neither starts nor ends in the margin stands to the text of the row as the moved
node stands to the moved text. -/
theorem tracks_moved (hrow : row < source.rows) (column : Nat) {node : Tree}
    (hfilled : node.start < node.stop)
    (hstart : ¬(source.rowStart row ≤ node.start ∧ node.start < source.rowInk row))
    (hstop : ¬(source.rowStart row < node.stop ∧ node.stop < source.rowInk row)) :
    Tree.Tracks (source.moved row column) (source.rowInk row) (source.rowStart row + column)
      node := by
  have hle := rowStart_le_rowInk hrow
  have hcases : ∀ byte, byte < source.rowInk row ∧ source.moved row column byte = byte ∨
      source.rowInk row ≤ byte ∧ source.moved row column byte =
        source.rowStart row + column + (byte - source.rowInk row) := by
    intro byte
    rcases Nat.lt_or_ge byte (source.rowInk row) with hlt | hge
    · exact .inl ⟨hlt, moved_of_lt hlt column⟩
    · exact .inr ⟨hge, moved_of_le hge column⟩
  have hmovedStart := hcases node.start
  have hmovedStop := hcases node.stop
  constructor <;> omega

end Source

namespace Document

/-- The document with the text of a row moved to a column and every offset from there on with it;
another source may mean other captures. -/
def reindent (doc : Document) (row column : Nat)
    (captures : String → Option (Int × Int) → List (String × List Place)) : Document :=
  { doc with
    source := doc.source.reindent row column
    tree := doc.tree.relocate (doc.source.moved row column)
    captures := captures }

end Document

end TreeRules
