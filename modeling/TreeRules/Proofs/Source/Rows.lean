import Mathlib.Data.List.TakeWhile
import Mathlib.Tactic.Common
import TreeRules.Source

/-! # Rows and line feeds

Every fact about rows is a fact about line feeds. A source has one row more than it has line feeds,
the row of a byte is the number of line feeds in front of it, and a row reaches from its start to
the next line feed. The rows that are complete in the front of a source do not depend on what comes
after it.
-/
namespace TreeRules

/-! ## Starts after line feeds -/

theorem startsAfter_append (offset : Nat) (xs ys : List UInt8) :
    startsAfter offset (xs ++ ys) =
      startsAfter offset xs ++ startsAfter (offset + xs.length) ys := by
  induction xs generalizing offset with
  | nil => simp [startsAfter]
  | cons byte rest ih =>
    have hoffset : offset + 1 + rest.length = offset + (rest.length + 1) := by omega
    simp only [List.cons_append, startsAfter, ih, List.length_cons, hoffset]
    split <;> rfl

theorem length_startsAfter (offset : Nat) (bytes : List UInt8) :
    (startsAfter offset bytes).length = bytes.count lineFeed := by
  induction bytes generalizing offset with
  | nil => rfl
  | cons byte rest ih =>
    rw [startsAfter, List.count_cons]
    split
    next h => simp [h, ih]
    next h => simp [h, ih]

theorem startsAfter_bounds {offset start : Nat} {bytes : List UInt8}
    (h : start ∈ startsAfter offset bytes) : offset < start ∧ start ≤ offset + bytes.length := by
  induction bytes generalizing offset with
  | nil => simp [startsAfter] at h
  | cons byte rest ih =>
    have hrest : start ∈ startsAfter (offset + 1) rest → offset < start ∧
        start ≤ offset + (rest.length + 1) := by
      intro hm
      have hbounds := ih hm
      omega
    rw [startsAfter] at h
    rw [List.length_cons]
    split at h
    · rcases List.mem_cons.1 h with rfl | h
      · omega
      · exact hrest h
    · exact hrest h

theorem startsAfter_increasing (offset : Nat) (bytes : List UInt8) :
    (startsAfter offset bytes).Pairwise (· < ·) := by
  induction bytes generalizing offset with
  | nil => exact .nil
  | cons byte rest ih =>
    rw [startsAfter]
    split
    · exact List.pairwise_cons.2 ⟨fun start hm => (startsAfter_bounds hm).1, ih _⟩
    · exact ih _

/-- The first start lies behind the first line feed. -/
theorem head?_startsAfter (offset : Nat) (bytes : List UInt8) :
    (startsAfter offset bytes).head? =
      if lineFeed ∈ bytes then some (offset + (bytes.takeWhile (· != lineFeed)).length + 1)
      else none := by
  induction bytes generalizing offset with
  | nil => simp [startsAfter]
  | cons byte rest ih =>
    rw [startsAfter]
    by_cases h : byte = lineFeed
    · simp [h]
    · have h' : lineFeed ≠ byte := Ne.symm h
      simp only [h, h', if_false, ih, List.mem_cons, false_or, List.takeWhile_cons, bne_iff_ne,
        ne_eq, not_false_eq_true, if_true, List.length_cons]
      split
      · congr 1
        omega
      · rfl

theorem rowStarts_append (xs ys : List UInt8) :
    rowStarts (xs ++ ys) = rowStarts xs ++ startsAfter xs.length ys := by
  simp [rowStarts, startsAfter_append]

theorem length_rowStarts (bytes : List UInt8) :
    (rowStarts bytes).length = bytes.count lineFeed + 1 := by
  simp [rowStarts, length_startsAfter]

theorem rowStarts_increasing (bytes : List UInt8) : (rowStarts bytes).Pairwise (· < ·) :=
  List.pairwise_cons.2
    ⟨fun _ hm => (startsAfter_bounds hm).1, startsAfter_increasing 0 bytes⟩

theorem le_length_of_mem_rowStarts {start : Nat} {bytes : List UInt8}
    (h : start ∈ rowStarts bytes) : start ≤ bytes.length := by
  rcases List.mem_cons.1 h with rfl | h
  · exact Nat.zero_le _
  · have hbounds := startsAfter_bounds h
    omega

namespace Source

variable {source : Source} {row byte : Nat}

theorem rows_eq (source : Source) : source.rows = source.bytes.count lineFeed + 1 := by
  rw [rows, source.starts_eq, List.size_toArray, length_rowStarts]

theorem rows_pos (source : Source) : 0 < source.rows := by
  rw [rows_eq]
  exact Nat.succ_pos _

theorem rowStart_eq (source : Source) (row : Nat) :
    source.rowStart row = (rowStarts source.bytes)[row]?.getD 0 := by
  simp [rowStart, source.starts_eq]

theorem rowStart_mem (h : row < source.rows) : source.rowStart row ∈ rowStarts source.bytes := by
  rw [rows_eq, ← length_rowStarts] at h
  rw [rowStart_eq, List.getElem?_eq_getElem h]
  exact List.getElem_mem h

theorem rowStart_le_size (h : row < source.rows) : source.rowStart row ≤ source.size :=
  le_length_of_mem_rowStarts (rowStart_mem h)

theorem rowStart_lt_rowStart {other : Nat} (h : row < other) (hother : other < source.rows) :
    source.rowStart row < source.rowStart other := by
  rw [rows_eq, ← length_rowStarts] at hother
  have hrow : row < (rowStarts source.bytes).length := by omega
  rw [rowStart_eq, rowStart_eq, List.getElem?_eq_getElem hother, List.getElem?_eq_getElem hrow]
  exact List.pairwise_iff_getElem.1 (rowStarts_increasing _) row other hrow hother h

/-- The starts of the rows in the front of a source do not depend on the rest. -/
theorem rowStart_of_append {front rest : List UInt8} (h : source.bytes = front ++ rest)
    (hrow : row ≤ front.count lineFeed) : source.rowStart row = (ofBytes front).rowStart row := by
  have hlength : row < (rowStarts front).length := by
    rw [length_rowStarts]
    omega
  rw [rowStart_eq, rowStart_eq, h, rowStarts_append, List.getElem?_append_left hlength]
  rfl

/-! ## The row of a byte -/

/-- A row starts at a byte or before it if the line feeds in front of the byte reach up to it. -/
theorem rowStart_le_iff (hrow : row < source.rows) :
    source.rowStart row ≤ byte ↔ row ≤ (source.bytes.take byte).count lineFeed := by
  have hsplit := rowStarts_append (source.bytes.take byte) (source.bytes.drop byte)
  rw [List.take_append_drop] at hsplit
  rw [rows_eq, ← length_rowStarts] at hrow
  rw [rowStart_eq, List.getElem?_eq_getElem hrow, Option.getD_some]
  constructor
  · intro hle
    by_contra hmore
    -- Such a row starts behind the byte.
    have hbehind : (rowStarts source.bytes)[row] ∈
        startsAfter (source.bytes.take byte).length (source.bytes.drop byte) := by
      have hfront : (rowStarts (source.bytes.take byte)).length ≤ row := by
        rw [length_rowStarts]
        omega
      simp only [hsplit, List.getElem_append_right hfront]
      exact List.getElem_mem _
    have hbounds := startsAfter_bounds hbehind
    rw [List.length_take, List.length_drop] at hbounds
    omega
  · intro hle
    have hfront : row < (rowStarts (source.bytes.take byte)).length := by
      rw [length_rowStarts]
      omega
    have hmem : (rowStarts source.bytes)[row] ∈ rowStarts (source.bytes.take byte) := by
      simp only [hsplit, List.getElem_append_left hfront]
      exact List.getElem_mem _
    have hbound := le_length_of_mem_rowStarts hmem
    rw [List.length_take] at hbound
    omega

/-- The search ends at the row up to which the rows start at the byte or before it. -/
theorem search_eq {starts : Array Nat} {byte : Int} {low high last : Nat} (hlow : low ≤ last)
    (hhigh : last ≤ high)
    (h : ∀ row, low < row → row ≤ high → ((starts.getD row 0 : Int) ≤ byte ↔ row ≤ last)) :
    search starts byte low high = last := by
  fun_induction search starts byte low high with
  | case1 low high hlt middle hle ih =>
    have hmiddle : middle ≤ last := (h middle (by omega) (by omega)).1 hle
    exact ih hmiddle hhigh fun row hrow => h row (by omega)
  | case2 low high hlt middle hgt ih =>
    have hmiddle : ¬middle ≤ last := fun hle => hgt ((h middle (by omega) (by omega)).2 hle)
    exact ih hlow (by omega) fun row hrow hle => h row hrow (by omega)
  | case3 low high hge => omega

/-- The row of a byte is the number of line feeds in front of it. -/
theorem rowOf_natCast (source : Source) (byte : Nat) :
    source.rowOf byte = (source.bytes.take byte).count lineFeed := by
  have hlast : (source.bytes.take byte).count lineFeed ≤ source.rows - 1 := by
    rw [rows_eq]
    exact (List.take_sublist byte source.bytes).count_le lineFeed
  refine search_eq (Nat.zero_le _) hlast fun row _ hrow => ?_
  have hpos := source.rows_pos
  have hrow : row < source.rows := by omega
  rw [← rowStart_le_iff hrow, rowStart]
  exact Int.ofNat_le

theorem rowOf_of_append {front rest : List UInt8} (h : source.bytes = front ++ rest)
    (hbyte : byte ≤ front.length) : source.rowOf byte = (ofBytes front).rowOf byte := by
  rw [rowOf_natCast, rowOf_natCast, h, List.take_append_of_le_length hbyte]
  rfl

/-- As many line feeds stand in front of a row as its number says. -/
theorem count_take_rowStart (h : row < source.rows) :
    (source.bytes.take (source.rowStart row)).count lineFeed = row := by
  have hle : row ≤ (source.bytes.take (source.rowStart row)).count lineFeed :=
    (rowStart_le_iff h).1 (Nat.le_refl _)
  have hrows : (source.bytes.take (source.rowStart row)).count lineFeed < source.rows := by
    rw [rows_eq]
    exact Nat.lt_succ_of_le ((List.take_sublist _ source.bytes).count_le lineFeed)
  by_contra hne
  have hlt := rowStart_lt_rowStart (Nat.lt_of_le_of_ne hle (Ne.symm hne)) hrows
  have hback := (rowStart_le_iff hrows).2 (Nat.le_refl _)
  omega

/-- A byte of an earlier row stands in front of a row. -/
theorem lt_rowStart_of_rowOf_lt (hrow : row < source.rows) (h : source.rowOf byte < row) :
    byte < source.rowStart row := by
  rw [rowOf_natCast] at h
  by_contra hge
  have hle := (rowStart_le_iff hrow).1 (Nat.le_of_not_lt hge)
  omega

theorem rowOf_lt_of_lt_rowStart (hrow : row < source.rows) (h : byte < source.rowStart row) :
    source.rowOf byte < row := by
  rw [rowOf_natCast]
  by_contra hge
  have hle := (rowStart_le_iff hrow).2 (Nat.le_of_not_lt hge)
  omega

/-! ## Where rows end -/

/-- A row reaches to the next line feed. -/
theorem rowStop_eq (h : row < source.rows) :
    source.rowStop row = source.rowStart row +
      ((source.bytes.drop (source.rowStart row)).takeWhile (· != lineFeed)).length := by
  have hsize := rowStart_le_size h
  have hfront : (source.bytes.take (source.rowStart row)).length = source.rowStart row := by
    rw [List.length_take]
    exact Nat.min_eq_left hsize
  have hsplit := rowStarts_append (source.bytes.take (source.rowStart row))
    (source.bytes.drop (source.rowStart row))
  rw [List.take_append_drop, hfront] at hsplit
  have hlength : (rowStarts (source.bytes.take (source.rowStart row))).length = row + 1 := by
    rw [length_rowStarts, count_take_rowStart h]
  have hrows : source.rows = row + 1 +
      (source.bytes.drop (source.rowStart row)).count lineFeed := by
    have hcount := congrArg List.length hsplit
    rw [List.length_append, hlength, length_rowStarts, length_startsAfter] at hcount
    rw [rows_eq]
    exact hcount
  have hnext : source.rowStart (row + 1) =
      (startsAfter (source.rowStart row)
        (source.bytes.drop (source.rowStart row))).head?.getD 0 := by
    rw [rowStart_eq, hsplit, List.getElem?_append_right (by omega), hlength, Nat.sub_self,
      List.head?_eq_getElem?]
  rw [rowStop, hnext, head?_startsAfter]
  by_cases hmem : lineFeed ∈ source.bytes.drop (source.rowStart row)
  · have hpos := List.count_pos_iff.2 hmem
    rw [if_pos (by omega), if_pos hmem, Option.getD_some]
    omega
  · have hzero := List.count_eq_zero.2 hmem
    have hall : (source.bytes.drop (source.rowStart row)).takeWhile (· != lineFeed) =
        source.bytes.drop (source.rowStart row) := by
      rw [List.takeWhile_eq_self_iff]
      intro byte hbyte
      exact bne_iff_ne.2 fun heq => hmem (heq ▸ hbyte)
    rw [if_neg (by omega), hall, List.length_drop]
    unfold size at *
    omega

/-- The text of a row starts behind the margin that follows its start. -/
theorem rowInk_eq (h : row < source.rows) :
    source.rowInk row = source.rowStart row +
      ((source.bytes.drop (source.rowStart row)).takeWhile Blank.isMargin).length := by
  rw [rowInk, firstInk, rowStop_eq h, List.drop_take, Nat.add_sub_cancel_left,
    ← List.prefix_iff_eq_take.1 (List.takeWhile_prefix _), List.takeWhile_takeWhile]
  congr 3
  funext byte
  by_cases hbyte : byte = lineFeed
  · subst hbyte
    rfl
  · simp [hbyte]

theorem rowStart_le_rowInk (h : row < source.rows) : source.rowStart row ≤ source.rowInk row := by
  rw [rowInk_eq h]
  exact Nat.le_add_right _ _

theorem rowInk_le_size (h : row < source.rows) : source.rowInk row ≤ source.size := by
  have hstart := rowStart_le_size h
  have hmargin := (List.takeWhile_sublist (l := source.bytes.drop (source.rowStart row))
    Blank.isMargin).length_le
  rw [List.length_drop] at hmargin
  rw [rowInk_eq h]
  unfold size at *
  omega

theorem rowInk_le_rowStop (h : row < source.rows) : source.rowInk row ≤ source.rowStop row := by
  have hstop : source.rowStart row ≤ source.rowStop row := by
    rw [rowStop_eq h]
    exact Nat.le_add_right _ _
  have hmargin := (List.takeWhile_sublist
    (l := (source.bytes.take (source.rowStop row)).drop (source.rowStart row))
    Blank.isMargin).length_le
  have htaken := List.length_take_le (source.rowStop row) source.bytes
  rw [List.length_drop] at hmargin
  rw [rowInk, firstInk]
  omega

/-- The bytes of a row are those from its start up to the line feed that ends it. -/
theorem rowOf_eq_iff (hrow : row < source.rows) (hbyte : byte ≤ source.size) :
    source.rowOf byte = row ↔ source.rowStart row ≤ byte ∧ byte ≤ source.rowStop row := by
  rw [rowOf_natCast, rowStart_le_iff hrow, rowStop]
  by_cases hnext : row + 1 < source.rows
  · have hstarts : source.rowStart (row + 1) ≤ byte ↔
        row + 1 ≤ (source.bytes.take byte).count lineFeed := rowStart_le_iff hnext
    have hpos : source.rowStart row < source.rowStart (row + 1) :=
      rowStart_lt_rowStart (Nat.lt_succ_self row) hnext
    rw [if_pos hnext]
    omega
  · have hcount := (List.take_sublist byte source.bytes).count_le lineFeed
    rw [rows_eq] at hrow hnext
    rw [if_neg (by rwa [rows_eq])]
    omega

theorem rowOf_rowInk (h : row < source.rows) : source.rowOf (source.rowInk row) = row :=
  (rowOf_eq_iff h (rowInk_le_size h)).2 ⟨rowStart_le_rowInk h, rowInk_le_rowStop h⟩

theorem rowStart_le_rowStop (h : row < source.rows) : source.rowStart row ≤ source.rowStop row :=
  (rowStart_le_rowInk h).trans (rowInk_le_rowStop h)

theorem rowStop_le_size (h : row < source.rows) : source.rowStop row ≤ source.size := by
  have hstart := rowStart_le_size h
  have hline := (List.takeWhile_sublist (l := source.bytes.drop (source.rowStart row))
    (· != lineFeed)).length_le
  rw [List.length_drop] at hline
  rw [rowStop_eq h]
  unfold size at *
  omega

/-! ## The bytes of a row -/

/-- The bytes of a row without the line feed that ends it. -/
def rowBytes (source : Source) (row : Nat) : List UInt8 :=
  (source.bytes.take (source.rowStop row)).drop (source.rowStart row)

theorem length_rowBytes (h : row < source.rows) :
    (source.rowBytes row).length = source.rowStop row - source.rowStart row := by
  have hstop : source.rowStop row ≤ source.bytes.length := rowStop_le_size h
  simp only [rowBytes, List.length_drop, List.length_take]
  omega

theorem take_rowBytes {count : Nat} (h : source.rowStart row + count ≤ source.rowStop row) :
    (source.bytes.take (source.rowStart row + count)).drop (source.rowStart row) =
      (source.rowBytes row).take count := by
  have hcount : min count (source.rowStop row - source.rowStart row) = count := by omega
  rw [rowBytes, List.drop_take, List.drop_take, List.take_take, Nat.add_sub_cancel_left, hcount]

/-! ## Complete rows in the front of a source -/

section
variable {front rest : List UInt8}

theorem rowStop_of_append (h : source.bytes = front ++ rest) (hrow : row < front.count lineFeed) :
    source.rowStop row = (ofBytes front).rowStop row ∧ source.rowStop row ≤ front.length := by
  have hfront : row + 1 < (ofBytes front).rows := by
    rw [rows_eq]
    exact Nat.succ_lt_succ hrow
  have hsource : row + 1 < source.rows := by
    rw [rows_eq, h, List.count_append]
    omega
  have hsize := rowStart_le_size hfront
  have hstart : source.rowStart (row + 1) = (ofBytes front).rowStart (row + 1) :=
    rowStart_of_append h hrow
  rw [rowStop, rowStop, if_pos hsource, if_pos hfront, hstart]
  exact ⟨rfl, (Nat.sub_le _ _).trans hsize⟩

theorem rowInk_of_append (h : source.bytes = front ++ rest) (hrow : row < front.count lineFeed) :
    source.rowInk row = (ofBytes front).rowInk row := by
  obtain ⟨hstop, hle⟩ := rowStop_of_append h hrow
  rw [rowInk, rowInk, firstInk, firstInk, ← hstop, rowStart_of_append h (Nat.le_of_lt hrow), h,
    List.take_append_of_le_length hle]
  rfl

theorem textOf_natCast (source : Source) (start stop : Nat) :
    source.textOf start stop = Utf8.decode ((source.bytes.take stop).drop start) := by
  rw [textOf, Slice.cut_natCast]

theorem textOf_of_append (h : source.bytes = front ++ rest) {start stop : Nat}
    (hstop : stop ≤ front.length) :
    source.textOf start stop = (ofBytes front).textOf start stop := by
  rw [textOf_natCast, textOf_natCast, h, List.take_append_of_le_length hstop]
  rfl

theorem columnOf_of_append (h : source.bytes = front ++ rest) (hbyte : byte ≤ front.length)
    (tabWidth : Int) :
    source.columnOf tabWidth byte = (ofBytes front).columnOf tabWidth byte := by
  have hrow : (ofBytes front).rowOf byte ≤ front.count lineFeed := by
    rw [rowOf_natCast]
    exact (List.take_sublist byte front).count_le lineFeed
  rw [columnOf, columnOf, rowOf_of_append h hbyte, rowStart_of_append h hrow,
    textOf_of_append h hbyte]

theorem rowColumn_of_append (h : source.bytes = front ++ rest)
    (hrow : row < front.count lineFeed) (tabWidth : Int) :
    source.rowColumn tabWidth row = (ofBytes front).rowColumn tabWidth row := by
  have hink : (ofBytes front).rowInk row ≤ front.length := by
    refine rowInk_le_size ?_
    rw [rows_eq]
    exact Nat.lt_succ_of_lt hrow
  rw [rowColumn, rowColumn, rowInk_of_append h hrow, columnOf_of_append h hink]

end

theorem lineStart_natCast (h : row < source.rows) :
    source.lineStart row = .ok (source.rowStart row) := by
  simp only [lineStart, Slice.index?_natCast h]

theorem lineStop_natCast (source : Source) (row : Nat) :
    source.lineStop row = .ok (source.rowStop row : Int) := by
  unfold lineStop rowStop
  by_cases hnext : row + 1 < source.rows
  · have hstart : source.lineStart (row + 1 : Nat) = .ok (source.rowStart (row + 1)) :=
      lineStart_natCast hnext
    have hpos : 0 < source.rowStart (row + 1) :=
      Nat.lt_of_le_of_lt (Nat.zero_le _) (rowStart_lt_rowStart (Nat.lt_succ_self row) hnext)
    rw [if_pos (by exact_mod_cast hnext), if_pos hnext]
    rw [Int.natCast_add, Int.natCast_one] at hstart
    rw [hstart, Int.ofNat_sub hpos]
    rfl
  · rw [if_neg (by exact_mod_cast hnext), if_neg hnext]

theorem lineInk_natCast (h : row < source.rows) :
    source.lineInk row = .ok (source.rowInk row) := by
  rw [lineInk, lineStart_natCast h, lineStop_natCast]
  rfl

end Source

end TreeRules
