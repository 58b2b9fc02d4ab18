import Mathlib.Algebra.Group.Nat.Defs
import Mathlib.Data.Nat.Log
import TreeRules.Proofs.Source.Rows

/-! # Rows as a partition of the source

The rows of a source are its pieces between line feeds: none of them has a line feed in it, and they
are joined by line feeds to the source again. The search for the row of a byte halves the rows that
are left in every round. So it ends, after no more rounds than the number of rows has binary digits.
-/
namespace TreeRules

namespace Source

variable {source : Source} {row : Nat}

/-! ## Pieces between line feeds -/

theorem rowBytes_eq_takeWhile (h : row < source.rows) :
    source.rowBytes row = (source.bytes.drop (source.rowStart row)).takeWhile (· != lineFeed) := by
  rw [rowBytes, List.drop_take, rowStop_eq h, Nat.add_sub_cancel_left]
  exact (List.prefix_iff_eq_take.1 (List.takeWhile_prefix _)).symm

theorem lineFeed_notMem_rowBytes (h : row < source.rows) : lineFeed ∉ source.rowBytes row := by
  rw [rowBytes_eq_takeWhile h]
  intro hmem
  have hne := List.mem_takeWhile_imp hmem
  exact bne_iff_ne.1 hne rfl

/-- From the start of a row on there are its bytes, and then what comes from its end on. -/
theorem drop_rowStart_eq (h : row < source.rows) :
    source.bytes.drop (source.rowStart row) =
      source.rowBytes row ++ source.bytes.drop (source.rowStop row) := by
  have hparts := List.take_append_drop (source.rowStop row - source.rowStart row)
    (source.bytes.drop (source.rowStart row))
  rw [List.drop_drop, Nat.add_sub_cancel' (rowStart_le_rowStop h)] at hparts
  rw [rowBytes, List.drop_take, hparts]

/-- A row that is not the last ends in a line feed, and the next one starts behind it. -/
theorem drop_rowStop_eq (h : row + 1 < source.rows) :
    source.bytes.drop (source.rowStop row) =
      lineFeed :: source.bytes.drop (source.rowStart (row + 1)) := by
  have hrow : row < source.rows := Nat.lt_of_succ_lt h
  have hnext : source.rowStop row + 1 = source.rowStart (row + 1) := by
    have hlt : source.rowStart row < source.rowStart (row + 1) :=
      rowStart_lt_rowStart (Nat.lt_succ_self row) h
    rw [rowStop, if_pos h]
    omega
  have hbound : source.rowStop row < source.bytes.length := by
    have hsize : source.rowStart (row + 1) ≤ source.bytes.length := rowStart_le_size h
    omega
  have hcons := List.drop_eq_getElem_cons hbound
  -- The first byte that does not belong to the row is not among those that are no line feeds.
  have hrest : source.bytes.drop (source.rowStop row) =
      (source.bytes.drop (source.rowStart row)).dropWhile (· != lineFeed) := by
    have hparts := drop_rowStart_eq hrow
    rw [rowBytes_eq_takeWhile hrow] at hparts
    refine List.append_cancel_left (hparts.symm.trans ?_)
    exact List.takeWhile_append_dropWhile.symm
  have hfeed := List.head?_dropWhile_not (· != lineFeed)
    (source.bytes.drop (source.rowStart row))
  rw [← hrest, hcons, List.head?_cons] at hfeed
  rw [hcons, hnext, bne_eq_false_iff_eq.1 hfeed]

theorem drop_rowStop_last (h : row + 1 = source.rows) :
    source.bytes.drop (source.rowStop row) = [] := by
  rw [rowStop, if_neg (by omega)]
  exact List.drop_length

/-- The rows from one on are joined to what comes from its start on. -/
theorem intercalate_rowBytes (later : Nat) (h : row + later + 1 = source.rows) :
    [lineFeed].intercalate ((List.range' row (later + 1)).map source.rowBytes) =
      source.bytes.drop (source.rowStart row) := by
  induction later generalizing row with
  | zero =>
    rw [drop_rowStart_eq (by omega), drop_rowStop_last h, List.append_nil]
    exact List.intercalate_singleton
  | succ later ih =>
    have hrest : (List.range' (row + 1) (later + 1)).map source.rowBytes ≠ [] := by simp
    have hjoin := ih (show row + 1 + later + 1 = source.rows by omega)
    have hrow : row < source.rows := by omega
    have hnext : row + 1 < source.rows := by omega
    rw [List.range'_succ, List.map_cons, List.intercalate_cons_of_ne_nil hrest, hjoin,
      drop_rowStart_eq hrow, drop_rowStop_eq hnext, List.append_assoc]
    rfl

theorem join_rowBytes (source : Source) :
    [lineFeed].intercalate ((List.range source.rows).map source.rowBytes) = source.bytes := by
  have hrows : 0 + source.bytes.count lineFeed + 1 = source.rows := by
    rw [rows_eq, Nat.zero_add]
  have hstart : source.rowStart 0 = 0 := by
    rw [rowStart_eq]
    rfl
  rw [List.range_eq_range', rows_eq, intercalate_rowBytes _ hrows, hstart, List.drop_zero]

/-! ## Rounds of the search -/

/-- A search between two rows ends in a row after some rounds. In each round it looks at the start
of the row in the middle, which has to be there. -/
inductive Narrows (starts : Array Nat) (byte : Int) : (rounds low high row : Nat) → Prop where
  | done {low high : Nat} (h : high ≤ low) : Narrows starts byte 0 low high low
  | later {rounds low high row start : Nat} (h : low < high)
      (hstart : starts[(low + high + 1) / 2]? = some start) (hle : (start : Int) ≤ byte)
      (hrest : Narrows starts byte rounds ((low + high + 1) / 2) high row) :
      Narrows starts byte (rounds + 1) low high row
  | earlier {rounds low high row start : Nat} (h : low < high)
      (hstart : starts[(low + high + 1) / 2]? = some start) (hlt : byte < (start : Int))
      (hrest : Narrows starts byte rounds low ((low + high + 1) / 2 - 1) row) :
      Narrows starts byte (rounds + 1) low high row

variable {starts : Array Nat} {byte : Int} {rounds low high limit : Nat}

/-- A round leaves at most half of the rows, on either side of the middle. -/
theorem halves_of_lt (h : low < high) (hlimit : high - low < 2 ^ limit) :
    ∃ fewer, limit = fewer + 1 ∧ high - (low + high + 1) / 2 < 2 ^ fewer ∧
      (low + high + 1) / 2 - 1 - low < 2 ^ fewer := by
  cases limit with
  | zero => omega
  | succ fewer =>
    rw [Nat.pow_succ] at hlimit
    exact ⟨fewer, rfl, by omega, by omega⟩

/-- A search among no more rows than a power of two needs no more rounds than its exponent says. -/
theorem narrows_search (hhigh : high < starts.size) : ∀ {limit : Nat}, high - low < 2 ^ limit →
    ∃ rounds ≤ limit, Narrows starts byte rounds low high (search starts byte low high) := by
  have there : ∀ {middle : Nat}, middle < starts.size →
      starts[middle]? = some (starts.getD middle 0) := by
    intro middle hmiddle
    simp [Array.getD, hmiddle]
  fun_induction search starts byte low high with
  | case1 low high hlt middle hle ih =>
    intro limit hlimit
    obtain ⟨fewer, rfl, hright, -⟩ := halves_of_lt hlt hlimit
    obtain ⟨rounds, hrounds, hrest⟩ := ih hhigh hright
    exact ⟨rounds + 1, by omega, .later hlt (there (by omega)) hle hrest⟩
  | case2 low high hlt middle hgt ih =>
    intro limit hlimit
    obtain ⟨fewer, rfl, -, hleft⟩ := halves_of_lt hlt hlimit
    obtain ⟨rounds, hrounds, hrest⟩ := ih (by omega) hleft
    exact ⟨rounds + 1, by omega, .earlier hlt (there (by omega)) (Int.not_le.1 hgt) hrest⟩
  | case3 low high hge =>
    intro limit _
    exact ⟨0, Nat.zero_le limit, .done (Nat.le_of_not_lt hge)⟩

theorem Narrows.search_eq (h : Narrows starts byte rounds low high row) :
    search starts byte low high = row := by
  induction h with
  | done h => rw [search, if_neg (Nat.not_lt.2 h)]
  | later h hstart hle _ ih =>
    rw [search, if_pos h]
    dsimp only
    rw [Array.getD_eq_getD_getElem?, hstart]
    exact (if_pos hle).trans ih
  | earlier h hstart hlt _ ih =>
    rw [search, if_pos h]
    dsimp only
    rw [Array.getD_eq_getD_getElem?, hstart]
    exact (if_neg (Int.not_le.2 hlt)).trans ih

/-- The row of a byte is the one in which the search over all rows ends. -/
theorem rowOf_eq_iff_narrows (source : Source) (byte : Int) (row : Nat) :
    source.rowOf byte = row ↔ ∃ rounds ≤ Nat.clog 2 source.rows,
      Narrows source.starts byte rounds 0 (source.rows - 1) row := by
  constructor
  · rintro rfl
    have hpos := source.rows_pos
    have hlimit : source.rows ≤ 2 ^ Nat.clog 2 source.rows := Nat.le_pow_clog (by decide) _
    have hlast : source.rows - 1 < source.starts.size := Nat.sub_one_lt_of_lt hpos
    exact narrows_search hlast (by omega)
  · rintro ⟨_, -, hends⟩
    exact hends.search_eq

/-! ## The partition -/

/-- The bytes of the rows have no line feeds in them and are joined by line feeds to the source. The
text of a row starts between the ends of the row. The search for the row of a byte ends, and it ends
in the row whose number is that of the line feeds in front of the byte, which is the row between
whose ends the byte lies. -/
theorem rows_partition (source : Source) :
    [lineFeed].intercalate ((List.range source.rows).map source.rowBytes) = source.bytes ∧
    (∀ row < source.rows,
      lineFeed ∉ source.rowBytes row ∧
      source.lineStart row = .ok (source.rowStart row) ∧
      source.lineInk row = .ok (source.rowInk row) ∧
      source.lineStop row = .ok (source.rowStop row : Int) ∧
      source.rowStart row ≤ source.rowInk row ∧ source.rowInk row ≤ source.rowStop row) ∧
    ∀ byte ≤ source.size,
      (∀ row, source.rowOf byte = row ↔ ∃ rounds ≤ Nat.clog 2 source.rows,
        Narrows source.starts byte rounds 0 (source.rows - 1) row) ∧
      source.rowOf byte = (source.bytes.take byte).count lineFeed ∧
      ∀ row < source.rows,
        source.rowOf byte = row ↔ source.rowStart row ≤ byte ∧ byte ≤ source.rowStop row := by
  refine ⟨source.join_rowBytes, fun row hrow => ?_, fun byte hbyte => ?_⟩
  · exact ⟨lineFeed_notMem_rowBytes hrow, lineStart_natCast hrow, lineInk_natCast hrow,
      source.lineStop_natCast row, rowStart_le_rowInk hrow, rowInk_le_rowStop hrow⟩
  · exact ⟨source.rowOf_eq_iff_narrows byte, source.rowOf_natCast byte,
      fun row hrow => rowOf_eq_iff hrow hbyte⟩

/-- A blank row between two others, and nothing behind the last line feed. -/
def looseSource : Source := ofBytes [97, 10, 10, 32, 98, 10]

theorem rows_partition_loose :
    2 < looseSource.rows ∧ 5 ≤ looseSource.size ∧
      (List.range looseSource.rows).map looseSource.rowBytes = [[97], [], [32, 98], []] ∧
      [lineFeed].intercalate ((List.range looseSource.rows).map looseSource.rowBytes) =
        looseSource.bytes ∧
      lineFeed ∉ looseSource.rowBytes 2 ∧ looseSource.lineInk 2 = .ok 4 ∧
      looseSource.rowOf 5 = 2 := by
  have hrow : 2 < looseSource.rows := by decide
  have hbyte : 5 ≤ looseSource.size := by decide
  obtain ⟨hjoin, hrows, hbytes⟩ := rows_partition looseSource
  obtain ⟨hfree, -, hink, -⟩ := hrows 2 hrow
  exact ⟨hrow, hbyte, by decide, hjoin, hfree, hink, ((hbytes 5 hbyte).2.2 2 hrow).2 (by decide)⟩

end Source

end TreeRules
