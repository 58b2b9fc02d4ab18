import Mathlib.Data.List.Infix
import TreeRules.Proofs.Source.Rows
import TreeRules.Proofs.Text.Columns

/-! # Columns along a row

The text in front of a byte is decoded for this byte alone. Where the byte stands in the middle of a
sequence, the text ends in a replacement character that is no part of the text in front of the next
byte. No column is lost by that: the replacement takes one column, and so does whatever comes in its
place, for a tab is never made of more than one byte. So columns do not decrease along a row, for any
bytes and any tab width.
-/
namespace TreeRules

namespace Tabs

variable {tabWidth : Int} {c : Char}

theorem one_le_widthFrom (h : c ≠ '\t') (column : Nat) (text : List Char) :
    1 ≤ widthFrom tabWidth column (c :: text) := by
  rw [widthFrom, if_neg h]
  split
  · exact Nat.le_add_right 1 _
  · exact Nat.le_add_right 1 _

end Tabs

/-! ## Text that is cut -/

namespace Utf8

variable {state : State} {front bytes : List UInt8}

/-- The characters that bytes behind a state give whatever follows them. -/
def settled (state : State) : List UInt8 → List Char
  | [] => []
  | byte :: rest => (step state byte).1 ++ settled (step state byte).2 rest

/-- The state to which bytes lead. -/
def stateAfter (state : State) (bytes : List UInt8) : State :=
  bytes.foldl (fun state byte => (step state byte).2) state

theorem decodeFrom_append (state : State) (front back : List UInt8) :
    decodeFrom state (front ++ back) =
      settled state front ++ decodeFrom (stateAfter state front) back := by
  induction front generalizing state with
  | nil => rfl
  | cons byte front ih =>
    rw [List.cons_append, decodeFrom, ih, settled, List.append_assoc]
    rfl

/-- A sequence that lacks bytes does not end in a plain character. -/
def State.Open : State → Prop
  | .boundary => True
  | .inside need low _ bits => Wide need low bits

theorem open_boundary : State.boundary.Open := trivial

theorem open_start (byte : UInt8) : (start byte).2.Open := by
  rcases start_cases byte with ⟨-, hstart⟩ | hstart | ⟨need, low, high, bits, hstart, hwide⟩
  · rw [hstart]
    exact open_boundary
  · rw [hstart]
    exact open_boundary
  · rw [hstart]
    exact hwide

theorem State.Open.step (h : state.Open) (byte : UInt8) : (step state byte).2.Open := by
  cases state with
  | boundary => exact open_start byte
  | inside need low high bits =>
    simp only [Utf8.step]
    split
    next hrange =>
      cases need with
      | zero => exact open_boundary
      | succ need => exact Wide.next h hrange.1
    next => exact open_start byte

theorem State.Open.stateAfter (h : state.Open) (bytes : List UInt8) :
    (stateAfter state bytes).Open := by
  induction bytes generalizing state with
  | nil => exact h
  | cons byte bytes ih => exact ih (h.step byte)

/-- Inside a sequence there is a character to come. -/
theorem decodeFrom_inside_ne_nil (need : Nat) (low high : UInt8) (bits : Nat)
    (bytes : List UInt8) : decodeFrom (.inside need low high bits) bytes ≠ [] := by
  induction bytes generalizing need low high bits with
  | nil => exact List.cons_ne_nil _ _
  | cons byte bytes ih =>
    simp only [decodeFrom, step]
    split
    · cases need with
      | zero => exact List.cons_ne_nil _ _
      | succ need => exact ih need _ _ _
    · exact List.cons_ne_nil _ _

variable {tabWidth : Int}

/-- What the end of the input leaves behind takes no more room than what more bytes would have
given. -/
theorem widthFrom_finish_le (h : state.Open) (column : Nat) (bytes : List UInt8) :
    Tabs.widthFrom tabWidth column (finish state) ≤
      Tabs.widthFrom tabWidth column (decodeFrom state bytes) := by
  cases state with
  | boundary => exact Nat.zero_le _
  | inside need low high bits =>
    obtain ⟨c, text, htext⟩ :=
      List.exists_cons_of_ne_nil (decodeFrom_inside_ne_nil need low high bits bytes)
    have htab : c ≠ '\t' := by
      rintro rfl
      exact not_plain_of_inside h htext (by decide)
    have hreplaced : Tabs.widthFrom tabWidth column [replacement] = 1 := by
      rw [Tabs.widthFrom, if_neg (by decide), if_neg (by decide), Tabs.widthFrom]
    rw [htext, finish, hreplaced]
    exact Tabs.one_le_widthFrom htab column text

theorem width_decode_le (h : front <+: bytes) :
    Tabs.width tabWidth (decode front) ≤ Tabs.width tabWidth (decode bytes) := by
  obtain ⟨back, rfl⟩ := h
  have hfront := decodeFrom_append .boundary front []
  rw [List.append_nil, decodeFrom] at hfront
  have hopen : (stateAfter .boundary front).Open := open_boundary.stateAfter front
  rw [decode, decode, hfront, decodeFrom_append, Tabs.width, Tabs.width,
    Tabs.widthFrom_append_eq, Tabs.widthFrom_append_eq]
  exact Nat.add_le_add_left (widthFrom_finish_le hopen _ back) _

end Utf8

/-! ## Columns of a row -/

namespace Source

variable {first last : Nat}

/-- Of two bytes in a row the later one does not stand in an earlier column. -/
theorem columnOf_mono (source : Source) (tabWidth : Int) (h : first ≤ last)
    (hrow : source.rowOf first = source.rowOf last) :
    source.columnOf tabWidth first ≤ source.columnOf tabWidth last := by
  have hcut : (source.bytes.take first).drop (source.rowStart (source.rowOf first)) <+:
      (source.bytes.take last).drop (source.rowStart (source.rowOf first)) :=
    (List.take_isPrefix_take.2 (.inl h)).drop _
  rw [columnOf, columnOf, ← hrow, textOf_natCast, textOf_natCast]
  exact Utf8.width_decode_le hcut

/-- An accented letter, a tab, two bytes of a sequence that lacks its third, a carriage return that
starts the stops afresh, and a tab again. -/
def cutSource : Source := ofBytes [0xC3, 0xA9, 9, 0xE2, 0x82, 13, 9, 97]

theorem columnOf_mono_cut :
    cutSource.rowOf 1 = cutSource.rowOf 7 ∧ cutSource.columnOf 4 1 ≤ cutSource.columnOf 4 7 ∧
      cutSource.columnOf (-1) 1 ≤ cutSource.columnOf (-1) 7 := by
  have hrow : cutSource.rowOf (1 : Nat) = cutSource.rowOf (7 : Nat) := by
    rw [rowOf_natCast, rowOf_natCast]
    decide
  exact ⟨hrow, cutSource.columnOf_mono 4 (by decide) hrow,
    cutSource.columnOf_mono (-1) (by decide) hrow⟩

end Source

end TreeRules
