import Mathlib.Tactic.Common
import TreeRules.Proofs.Text.Encoding
import TreeRules.Text.Tabs

/-! # Plain characters and their columns

A character of the ASCII range is a byte of its own, in any surroundings: the other bytes of a
source never combine to one, whether they are well formed or not. So what a decoded text starts with
can be read off its bytes as far as it is plain. The columns that a text takes are counted piece by
piece; as long as no line ends in it, each piece starts where the columns of the one before end.
-/
namespace TreeRules

namespace Utf8

/-- A character of the ASCII range that is not the null character. -/
def Plain (c : Char) : Prop := 0 < c.toNat ∧ c.toNat < 0x80

instance (c : Char) : Decidable (Plain c) := inferInstanceAs (Decidable (_ ∧ _))

variable {bytes : List UInt8} {c : Char} {front text : List Char}

/-! ## Bytes of plain characters -/

theorem not_plain_replacement : ¬Plain replacement := by decide

theorem toNat_ofNat {n : Nat} (h : n.isValidChar) : (Char.ofNat n).toNat = n := by
  rw [Char.ofNat, dif_pos h]
  rfl

theorem not_plain_ofNat {n : Nat} (h : 0x80 ≤ n) : ¬Plain (Char.ofNat n) := by
  rintro ⟨hpos, hlt⟩
  by_cases hvalid : n.isValidChar
  · rw [toNat_ofNat hvalid] at hlt
    omega
  · rw [Char.ofNat, dif_neg hvalid] at hpos
    exact absurd hpos (by decide)

/-- A sequence that lacks bytes ends in a character beyond the ASCII range. -/
def Wide (need : Nat) (low : UInt8) (bits : Nat) : Prop :=
  2 ≤ bits * 64 + (low.toNat - 0x80) ∧ (need = 0 → 0x80 ≤ bits * 64 + (low.toNat - 0x80))

/-- A byte that can follow leaves such a sequence, one byte further. -/
theorem Wide.next {need bits : Nat} {low byte : UInt8} (h : Wide (need + 1) low bits)
    (hle : low ≤ byte) : Wide need 0x80 (bits * 64 + (byte.toNat - 0x80)) := by
  have hleast := h.1
  have hle : low.toNat ≤ byte.toNat := UInt8.le_iff_toNat_le.mp hle
  refine ⟨?_, fun _ => ?_⟩ <;> simp only [UInt8.reduceToNat] <;> omega

theorem start_cases (byte : UInt8) :
    (byte < 0x80 ∧ start byte = ([Char.ofNat byte.toNat], .boundary)) ∨
      start byte = ([replacement], .boundary) ∨
      ∃ need low high bits, start byte = ([], .inside need low high bits) ∧ Wide need low bits := by
  have hle : ∀ n : UInt8, ¬byte < n → n.toNat ≤ byte.toNat := by
    intro n hn
    exact Nat.not_lt.mp fun h => hn (UInt8.lt_iff_toNat_lt.mpr h)
  have hne : ∀ n : UInt8, byte ≠ n → byte.toNat ≠ n.toNat :=
    fun n hn h => hn (UInt8.toNat_inj.mp h)
  simp only [start]
  split
  next hone => exact .inl ⟨hone, rfl⟩
  refine .inr ?_
  split
  · exact .inl rfl
  next htwo =>
    have htwo : 0xC2 ≤ byte.toNat := hle 0xC2 htwo
    split
    · refine .inr ⟨_, _, _, _, rfl, ?_, fun _ => ?_⟩ <;> simp only [UInt8.reduceToNat] <;> omega
    next hthree =>
      have hthree : 0xE0 ≤ byte.toNat := hle 0xE0 hthree
      split
      · refine .inr ⟨_, _, _, _, rfl, ?_, nofun⟩
        split
        · simp only [UInt8.reduceToNat]
          omega
        next hother =>
          have hother : byte.toNat ≠ 0xE0 := hne 0xE0 hother
          omega
      next hfour =>
        have hfour : 0xF0 ≤ byte.toNat := hle 0xF0 hfour
        split
        · refine .inr ⟨_, _, _, _, rfl, ?_, nofun⟩
          split
          · simp only [UInt8.reduceToNat]
            omega
          next hother =>
            have hother : byte.toNat ≠ 0xF0 := hne 0xF0 hother
            omega
        · exact .inl rfl

/-- Inside a sequence the next character is not plain. -/
theorem not_plain_of_inside {need bits : Nat} {low high : UInt8} (hwide : Wide need low bits)
    (h : decodeFrom (.inside need low high bits) bytes = c :: text) : ¬Plain c := by
  induction bytes generalizing need low high bits with
  | nil =>
    simp only [decodeFrom, finish, List.cons.injEq] at h
    exact h.1 ▸ not_plain_replacement
  | cons byte rest ih =>
    simp only [decodeFrom, step] at h
    split at h
    next hrange =>
      cases need with
      | zero =>
        have hlast := hwide.2 rfl
        have hle : low.toNat ≤ byte.toNat := UInt8.le_iff_toNat_le.mp hrange.1
        simp only [List.cons_append, List.nil_append, List.cons.injEq] at h
        rw [← h.1]
        apply not_plain_ofNat
        omega
      | succ need =>
        simp only [List.nil_append] at h
        exact ih (hwide.next hrange.1) h
    next =>
      simp only [List.cons_append, List.cons.injEq] at h
      exact h.1 ▸ not_plain_replacement

theorem exists_byte_of_decode (hc : Plain c) (h : decode bytes = c :: text) :
    ∃ byte rest, bytes = byte :: rest ∧ byte < 0x80 ∧ Char.ofNat byte.toNat = c ∧
      decode rest = text := by
  cases bytes with
  | nil => cases h
  | cons byte rest =>
    simp only [decode, decodeFrom, step] at h
    rcases start_cases byte with ⟨hbyte, hstart⟩ | hstart | ⟨need, low, high, bits, hstart, hwide⟩
    · simp only [hstart, List.cons_append, List.nil_append, List.cons.injEq] at h
      exact ⟨byte, rest, rfl, hbyte, h⟩
    · simp only [hstart, List.cons_append, List.cons.injEq] at h
      exact absurd (h.1 ▸ hc) not_plain_replacement
    · simp only [hstart, List.nil_append] at h
      exact absurd hc (not_plain_of_inside hwide h)

theorem encode_cons (hc : Plain c) : encode (c :: front) = UInt8.ofNat c.toNat :: encode front := by
  have hascii : c.val.toNat ≤ 127 := Nat.le_of_lt_succ hc.2
  simp only [encode, List.flatMap_cons, String.utf8EncodeChar, if_pos hascii]
  rfl

theorem length_encode (h : ∀ c ∈ front, Plain c) : (encode front).length = front.length := by
  induction front with
  | nil => rfl
  | cons c front ih =>
    obtain ⟨hc, hfront⟩ := List.forall_mem_cons.mp h
    rw [encode_cons hc, List.length_cons, List.length_cons, ih hfront]

/-- A decoded text starts with plain characters just where the bytes start with theirs. -/
theorem decode_eq_append_iff (h : ∀ c ∈ front, Plain c) :
    decode bytes = front ++ text ↔ ∃ rest, bytes = encode front ++ rest ∧ decode rest = text := by
  constructor
  · intro hdecode
    induction front generalizing bytes with
    | nil => exact ⟨bytes, rfl, hdecode⟩
    | cons c front ih =>
      obtain ⟨hc, hfront⟩ := List.forall_mem_cons.mp h
      obtain ⟨byte, rest, rfl, hbyte, hsame, hrest⟩ := exists_byte_of_decode hc hdecode
      obtain ⟨tail, rfl, htail⟩ := ih hfront hrest
      refine ⟨tail, ?_, htail⟩
      have hback : UInt8.ofNat c.toNat = byte := by
        have hlt : byte.toNat < 0x80 := UInt8.lt_iff_toNat_lt.mp hbyte
        have hvalid : byte.toNat.isValidChar := Or.inl (Nat.lt_trans hlt (by decide))
        rw [← hsame, toNat_ofNat hvalid, UInt8.ofNat_toNat]
      rw [encode_cons hc, hback, List.cons_append]
  · rintro ⟨rest, rfl, rfl⟩
    exact decode_encode_append front rest

theorem head?_of_head?_decode (hc : Plain c) (h : (decode bytes).head? = some c) :
    bytes.head? = some (UInt8.ofNat c.toNat) := by
  obtain ⟨text, htext⟩ := List.head?_eq_some_iff.mp h
  obtain ⟨byte, rest, rfl, hbyte, rfl, -⟩ := exists_byte_of_decode hc htext
  have hlt : byte.toNat < 0x80 := UInt8.lt_iff_toNat_lt.mp hbyte
  rw [List.head?_cons, toNat_ofNat (Or.inl (Nat.lt_trans hlt (by decide))), UInt8.ofNat_toNat]

end Utf8

/-! ## Columns piece by piece -/

namespace Tabs

variable {tabWidth : Int} {front back text : List Char}

/-- Neither a line feed nor a carriage return is among the characters. -/
def OneLine (text : List Char) : Prop := ∀ c ∈ text, c ≠ '\n' ∧ c ≠ '\r'

/-- The column behind a text that starts at a column, as tab stops are counted. -/
def columnAfter (tabWidth : Int) (column : Nat) : List Char → Nat
  | [] => column
  | c :: rest =>
    if c = '\t' then columnAfter tabWidth (column + reach tabWidth column) rest
    else if c = '\n' ∨ c = '\r' then columnAfter tabWidth 0 rest
    else columnAfter tabWidth (column + 1) rest

/-- The second part of a text takes the room it needs from where the first part has led to, also if
stops have started afresh in between. -/
theorem widthFrom_append_eq (column : Nat) (front back : List Char) :
    widthFrom tabWidth column (front ++ back) =
      widthFrom tabWidth column front +
        widthFrom tabWidth (columnAfter tabWidth column front) back := by
  induction front generalizing column with
  | nil => simp [widthFrom, columnAfter]
  | cons c front ih =>
    simp only [List.cons_append, widthFrom, columnAfter]
    split
    · rw [ih, Nat.add_assoc]
    · split
      · rw [ih, Nat.add_assoc]
      · rw [ih, Nat.add_assoc]

theorem columnAfter_eq (h : OneLine text) (column : Nat) :
    columnAfter tabWidth column text = column + widthFrom tabWidth column text := by
  induction text generalizing column with
  | nil => rfl
  | cons c text ih =>
    obtain ⟨⟨hfeed, hreturn⟩, htext⟩ := List.forall_mem_cons.mp h
    simp only [columnAfter, widthFrom, hfeed, hreturn, or_self, if_false, ih htext]
    split <;> simp only [Nat.add_assoc]

theorem widthFrom_append (h : OneLine front) (column : Nat) :
    widthFrom tabWidth column (front ++ back) =
      widthFrom tabWidth column front +
        widthFrom tabWidth (column + widthFrom tabWidth column front) back := by
  rw [widthFrom_append_eq, columnAfter_eq h]

theorem reach_pos (h : 1 ≤ tabWidth) (column : Nat) : 1 ≤ reach tabWidth column := by
  have hlt := Nat.mod_lt column (show 0 < tabWidth.toNat by omega)
  rw [reach, if_pos (by omega)]
  omega

/-- A tab takes one column right before a tab stop. -/
theorem reach_eq_one_iff (h : 1 ≤ tabWidth) (column : Nat) :
    reach tabWidth column = 1 ↔ tabWidth ∣ (column : Int) + 1 := by
  obtain ⟨width, rfl⟩ := Int.eq_ofNat_of_zero_le (Int.le_trans (by decide) h)
  have hpos : 0 < width := by omega
  have hcast : (width : Int) ∣ (column : Int) + 1 ↔ width ∣ column + 1 := by
    exact_mod_cast Int.natCast_dvd_natCast
  have hlt := Nat.mod_lt column hpos
  rw [reach, if_pos (by omega), Int.toNat_natCast, hcast]
  constructor
  · intro hone
    have hsplit := Nat.div_add_mod column width
    refine ⟨column / width + 1, ?_⟩
    rw [Nat.mul_add]
    omega
  · rintro ⟨stop, hstop⟩
    cases stop with
    | zero => omega
    | succ stop =>
      have hcolumn : column = width * stop + (width - 1) := by
        rw [Nat.mul_add] at hstop
        omega
      rw [hcolumn, Nat.mul_add_mod, Nat.mod_eq_of_lt (by omega)]
      omega

theorem length_le_widthFrom (h : 1 ≤ tabWidth) (text : List Char) (column : Nat) :
    text.length ≤ widthFrom tabWidth column text := by
  induction text generalizing column with
  | nil => simp
  | cons c text ih =>
    have hreach := reach_pos h column
    simp only [widthFrom, List.length_cons]
    split
    · have htext := ih (column + reach tabWidth column)
      omega
    · split
      · have htext := ih 0
        omega
      · have htext := ih (column + 1)
        omega

/-- A line has as many columns as characters just if each of its tabs stands right before a tab
stop. -/
theorem widthFrom_eq_length_iff (h : 1 ≤ tabWidth) (htext : OneLine text) (column : Nat) :
    widthFrom tabWidth column text = text.length ↔ ∀ front back, text = front ++ '\t' :: back →
      tabWidth ∣ ((column + widthFrom tabWidth column front : Nat) : Int) + 1 := by
  induction text generalizing column with
  | nil => simp [widthFrom]
  | cons c text ih =>
    obtain ⟨⟨hfeed, hreturn⟩, hline⟩ := List.forall_mem_cons.mp htext
    by_cases htab : c = '\t'
    · subst htab
      have hreach := reach_pos h column
      have hle := length_le_widthFrom h text (column + reach tabWidth column)
      have hwidth : widthFrom tabWidth column ('\t' :: text) = text.length + 1 ↔
          reach tabWidth column = 1 ∧
            widthFrom tabWidth (column + reach tabWidth column) text = text.length := by
        simp only [widthFrom, if_true]
        omega
      rw [List.length_cons, hwidth, reach_eq_one_iff h, ih hline]
      constructor
      · rintro ⟨hfirst, hrest⟩ front back hsplit
        rcases List.cons_eq_append_iff.mp hsplit with ⟨rfl, -⟩ | ⟨front, rfl, htail⟩
        · simpa [widthFrom] using hfirst
        · simpa [widthFrom, Nat.add_assoc] using hrest front back htail
      · intro hall
        refine ⟨by simpa [widthFrom] using hall [] text rfl, ?_⟩
        intro front back hsplit
        have hfront := hall ('\t' :: front) back (by rw [hsplit, List.cons_append])
        simpa [widthFrom, Nat.add_assoc] using hfront
    · have hwidth : widthFrom tabWidth column (c :: text) = text.length + 1 ↔
          widthFrom tabWidth (column + 1) text = text.length := by
        simp only [widthFrom, htab, hfeed, hreturn, or_self, if_false]
        omega
      rw [List.length_cons, hwidth, ih hline]
      constructor
      · intro hrest front back hsplit
        rcases List.cons_eq_append_iff.mp hsplit with ⟨rfl, hback⟩ | ⟨front, rfl, htail⟩
        · exact absurd (List.cons.inj hback).1.symm htab
        · simpa [widthFrom, htab, hfeed, hreturn, Nat.add_assoc] using hrest front back htail
      · intro hall front back hsplit
        have hfront := hall (c :: front) back (by rw [hsplit, List.cons_append])
        simpa [widthFrom, htab, hfeed, hreturn, Nat.add_assoc] using hfront

end Tabs

end TreeRules
