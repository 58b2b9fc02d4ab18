import Mathlib.Data.List.Infix
import Mathlib.Tactic.Common
import TreeRules.Text.Utf8

/-! # Encoded text

Every character is encoded by one to four bytes that the decoder takes for that character and no
other, whatever follows them. So an encoded text is decoded to itself. A place between two of its
characters is a boundary, and what lies between two boundaries is an encoded text again, which can
be decoded by itself.
-/
namespace TreeRules.Utf8

/-! ## One character -/

section Bytes

variable {n : Nat} (rest : List UInt8)

/-- How the first byte of a character is taken. -/
theorem decode_first (h : n < 256) :
    decode (UInt8.ofNat n :: rest) =
      if n < 0x80 then Char.ofNat n :: decode rest
      else if n < 0xC2 then replacement :: decode rest
      else if n < 0xE0 then decodeFrom (.inside 0 0x80 0xBF (n - 0xC0)) rest
      else if n < 0xF0 then
        decodeFrom (.inside 1 (if n = 0xE0 then 0xA0 else 0x80) (if n = 0xED then 0x9F else 0xBF)
          (n - 0xE0)) rest
      else if n < 0xF5 then
        decodeFrom (.inside 2 (if n = 0xF0 then 0x90 else 0x80) (if n = 0xF4 then 0x8F else 0xBF)
          (n - 0xF0)) rest
      else replacement :: decode rest := by
  have hn : (UInt8.ofNat n).toNat = n := UInt8.toNat_ofNat_of_lt h
  rw [decode, decodeFrom, step]
  delta start
  simp only [UInt8.lt_iff_toNat_lt, ← UInt8.toNat_inj, hn, UInt8.reduceToNat]
  split_ifs <;> rfl

/-- A byte that can follow brings six bits, and ends the character if no more are missing. -/
theorem decodeFrom_inside {need bits : Nat} {low high : UInt8} (hlow : low.toNat ≤ n)
    (hhigh : n ≤ high.toNat) :
    decodeFrom (.inside need low high bits) (UInt8.ofNat n :: rest) =
      match need with
      | 0 => Char.ofNat (bits * 64 + (n - 0x80)) :: decode rest
      | need + 1 => decodeFrom (.inside need 0x80 0xBF (bits * 64 + (n - 0x80))) rest := by
  have hn : (UInt8.ofNat n).toNat = n :=
    UInt8.toNat_ofNat_of_lt (Nat.lt_of_le_of_lt hhigh high.toNat_lt)
  have hrange : low ≤ UInt8.ofNat n ∧ UInt8.ofNat n ≤ high := by
    rw [UInt8.le_iff_toNat_le, UInt8.le_iff_toNat_le, hn]
    exact ⟨hlow, hhigh⟩
  rw [decodeFrom, step, if_pos hrange, hn]
  cases need <;> rfl

end Bytes

/-- The bytes of a character are decoded to it, whatever follows. -/
theorem decode_utf8EncodeChar_append (c : Char) (rest : List UInt8) :
    decode (String.utf8EncodeChar c ++ rest) = c :: decode rest := by
  obtain ⟨v, hv⟩ : ∃ v, v = c.val.toNat := ⟨_, rfl⟩
  have hc : Char.ofNat v = c := by
    rw [hv]
    exact c.ofNat_toNat
  have hvalid : v < 0xD800 ∨ (0xDFFF < v ∧ v < 0x110000) := by
    rw [hv]
    exact c.valid
  rw [String.utf8EncodeChar, ← hv]
  -- One case for each number of bytes; their bits add up to the number of the character.
  split
  · rw [List.cons_append, decode_first _ (by omega), if_pos (by omega), hc, List.nil_append]
  split
  · have hfirst : v / 64 % 32 + 192 - 0xC0 = v / 64 := by omega
    have hchar : v / 64 * 64 + (v % 64 + 128 - 0x80) = v := by omega
    rw [List.cons_append, decode_first _ (by omega), if_neg (by omega), if_neg (by omega),
      if_pos (by omega), List.cons_append, decodeFrom_inside _ (by simp) (by simp; omega)]
    simp only [hfirst, hchar, hc, List.nil_append]
  split
  · have hlow : (if v / 4096 % 16 + 224 = 0xE0 then 0xA0 else 0x80 : UInt8).toNat ≤
        v / 64 % 64 + 128 := by
      split <;> simp only [UInt8.reduceToNat] <;> omega
    have hhigh : v / 64 % 64 + 128 ≤
        (if v / 4096 % 16 + 224 = 0xED then 0x9F else 0xBF : UInt8).toNat := by
      split <;> simp only [UInt8.reduceToNat] <;> omega
    have hchar : ((v / 4096 % 16 + 224 - 0xE0) * 64 + (v / 64 % 64 + 128 - 0x80)) * 64 +
        (v % 64 + 128 - 0x80) = v := by omega
    rw [List.cons_append, decode_first _ (by omega), if_neg (by omega), if_neg (by omega),
      if_neg (by omega), if_pos (by omega), List.cons_append, decodeFrom_inside _ hlow hhigh,
      List.cons_append]
    dsimp only
    rw [decodeFrom_inside _ (by simp) (by simp; omega)]
    simp only [hchar, hc, List.nil_append]
  · have hlow : (if v / 262144 % 8 + 240 = 0xF0 then 0x90 else 0x80 : UInt8).toNat ≤
        v / 4096 % 64 + 128 := by
      split <;> simp only [UInt8.reduceToNat] <;> omega
    have hhigh : v / 4096 % 64 + 128 ≤
        (if v / 262144 % 8 + 240 = 0xF4 then 0x8F else 0xBF : UInt8).toNat := by
      split <;> simp only [UInt8.reduceToNat] <;> omega
    have hchar : (((v / 262144 % 8 + 240 - 0xF0) * 64 + (v / 4096 % 64 + 128 - 0x80)) * 64 +
        (v / 64 % 64 + 128 - 0x80)) * 64 + (v % 64 + 128 - 0x80) = v := by omega
    rw [List.cons_append, decode_first _ (by omega), if_neg (by omega), if_neg (by omega),
      if_neg (by omega), if_neg (by omega), if_pos (by omega), List.cons_append,
      decodeFrom_inside _ hlow hhigh, List.cons_append]
    dsimp only
    rw [decodeFrom_inside _ (by simp) (by simp; omega), List.cons_append]
    dsimp only
    rw [decodeFrom_inside _ (by simp) (by simp; omega)]
    simp only [hchar, hc, List.nil_append]

/-! ## Texts -/

variable {front back : List Char} {bytes : List UInt8}

theorem encode_append (front back : List Char) :
    encode (front ++ back) = encode front ++ encode back := List.flatMap_append

/-- An encoded text is decoded to itself, whatever follows. -/
theorem decode_encode_append (text : List Char) (rest : List UInt8) :
    decode (encode text ++ rest) = text ++ decode rest := by
  induction text with
  | nil => rfl
  | cons c text ih =>
    have hcons : encode (c :: text) = String.utf8EncodeChar c ++ encode text := List.flatMap_cons
    rw [hcons, List.append_assoc, decode_utf8EncodeChar_append, ih, List.cons_append]

theorem decode_encode (text : List Char) : decode (encode text) = text := by
  have hdecode := decode_encode_append text []
  rw [List.append_nil] at hdecode
  exact hdecode.trans (List.append_nil text)

theorem encode_injective (h : encode front = encode back) : front = back := by
  rw [← decode_encode front, h, decode_encode]

/-- Pieces of encoded text are decoded one by one. -/
theorem decode_flatten {pieces : List (List UInt8)}
    (h : ∀ piece ∈ pieces, ∃ text, piece = encode text) :
    decode pieces.flatten = pieces.flatMap decode := by
  induction pieces with
  | nil => rfl
  | cons piece pieces ih =>
    obtain ⟨⟨text, rfl⟩, hpieces⟩ := List.forall_mem_cons.1 h
    rw [List.flatten_cons, List.flatMap_cons, decode_encode_append, decode_encode, ih hpieces]

/-! ## Boundaries -/

/-- A place between two characters of the text that bytes encode, or at one of its ends. -/
def Boundary (bytes : List UInt8) (place : Int) : Prop :=
  ∃ front back, bytes = encode (front ++ back) ∧ place = (encode front).length

/-- What lies between two boundaries is encoded text. -/
theorem Boundary.between {first last : Nat} (hfirst : Boundary bytes first)
    (hlast : Boundary bytes last) (h : first ≤ last) :
    ∃ piece, (bytes.take last).drop first = encode piece := by
  obtain ⟨front, back, rfl, hfront⟩ := hfirst
  obtain ⟨front', back', hsame, hfront'⟩ := hlast
  have hfirst : first = (encode front).length := Int.ofNat_inj.1 hfront
  have hlast : last = (encode front').length := Int.ofNat_inj.1 hfront'
  have hwithin : ∃ piece, front' = front ++ piece := by
    rcases List.append_eq_append_iff.1 (encode_injective hsame) with
      ⟨piece, hpiece, -⟩ | ⟨piece, hpiece, -⟩
    · exact ⟨piece, hpiece⟩
    · -- The other way round the piece would have no bytes, so no characters.
      have hnone : encode piece = [] := by
        rw [hpiece, encode_append, List.length_append] at hfirst
        exact List.length_eq_zero_iff.1 (by omega)
      have hempty : piece = [] := encode_injective hnone
      exact ⟨[], by rw [hpiece, hempty, List.append_nil, List.append_nil]⟩
  obtain ⟨piece, rfl⟩ := hwithin
  refine ⟨piece, ?_⟩
  rw [hsame, encode_append (front ++ piece), hlast, List.take_left, encode_append, hfirst,
    List.drop_left]

end TreeRules.Utf8
