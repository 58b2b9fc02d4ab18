import Mathlib.Data.List.TakeWhile
import Mathlib.Data.Nat.Digits.Lemmas
import Mathlib.Tactic.Ring
import TreeRules.Text.Blank
import TreeRules.Text.Digit

/-! # Numerals and blanks

A digit stands for a value from zero to nine: its distance from the zero of its script. The ten
digits of one script do not reach into those of another, so each digit has one value, and a row of
digits denotes one number in the decimal system. No digit is a blank. Trimming a text takes all
blanks off its ends and nothing else.
-/
namespace TreeRules

namespace Digit

variable {c : Char} {v n : Nat} {digits : List Char}

/-- A character is the digit of some script with a value. -/
def Stands (c : Char) (v : Nat) : Prop := v < 10 ∧ ∃ first ∈ zeros, c.toNat = first + v

theorem zeros_apart : zeros.Pairwise fun x y => x + 10 ≤ y := by decide

theorem eq_of_mem_zeros {x y : Nat} (hx : x ∈ zeros) (hy : y ∈ zeros) (hxy : x < y + 10)
    (hyx : y < x + 10) : x = y := by
  obtain ⟨i, hi, rfl⟩ := List.getElem_of_mem hx
  obtain ⟨j, hj, rfl⟩ := List.getElem_of_mem hy
  have hapart := List.pairwise_iff_getElem.1 zeros_apart
  rcases Nat.lt_trichotomy i j with hij | rfl | hji
  · have hfar := hapart i j hi hj hij
    omega
  · rfl
  · have hfar := hapart j i hj hi hji
    omega

theorem value?_eq_some_iff : value? c = some v ↔ Stands c v := by
  simp only [value?, Option.map_eq_some_iff]
  constructor
  · rintro ⟨first, hfind, rfl⟩
    have hmem := List.mem_of_find?_eq_some hfind
    have hrange := List.find?_some hfind
    simp only [Bool.and_eq_true, decide_eq_true_eq] at hrange
    exact ⟨by omega, first, hmem, by omega⟩
  · rintro ⟨hv, first, hmem, hc⟩
    have hsome : (zeros.find? fun first => first ≤ c.toNat && c.toNat < first + 10).isSome := by
      refine List.find?_isSome.2 ⟨first, hmem, ?_⟩
      simp only [Bool.and_eq_true, decide_eq_true_eq]
      omega
    obtain ⟨other, hfind⟩ := Option.isSome_iff_exists.1 hsome
    have hrange := List.find?_some hfind
    simp only [Bool.and_eq_true, decide_eq_true_eq] at hrange
    have hsame := eq_of_mem_zeros (List.mem_of_find?_eq_some hfind) hmem (by omega) (by omega)
    exact ⟨other, hfind, by omega⟩

theorem isDigit_iff : isDigit c = true ↔ ∃ v, Stands c v := by
  simp only [isDigit, Option.isSome_iff_exists, value?_eq_some_iff]

theorem not_isBlank (h : isDigit c = true) : Blank.isBlank c = false := by
  obtain ⟨v, hv, first, hfirst, hc⟩ := isDigit_iff.1 h
  -- The digits of a script stand together between the blanks.
  have hgaps : ∀ first ∈ zeros, 32 < first ∧ (first + 9 < 0x85 ∨ 0xA0 < first) ∧
      (first + 9 < 0x1680 ∨ 0x1680 < first) ∧ (first + 9 < 0x2000 ∨ 0x205F < first) ∧
      (first + 9 < 0x3000 ∨ 0x3000 < first) := by decide
  have hgap := hgaps first hfirst
  simp only [Blank.isBlank, Blank.isSpace, Bool.or_eq_false_iff, Bool.and_eq_false_iff,
    decide_eq_false_iff_not, beq_eq_false_iff_ne]
  omega

/-! ## Rows of digits -/

/-- A row of digits and the number that it denotes in the decimal system. -/
def Numeral (digits : List Char) (n : Nat) : Prop :=
  digits ≠ [] ∧ ∃ values, List.Forall₂ Stands digits values ∧ Nat.ofDigits 10 values.reverse = n

theorem Numeral.isDigit (h : Numeral digits n) : ∀ c ∈ digits, isDigit c = true := by
  obtain ⟨-, values, hvalues, -⟩ := h
  intro c hc
  obtain ⟨i, hi, rfl⟩ := List.getElem_of_mem hc
  exact isDigit_iff.2 ⟨_, hvalues.get hi (hvalues.length_eq ▸ hi)⟩

/-- A digit moves the number in front of it up by one place. -/
def moveUp (total : Option Nat) (c : Char) : Option Nat := do return (← total) * 10 + (← value? c)

theorem moveUp_eq_some_iff {total : Option Nat} :
    moveUp total c = some n ↔ ∃ m v, total = some m ∧ Stands c v ∧ m * 10 + v = n := by
  cases total with
  | none => simp [moveUp]
  | some m => simp [moveUp, Option.bind_eq_some_iff, ← value?_eq_some_iff]

theorem foldl_moveUp_eq_some_iff {total : Option Nat} :
    digits.foldl moveUp total = some n ↔ ∃ m values, total = some m ∧
      List.Forall₂ Stands digits values ∧
        m * 10 ^ digits.length + Nat.ofDigits 10 values.reverse = n := by
  induction digits generalizing total with
  | nil => simp
  | cons c rest ih =>
    rw [List.foldl_cons, ih]
    simp only [moveUp_eq_some_iff, List.forall₂_cons_left_iff, List.length_cons]
    -- The first digit counts as many places as there are digits behind it.
    have hplaces : ∀ m v values, List.Forall₂ Stands rest values →
        (m * 10 + v) * 10 ^ rest.length + Nat.ofDigits 10 values.reverse =
          m * 10 ^ (rest.length + 1) + Nat.ofDigits 10 (v :: values).reverse := by
      intro m v values hvalues
      rw [List.reverse_cons, Nat.ofDigits_append, Nat.ofDigits_singleton, List.length_reverse,
        ← hvalues.length_eq]
      ring
    constructor
    · rintro ⟨_, values, ⟨m, v, rfl, hstands, rfl⟩, hvalues, rfl⟩
      refine ⟨m, v :: values, rfl, ⟨v, values, hstands, hvalues, rfl⟩, ?_⟩
      exact (hplaces m v values hvalues).symm
    · rintro ⟨m, _, rfl, ⟨v, values, hstands, hvalues, rfl⟩, rfl⟩
      exact ⟨_, values, ⟨m, v, rfl, hstands, rfl⟩, hvalues, hplaces m v values hvalues⟩

theorem number?_eq_some_iff (hne : digits ≠ []) : number? digits = some n ↔ Numeral digits n := by
  have hread : number? digits = digits.foldl moveUp (some 0) := rfl
  rw [hread, foldl_moveUp_eq_some_iff]
  simp [Numeral, hne]

end Digit

/-! ## Blanks at the ends -/

namespace Blank

/-- A text of blanks only. -/
def Only (text : List Char) : Prop := ∀ c ∈ text, isBlank c = true

theorem only_singleton {c : Char} (h : isBlank c = true) : Only [c] := List.forall_mem_singleton.2 h

variable {kind : Char → Bool} {lead body trail : List Char}

theorem trimOf_append (hlead : ∀ c ∈ lead, kind c = true) (htrail : ∀ c ∈ trail, kind c = true)
    (hne : body ≠ []) (hhead : ∀ c ∈ body.head?, kind c = false)
    (hlast : ∀ c ∈ body.getLast?, kind c = false) : trimOf kind (lead ++ body ++ trail) = body := by
  have hstay : ∀ text rest : List Char, text ≠ [] → (∀ c ∈ text.head?, kind c = false) →
      (text ++ rest).dropWhile kind = text ++ rest := by
    intro text rest htext hfirst
    obtain ⟨c, tail, rfl⟩ := List.exists_cons_of_ne_nil htext
    simp [hfirst c rfl]
  have hfront : (lead ++ body ++ trail).dropWhile kind = body ++ trail := by
    rw [List.append_assoc, List.dropWhile_append_of_pos hlead, hstay body trail hne hhead]
  have hback : (body ++ trail).reverse.dropWhile kind = body.reverse := by
    have htrail' : ∀ c ∈ trail.reverse, kind c = true :=
      fun c hc => htrail c (List.mem_reverse.1 hc)
    have hstop := hstay body.reverse [] (by simpa using hne) (by simpa using hlast)
    rw [List.append_nil] at hstop
    rw [List.reverse_append, List.dropWhile_append_of_pos htrail', hstop]
  rw [trimOf, hfront, hback, List.reverse_reverse]

/-- What is trimmed off a text stands at its ends and is of the kind. -/
theorem exists_trimOf (kind : Char → Bool) (text : List Char) : ∃ lead trail,
    text = lead ++ trimOf kind text ++ trail ∧ (∀ c ∈ lead, kind c = true) ∧
      ∀ c ∈ trail, kind c = true := by
  refine ⟨text.takeWhile kind, ((text.dropWhile kind).reverse.takeWhile kind).reverse, ?_, ?_, ?_⟩
  · rw [trimOf, List.append_assoc, ← List.reverse_append, List.takeWhile_append_dropWhile,
      List.reverse_reverse, List.takeWhile_append_dropWhile]
  · exact fun c hc => List.mem_takeWhile_imp hc
  · exact fun c hc => List.mem_takeWhile_imp (List.mem_reverse.1 hc)

end Blank

end TreeRules
