import Mathlib
import TreeRules.Pattern.Basic

/-! # Plain names as patterns

A pattern of letters, digits and underscores is a plain name, and is compared with the kinds of
nodes as a text. It could as well be read and matched like any other pattern: none of its characters
is a mark, so it is read as the sequence of its characters, wherever it stands, and the walk of such
a sequence takes these characters and no others. Both ways accept just the name itself.
-/
namespace TreeRules.Pattern

/-! ## Characters of names -/

/-- An ASCII letter, an ASCII digit or an underscore. -/
def NameChar (c : Char) : Prop :=
  ('A' ≤ c ∧ c ≤ 'Z') ∨ ('a' ≤ c ∧ c ≤ 'z') ∨ ('0' ≤ c ∧ c ≤ '9') ∨ c = '_'

theorem isNameChar_iff {c : Char} : isNameChar c = true ↔ NameChar c := by
  simp [isNameChar, NameChar, Char.isAlphanum, Char.isAlpha, Char.isUpper, Char.isLower,
    Char.isDigit, Char.le_def, or_assoc]

theorem all_isNameChar_iff {text : List Char} :
    text.all isNameChar = true ↔ ∀ c ∈ text, NameChar c := by
  simp only [List.all_eq_true, isNameChar_iff]

/-- The characters that can mean something else than themselves in a pattern. -/
def marks : List Char := ['\\', '|', ')', '#', '[', '*', '+', '?', '{', '.', '^', '$', '(']

namespace NameChar

variable {c : Char}

theorem not_mem_marks (h : NameChar c) : c ∉ marks := by
  have hmarks : marks.all (!isNameChar ·) = true := by decide
  intro hmem
  have hmark := List.all_eq_true.1 hmarks c hmem
  simp [isNameChar_iff.2 h] at hmark

theorem not_isLayout (h : NameChar c) : isLayout c = false := by
  have hlarge : 48 ≤ c.toNat := by
    rcases h with ⟨h, -⟩ | ⟨h, -⟩ | ⟨h, -⟩ | rfl
    · exact Nat.le_trans (by decide : 48 ≤ 'A'.toNat) h
    · exact Nat.le_trans (by decide : 48 ≤ 'a'.toNat) h
    · exact h
    · decide
  simp [isLayout]
  omega

end NameChar

/-! ## Reading -/

theorem tokens?_name {name : List Char} (h : ∀ c ∈ name, NameChar c) :
    tokens? name = some (name.map .plain) := by
  induction name with
  | nil => rfl
  | cons c rest ih =>
    obtain ⟨hc, hrest⟩ := List.forall_mem_cons.1 h
    have hplain : c ≠ '\\' := by
      rintro rfl
      exact hc.not_mem_marks (by decide)
    rw [tokens?, ih hrest]
    · rfl
    · exact fun heq => absurd heq hplain
    · exact fun _ _ heq => absurd heq hplain

/-- A character of a name is read as itself. -/
theorem readSequence_nameChar {c : Char} (h : NameChar c) (steps : Nat) (top : Bool)
    {now : Progress} {rest : List Token} (hrest : now.rest = .plain c :: rest) :
    readSequence (steps + 1) top now =
      readSequence steps top
        { now with pieces := ⟨.other, .char now.mode c⟩ :: now.pieces, rest := rest } := by
  have hmarks := h.not_mem_marks
  simp only [marks, List.mem_cons, List.not_mem_nil, or_false, not_or] at hmarks
  rw [readSequence]
  simp [hrest, hmarks, h.not_isLayout]

/-- A name is read as the sequence of its characters, whatever stands around it. -/
theorem readSequence_name {name : List Char} (h : ∀ c ∈ name, NameChar c) (steps : Nat)
    (top : Bool) {now : Progress} {rest : List Token}
    (hrest : now.rest = name.map .plain ++ rest) :
    readSequence (steps + name.length) top now =
      readSequence steps top
        { now with
          pieces := (name.map fun c => ⟨.other, .char now.mode c⟩).reverse ++ now.pieces
          rest := rest } := by
  induction name generalizing now with
  | nil =>
    obtain rfl : now.rest = rest := hrest
    rfl
  | cons c name ih =>
    obtain ⟨hc, hname⟩ := List.forall_mem_cons.1 h
    rw [List.length_cons, ← Nat.add_assoc, readSequence_nameChar hc _ top hrest, ih hname rfl]
    simp

theorem read?_name {name : List Char} (h : ∀ c ∈ name, NameChar c) :
    Expr.read? name = some (.ofList (name.map (.char {}))) := by
  have hsteps : 4 * (name.map Token.plain).length + 4 =
      (3 * name.length + 2 + 1 + name.length) + 1 := by
    rw [List.length_map]
    omega
  have hread : readAlternatives (4 * (name.map Token.plain).length + 4) true {} {}
      (name.map .plain) = some (.ofList (name.map (.char {})), {}, []) := by
    rw [hsteps, readAlternatives, readSequence_name h _ true (List.append_nil _).symm, readSequence]
    simp [joined, Function.comp_def]
  rw [Expr.read?, tokens?_name h, Option.bind_eq_bind, Option.bind_some, hread]
  rfl

/-! ## Matching -/

theorem walk_chars (mode : Mode) (text : List Char) (cursor : Cursor) (next : Next) :
    (Expr.ofList (text.map (.char mode))).walk cursor next =
      (cursor.takeAll? mode.same text).bind next := by
  induction text generalizing cursor with
  | nil => rfl
  | cons c rest ih =>
    have hwalk : (Expr.ofList ((c :: rest).map (.char mode))).walk cursor next =
        (cursor.take? (mode.same c)).bind fun cursor =>
          (Expr.ofList (rest.map (.char mode))).walk cursor next := rfl
    rw [hwalk, Cursor.takeAll?, Option.bind_assoc]
    exact congrArg _ (funext ih)

theorem takeAll?_eq_some_iff {mode : Mode} (h : mode.ignoreCase = false) {text : List Char}
    {cursor new : Cursor} :
    cursor.takeAll? mode.same text = some new ↔
      cursor.after = text ++ new.after ∧ new.before = text.reverse ++ cursor.before ∧
        new.groups = cursor.groups := by
  obtain ⟨before, after, groups⟩ := cursor
  obtain ⟨newBefore, newAfter, newGroups⟩ := new
  induction text generalizing before after with
  | nil => grind [Cursor.takeAll?]
  | cons c rest ih =>
    cases after with
    | nil => simp [Cursor.takeAll?, Cursor.take?]
    | cons first after =>
      by_cases hsame : c = first
      · simp [Cursor.takeAll?, Cursor.take?, Mode.same, h, hsame, ih]
      · simp [Cursor.takeAll?, Cursor.take?, Mode.same, h, hsame, Ne.symm hsame]

/-- A sequence of characters matches just the text of these characters. -/
theorem matchesWhole_chars {mode : Mode} (h : mode.ignoreCase = false) {text subject : List Char} :
    (Expr.ofList (text.map (.char mode))).matchesWhole subject = true ↔ subject = text := by
  rw [Expr.matchesWhole, walk_chars, Option.isSome_iff_exists]
  constructor
  · rintro ⟨last, hlast⟩
    obtain ⟨new, hnew, hend⟩ := Option.bind_eq_some_iff.1 hlast
    have hafter := ((takeAll?_eq_some_iff h).1 hnew).1
    have hempty : new.after = [] := by
      by_contra hne
      simp [hne] at hend
    rw [hempty, List.append_nil] at hafter
    exact hafter
  · rintro rfl
    have hnew : (Cursor.start subject).takeAll? mode.same subject =
        some ⟨subject.reverse, [], []⟩ :=
      (takeAll?_eq_some_iff h).2 ⟨by simp [Cursor.start], by simp [Cursor.start], rfl⟩
    exact ⟨⟨subject.reverse, [], []⟩, by rw [hnew]; rfl⟩

/-! ## Both ways -/

/-- A text of one or more letters, digits and underscores is a pattern, and a plain name. It accepts
the kind of a node just if its expression matches that as a whole, and that is so just for the name
itself. -/
theorem accepts_iff_matchesWhole {source : String} (hne : source ≠ "")
    (h : ∀ c ∈ source.toList, NameChar c) :
    ∃ pattern, ofText? source = some pattern ∧ pattern.isLiteral = true ∧
      ∀ kind : String,
        (pattern.accepts kind = true ↔ pattern.expr.matchesWhole kind.toList = true) ∧
          (pattern.expr.matchesWhole kind.toList = true ↔ kind = source) := by
  let pattern : Pattern := ⟨source, _, read?_name h⟩
  have hliteral : pattern.isLiteral = true := by
    have hchars : source.toList ≠ [] := fun hnil => hne (String.toList_eq_nil_iff.1 hnil)
    simp only [isLiteral, Bool.and_eq_true, Bool.not_eq_true', List.isEmpty_eq_false_iff]
    exact ⟨hchars, all_isNameChar_iff.2 h⟩
  have hmatch : ∀ kind : String,
      pattern.expr.matchesWhole kind.toList = true ↔ kind = source :=
    fun kind => (matchesWhole_chars rfl).trans String.toList_inj
  refine ⟨pattern, pattern.ofText?_source, hliteral, fun kind => ⟨?_, hmatch kind⟩⟩
  rw [accepts, if_pos hliteral, beq_iff_eq]
  exact (hmatch kind).symm

/-- A name that begins like another one is not taken for it in either way. -/
theorem accepts_iff_matchesWhole_longer :
    "if_2" ≠ "" ∧ (∀ c ∈ "if_2".toList, NameChar c) ∧
      ∃ pattern, ofText? "if_2" = some pattern ∧ pattern.accepts "if_2" = true ∧
        pattern.expr.matchesWhole "if_2".toList = true ∧ pattern.accepts "if_23" = false ∧
        pattern.expr.matchesWhole "if_23".toList = false := by
  have hne : "if_2" ≠ "" := by decide
  have h : ∀ c ∈ "if_2".toList, NameChar c := all_isNameChar_iff.1 (by decide)
  obtain ⟨pattern, hread, -, hall⟩ := accepts_iff_matchesWhole hne h
  obtain ⟨haccepts, hmatches⟩ := hall "if_2"
  obtain ⟨haccepts', hmatches'⟩ := hall "if_23"
  have hother : pattern.expr.matchesWhole "if_23".toList = false :=
    Bool.eq_false_iff.2 fun hmatch => absurd (hmatches'.1 hmatch) (by decide)
  refine ⟨hne, h, pattern, hread, haccepts.2 (hmatches.2 rfl), hmatches.2 rfl, ?_, hother⟩
  exact Bool.eq_false_iff.2 fun haccept => absurd (hmatches'.1 (haccepts'.1 haccept)) (by decide)

end TreeRules.Pattern
