import TreeRules.Proofs.Source.Rows
import TreeRules.Ruleset.Validity

/-! # Accepted predicates have answers

A check and an evaluation go through the same predicate in two different ways. What the check lets
pass never fails in a document of its language: every query that can be reached compiles, every
capture and every field is a text, and every line that is looked at is there.
-/
namespace TreeRules

/-! ## Equal values -/

namespace Value

theorem equal_self {value : Value} (h : value.isKey = true) : value.equal value = true := by
  cases value with
  | list items => cases h
  | mapping entries => cases h
  | _ => simp [equal, equalScalars, integer?, Real64.equal]

theorem equal_text_left {content : String} {value : Value} :
    equal (.text content) value = true ↔ value = .text content := by
  cases value with
  | text other =>
    rw [equal, beq_iff_eq, Value.text.injEq]
    exact eq_comm
  | real number => cases h : number.integer? <;> simp [equal, equalScalars, integer?, h]
  | _ => simp [equal, equalScalars, integer?]

theorem equal_text_right {content : String} {value : Value} :
    equal value (.text content) = true ↔ value = .text content := by
  cases value with
  | real number => cases h : number.integer? <;> simp [equal, equalScalars, integer?, h]
  | _ => simp [equal, equalScalars, integer?]

theorem memberOf_texts_iff {value : Value} {contents : List String} :
    memberOf value (contents.map .text) = true ↔ ∃ content ∈ contents, value = .text content := by
  simp [memberOf, equal_text_left]

theorem text_of_memberOf_texts {value : Value} {contents : List String}
    (h : memberOf value (contents.map .text)) : ∃ content, value = .text content := by
  obtain ⟨content, -, hvalue⟩ := memberOf_texts_iff.1 h
  exact ⟨content, hvalue⟩

end Value

/-! ## Lines that are there -/

/-- The row of a target, if it has one, is counted from the first row. -/
def Target.Placed (target : Target) : Prop := ∀ row, target.row = some row → 0 ≤ row

theorem Target.placed_ofNode (doc : Document) (place : Place) : (ofNode doc place).Placed := by
  intro row hrow
  cases hrow
  exact Int.natCast_nonneg _

theorem Target.placed_ofRowAt (doc : Document) (number : Nat) : (ofRowAt doc number).Placed := by
  intro row hrow
  have hnumber : (ofRowAt doc number).row = some (number : Int) := by
    unfold ofRowAt
    dsimp only
    split
    · rfl
    · split <;> rfl
  rw [hnumber] at hrow
  cases hrow
  exact Int.natCast_nonneg _

theorem Source.lineStop_succeeds (source : Source) {row : Int} (h : 0 ≤ row) :
    ∃ stop, source.lineStop row = .ok stop := by
  obtain ⟨number, rfl⟩ := Int.eq_ofNat_of_zero_le h
  exact ⟨_, source.lineStop_natCast number⟩

namespace Predicate
open Validity

variable {doc : Document} {grammar : Grammar} {target : Target}

theorem textHolds_accepted {field : Value} {pattern : Pattern} {place : Place}
    (h : checkPredicate doc.toolkit grammar (.text doc.language) (.textHas pattern field) = .ok ()) :
    ∃ answer, textHolds doc pattern field place = .ok answer := by
  cases field with
  | null => exact ⟨_, rfl⟩
  | text name => exact ⟨_, rfl⟩
  | _ => simp [checkPredicate, checkField] at h

theorem capturedKeys_accepted {query capture : Value} (memory : Memory)
    (h : checkQuery doc.toolkit (.text doc.language) query capture = .ok ()) :
    ∃ keys, (capturedKeys doc query capture memory).1 = .ok keys := by
  obtain ⟨compiled, hcompiled, h⟩ := Outcome.bind_eq_ok.1 h
  obtain rfl := Toolkit.compile_text hcompiled
  split at h
  next hmember =>
    obtain ⟨name, rfl⟩ := Value.text_of_memberOf_texts hmember
    unfold capturedKeys
    simp only [Value.isKey, Bool.not_true, Bool.or_self, Bool.false_eq_true, if_false, hcompiled]
    cases memory.known? (.text compiled.text) (.text name) with
    | some keys => exact ⟨keys, rfl⟩
    | none => exact ⟨_, rfl⟩
  next => exact absurd h Outcome.throw_ne_ok

theorem lineHolds_accepted {pattern : Pattern} {ink row : Int} (h : 0 ≤ row) :
    ∃ answer, lineHolds doc pattern ink row = .ok answer := by
  obtain ⟨stop, hstop⟩ := doc.source.lineStop_succeeds h
  exact ⟨_, by rw [lineHolds, hstop]; rfl⟩

-- The recursion follows the check, which goes into every part of a predicate; the evaluation goes
-- into some of them, depending on the target and on the answers before.
mutual

theorem evaluate_accepted (hplaced : target.Placed) (test : Predicate) (memory : Memory)
    (h : checkPredicate doc.toolkit grammar (.text doc.language) test = .ok ()) :
    ∃ answer, (evaluate doc target test memory).1 = .ok answer := by
  match test with
  | .nodeIs pattern => exact ⟨_, by rw [evaluate]⟩
  | .parentIs pattern => exact ⟨_, by rw [evaluate]⟩
  | .chain node parent grandparent => exact ⟨_, by rw [evaluate]⟩
  | .noNode => exact ⟨_, by rw [evaluate]⟩
  | .always => exact ⟨_, by rw [evaluate]⟩
  | .fieldIs field inner =>
    obtain ⟨_, _, hinner⟩ := Outcome.bind_eq_ok.1 (by simpa only [checkPredicate] using h)
    rw [evaluate]
    split
    · split
      · exact evaluate_accepted hplaced inner memory hinner
      · exact ⟨_, rfl⟩
    · exact ⟨_, rfl⟩
  | .captured query capture =>
    rw [checkPredicate] at h
    obtain ⟨keys, hkeys⟩ := capturedKeys_accepted memory h
    rw [evaluate]
    split
    · split
      · exact ⟨_, rfl⟩
      next heq =>
        rw [heq] at hkeys
        cases hkeys
    · exact ⟨_, rfl⟩
  | .textHas pattern field =>
    rw [evaluate]
    split
    · exact textHolds_accepted h
    · exact ⟨_, rfl⟩
  | .lineHas pattern =>
    rw [evaluate]
    split
    next _ row _ hrow => exact lineHolds_accepted (hplaced row hrow)
    next => exact ⟨_, rfl⟩
  | .all tests =>
    rw [checkPredicate] at h
    rw [evaluate]
    exact evaluateAll_accepted hplaced tests memory h
  | .any tests =>
    rw [checkPredicate] at h
    rw [evaluate]
    exact evaluateAny_accepted hplaced tests memory h
  | .not test =>
    rw [checkPredicate] at h
    obtain ⟨answer, hanswer⟩ := evaluate_accepted hplaced test memory h
    rw [evaluate]
    split
    · exact ⟨_, rfl⟩
    next heq =>
      rw [heq] at hanswer
      cases hanswer

theorem evaluateAll_accepted (hplaced : target.Placed) (tests : List Predicate) (memory : Memory)
    (h : checkPredicates doc.toolkit grammar (.text doc.language) tests = .ok ()) :
    ∃ answer, (evaluateAll doc target tests memory).1 = .ok answer := by
  match tests with
  | [] => exact ⟨_, by rw [evaluateAll]⟩
  | test :: rest =>
    rw [checkPredicates] at h
    obtain ⟨_, htest, hrest⟩ := Outcome.bind_eq_ok.1 h
    rw [evaluateAll]
    split
    · exact evaluateAll_accepted hplaced rest _ hrest
    · exact evaluate_accepted hplaced test memory htest

theorem evaluateAny_accepted (hplaced : target.Placed) (tests : List Predicate) (memory : Memory)
    (h : checkPredicates doc.toolkit grammar (.text doc.language) tests = .ok ()) :
    ∃ answer, (evaluateAny doc target tests memory).1 = .ok answer := by
  match tests with
  | [] => exact ⟨_, by rw [evaluateAny]⟩
  | test :: rest =>
    rw [checkPredicates] at h
    obtain ⟨_, htest, hrest⟩ := Outcome.bind_eq_ok.1 h
    rw [evaluateAny]
    split
    · exact evaluateAny_accepted hplaced rest _ hrest
    · exact evaluate_accepted hplaced test memory htest

end

/-- A predicate that is accepted has an answer for every target of the document. -/
theorem holds_accepted {test : Predicate} (hplaced : target.Placed)
    (h : checkPredicate doc.toolkit grammar (.text doc.language) test = .ok ()) :
    ∃ answer, test.holds doc target = .ok answer :=
  evaluate_accepted hplaced test [] h

end Predicate

end TreeRules
