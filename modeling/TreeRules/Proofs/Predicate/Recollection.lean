import Mathlib
import TreeRules.Outline.Thing
import TreeRules.Proofs.Predicate.Capture

/-! # Remembered answers

Where every entry of a memory is what the query engine answers, nothing shows that there is a
memory: a predicate, the rules of a table and the category of a node come out as they do without
one, and the memory that is left is of the same kind. So the predicates of a series that starts with
nothing in memory come out as they do one by one.
-/
namespace TreeRules

variable {doc : Document} {memory : Memory}

theorem Memory.faithful_nil (doc : Document) : Memory.Faithful doc [] := nofun

/-- Two runs with the same answer, each with the memory that it leaves. -/
theorem exists_of_fst_eq {α β : Type} {x y : α × β} (h : x.1 = y.1) :
    ∃ answer left right, x = (answer, left) ∧ y = (answer, right) :=
  ⟨x.1, x.2, y.2, rfl, Prod.ext h.symm rfl⟩

namespace Predicate

theorem capturedKeys_recalled (h : memory.Faithful doc) (query capture : Value) :
    (capturedKeys doc query capture memory).1 = (capturedKeys doc query capture []).1 := by
  have hempty : Memory.known? [] query capture = none := rfl
  unfold capturedKeys
  rw [hempty]
  split
  · rfl
  · cases hknown : memory.known? query capture with
    | some keys =>
      obtain ⟨compiled, hcompiled, rfl⟩ := known?_faithful h hknown
      simp only [hcompiled]
    | none =>
      simp only []
      cases doc.toolkit.compile (.text doc.language) query with
      | error error => rfl
      | ok compiled => rfl

-- A list of tests is left at the same test with either memory, because that hangs on the answers.
-- The memories that are handed on differ, but both are faithful.
mutual

theorem evaluate_recalled (target : Target) (test : Predicate) {memory : Memory}
    (h : memory.Faithful doc) :
    (evaluate doc target test memory).1 = (evaluate doc target test []).1 := by
  match test with
  | .nodeIs _ | .parentIs _ | .chain .. | .noNode | .always => simp only [evaluate]
  | .fieldIs field inner =>
    rw [evaluate, evaluate]
    split
    · split
      · exact evaluate_recalled target inner h
      · rfl
    · rfl
  | .captured query capture =>
    obtain ⟨keys, left, right, hleft, hright⟩ :=
      exists_of_fst_eq (capturedKeys_recalled h query capture)
    rw [evaluate, evaluate, hleft, hright]
    cases target.node with
    | none => rfl
    | some place =>
      cases keys with
      | ok keys => rfl
      | error error => rfl
  | .textHas _ _ =>
    rw [evaluate, evaluate]
    split <;> rfl
  | .lineHas _ =>
    rw [evaluate, evaluate]
    split <;> rfl
  | .all tests =>
    rw [evaluate, evaluate]
    exact evaluateAll_recalled target tests h
  | .any tests =>
    rw [evaluate, evaluate]
    exact evaluateAny_recalled target tests h
  | .not test =>
    obtain ⟨answer, left, right, hleft, hright⟩ :=
      exists_of_fst_eq (evaluate_recalled target test h)
    rw [evaluate, evaluate, hleft, hright]
    cases answer with
    | ok holds => rfl
    | error error => rfl

theorem evaluateAll_recalled (target : Target) (tests : List Predicate) {memory : Memory}
    (h : memory.Faithful doc) :
    (evaluateAll doc target tests memory).1 = (evaluateAll doc target tests []).1 := by
  match tests with
  | [] => rw [evaluateAll, evaluateAll]
  | test :: rest =>
    obtain ⟨answer, left, right, hleft, hright⟩ :=
      exists_of_fst_eq (evaluate_recalled target test h)
    have hfaithful := evaluate_faithful target test h
    have hfresh := evaluate_faithful target test (Memory.faithful_nil doc)
    rw [hleft] at hfaithful
    rw [hright] at hfresh
    rw [evaluateAll, evaluateAll, hleft, hright]
    cases answer with
    | error error => rfl
    | ok holds =>
      cases holds with
      | true =>
        exact (evaluateAll_recalled target rest hfaithful).trans
          (evaluateAll_recalled target rest hfresh).symm
      | false => rfl

theorem evaluateAny_recalled (target : Target) (tests : List Predicate) {memory : Memory}
    (h : memory.Faithful doc) :
    (evaluateAny doc target tests memory).1 = (evaluateAny doc target tests []).1 := by
  match tests with
  | [] => rw [evaluateAny, evaluateAny]
  | test :: rest =>
    obtain ⟨answer, left, right, hleft, hright⟩ :=
      exists_of_fst_eq (evaluate_recalled target test h)
    have hfaithful := evaluate_faithful target test h
    have hfresh := evaluate_faithful target test (Memory.faithful_nil doc)
    rw [hleft] at hfaithful
    rw [hright] at hfresh
    rw [evaluateAny, evaluateAny, hleft, hright]
    cases answer with
    | error error => rfl
    | ok holds =>
      cases holds with
      | true => rfl
      | false =>
        exact (evaluateAny_recalled target rest hfaithful).trans
          (evaluateAny_recalled target rest hfresh).symm

end

/-! ## Series -/

theorem evaluateSeries_append (doc : Document) (done left : List (Predicate × Target))
    (memory : Memory) :
    evaluateSeries doc (done ++ left) memory =
      ((evaluateSeries doc done memory).1 ++
          (evaluateSeries doc left (evaluateSeries doc done memory).2).1,
        (evaluateSeries doc left (evaluateSeries doc done memory).2).2) := by
  induction done generalizing memory with
  | nil => simp [evaluateSeries]
  | cons step rest ih =>
    obtain ⟨test, target⟩ := step
    have hrest := ih (evaluate doc target test memory).2
    simp only [List.cons_append, evaluateSeries, hrest]

theorem evaluateSeries_recalled (series : List (Predicate × Target)) (h : memory.Faithful doc) :
    (evaluateSeries doc series memory).1 = series.map fun step => holds doc step.2 step.1 := by
  induction series generalizing memory with
  | nil => rfl
  | cons step rest ih =>
    obtain ⟨test, target⟩ := step
    have hanswer : (evaluate doc target test memory).1 = holds doc target test :=
      evaluate_recalled target test h
    -- The step may have failed: what it leaves is faithful all the same.
    have hrest := ih (evaluate_faithful target test h)
    simp only [evaluateSeries, hanswer, hrest, List.map_cons]

/-- In a series that shares one memory, every predicate comes out as it does alone, whether it
holds, does not hold or fails. Wherever the series is cut, also behind a failure, every entry of the
memory with which the rest goes on is what the query engine answers. -/
theorem evaluateSeries_transparent (doc : Document) (done left : List (Predicate × Target)) :
    let memory := (evaluateSeries doc done []).2
    (evaluateSeries doc (done ++ left) []).1 =
        (done ++ left).map (fun step => holds doc step.2 step.1) ∧
      evaluateSeries doc (done ++ left) [] =
        ((evaluateSeries doc done []).1 ++ (evaluateSeries doc left memory).1,
          (evaluateSeries doc left memory).2) ∧
      memory.Faithful doc := by
  have hempty := Memory.faithful_nil doc
  exact ⟨evaluateSeries_recalled (done ++ left) hempty, evaluateSeries_append doc done left [],
    evaluateSeries_faithful done hempty⟩

end Predicate

/-! ## Rules and categories -/

theorem Rule.recallFirst_recalled {α : Type} (target : Target) (rules : List (Rule α))
    (h : memory.Faithful doc) :
    (recallFirst doc target rules memory).1 = first doc target rules ∧
      (recallFirst doc target rules memory).2.Faithful doc := by
  induction rules generalizing memory with
  | nil => exact ⟨rfl, h⟩
  | cons rule rest ih =>
    have hanswer := Predicate.evaluate_recalled target rule.predicate h
    have hfaithful := Predicate.evaluate_faithful target rule.predicate h
    rw [recallFirst, first, Predicate.holds, ← hanswer]
    generalize rule.predicate.evaluate doc target memory = evaluated at hfaithful ⊢
    obtain ⟨answer, left⟩ := evaluated
    cases answer with
    | error error => exact ⟨rfl, hfaithful⟩
    | ok holds =>
      cases holds with
      | true => exact ⟨rfl, hfaithful⟩
      | false => exact ih hfaithful

theorem Table.recallResolve_recalled {α : Type} (table : Table α) (target : Target)
    (h : memory.Faithful doc) :
    (table.recallResolve doc target memory).1 = table.resolve doc target ∧
      (table.recallResolve doc target memory).2.Faithful doc := by
  obtain ⟨hrule, hfaithful⟩ := Rule.recallFirst_recalled target table.rules h
  unfold recallResolve resolve
  split
  · exact ⟨rfl, h⟩
  · rw [ruleFor, ← hrule]
    exact ⟨rfl, hfaithful⟩

/-- A node is put into the category that it has when it is looked at on its own. -/
theorem Thing.recallClassify_recalled (things : Table Category) (place : Place)
    (h : memory.Faithful doc) :
    (recallClassify doc things place memory).1 = classify doc things place ∧
      (recallClassify doc things place memory).2.Faithful doc := by
  unfold recallClassify classify
  cases doc.checkNode place with
  | error error => exact ⟨rfl, h⟩
  | ok _ => exact things.recallResolve_recalled (Target.ofNode doc place) h

end TreeRules
