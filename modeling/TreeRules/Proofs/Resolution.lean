import Mathlib.Data.List.FinRange
import Mathlib.Data.List.Sort
import TreeRules.Proofs.FirstMatch
import TreeRules.Proofs.Predicate.Capture

/-! # What a table answers

Where no predicate of a table fails on a target, everything that the table answers is given by the
list of its rules that hold: the rule that decides is the head of this list, and the actions are
those of all of it or of its head. So rules may change places as long as those that hold stay in
order. A plain list of rules is a table that does not accumulate.
-/
namespace TreeRules

variable {α : Type} {doc : Document} {target : Target}

namespace Rule

variable {rules : List (Rule α)}

theorem holdsAt_eq_true_iff {rule : Rule α} :
    holdsAt doc target rule = true ↔ rule.predicate.holds doc target = .ok true := by
  unfold holdsAt
  cases rule.predicate.holds doc target with
  | ok answer => simp
  | error error => simp

theorem holdsAt_eq_false_iff {rule : Rule α}
    (h : ∃ answer, rule.predicate.holds doc target = .ok answer) :
    holdsAt doc target rule = false ↔ rule.predicate.holds doc target = .ok false := by
  obtain ⟨answer, hanswer⟩ := h
  rw [holdsAt, hanswer, Except.ok.injEq]

/-- Where no predicate fails, the first rule that holds is the head of those that do. -/
theorem first_eq_head? (h : Decided doc target rules) :
    first doc target rules = .ok (rules.filter (holdsAt doc target)).head? := by
  induction rules with
  | nil => rfl
  | cons rule rest ih =>
    obtain ⟨⟨answer, hanswer⟩, hrest⟩ := decided_cons.mp h
    have hholds : holdsAt doc target rule = answer := by
      rw [holdsAt, hanswer]
    rw [first, hanswer, List.filter_cons, hholds]
    cases answer with
    | true => rfl
    | false => exact ih hrest

/-! ## The rule of least index -/

/-- A rule holds of a target, and none of the rules at smaller indices does. -/
structure Leads (doc : Document) (target : Target) (rules : List (Rule α))
    (index : Fin rules.length) : Prop where
  holds : (rules.get index).predicate.holds doc target = .ok true
  earlier : ∀ other < index, (rules.get other).predicate.holds doc target = .ok false

theorem head?_eq_some_iff (h : Decided doc target rules) {rule : Rule α} :
    (rules.filter (holdsAt doc target)).head? = some rule ↔
      ∃ index, Leads doc target rules index ∧ rules.get index = rule := by
  rw [List.head?_filter, List.find?_eq_some_iff_getElem]
  constructor
  · rintro ⟨hholds, index, hindex, rfl, hearlier⟩
    refine ⟨⟨index, hindex⟩, ⟨holdsAt_eq_true_iff.mp hholds, ?_⟩, rfl⟩
    intro other hother
    have hnot := hearlier other hother
    rw [Bool.not_eq_true'] at hnot
    exact (holdsAt_eq_false_iff (h _ (List.get_mem rules other))).mp hnot
  · rintro ⟨index, hleads, rfl⟩
    refine ⟨holdsAt_eq_true_iff.mpr hleads.holds, index, index.isLt, rfl, ?_⟩
    intro other hother
    have hanswer := hleads.earlier ⟨other, hother.trans index.isLt⟩ hother
    rw [Bool.not_eq_true']
    exact (holdsAt_eq_false_iff ⟨false, hanswer⟩).mpr hanswer

theorem head?_eq_none_iff (h : Decided doc target rules) :
    (rules.filter (holdsAt doc target)).head? = none ↔
      ∀ rule ∈ rules, rule.predicate.holds doc target = .ok false := by
  rw [List.head?_eq_none_iff, List.filter_eq_nil_iff]
  refine forall₂_congr fun rule hrule => ?_
  rw [Bool.not_eq_true, holdsAt_eq_false_iff (h rule hrule)]

/-! ## Rules in another order -/

/-- The rules of a list in another order, given by the place that each is taken from. -/
def rearranged (rules : List (Rule α)) (places : Equiv.Perm (Fin rules.length)) : List (Rule α) :=
  List.ofFn fun index => rules.get (places index)

/-- Any two rules that hold of a target stand in the order in which they stood before. -/
def KeepsOrder (doc : Document) (target : Target) (rules : List (Rule α))
    (places : Equiv.Perm (Fin rules.length)) : Prop :=
  ∀ i j, i < j → (rules.get (places i)).predicate.holds doc target = .ok true →
    (rules.get (places j)).predicate.holds doc target = .ok true → places i < places j

variable {places : Equiv.Perm (Fin rules.length)}

theorem rearranged_eq : rearranged rules places =
    ((List.finRange rules.length).map places).map rules.get := by
  rw [rearranged, List.ofFn_eq_map, List.map_map]
  rfl

theorem decided_rearranged (h : Decided doc target rules) :
    Decided doc target (rearranged rules places) := by
  intro rule hrule
  obtain ⟨index, rfl⟩ := List.mem_ofFn.mp hrule
  exact h _ (List.get_mem rules (places index))

/-- The rules that hold are the same, in the same order. -/
theorem filter_rearranged (h : KeepsOrder doc target rules places) :
    (rearranged rules places).filter (holdsAt doc target) =
      rules.filter (holdsAt doc target) := by
  -- Both sides list the indices of the rules that hold, and both do so in increasing order.
  have hindices : ((List.finRange rules.length).map places).filter
        (holdsAt doc target ∘ rules.get) =
      (List.finRange rules.length).filter (holdsAt doc target ∘ rules.get) := by
    have hperm := places.map_finRange_perm.filter (holdsAt doc target ∘ rules.get)
    have hsorted := List.pairwise_lt_finRange rules.length
    refine hperm.eq_of_pairwise' ?_ (hsorted.filter _)
    rw [List.filter_map, List.pairwise_map]
    refine (hsorted.filter _).imp_of_mem ?_
    intro i j hi hj hij
    have hleft := holdsAt_eq_true_iff.mp (List.mem_filter.mp hi).2
    have hright := holdsAt_eq_true_iff.mp (List.mem_filter.mp hj).2
    exact h i j hij hleft hright
  calc (rearranged rules places).filter (holdsAt doc target)
      = (((List.finRange rules.length).map places).filter
          (holdsAt doc target ∘ rules.get)).map rules.get := by
        rw [rearranged_eq, List.filter_map]
    _ = ((List.finRange rules.length).map rules.get).filter (holdsAt doc target) := by
        rw [hindices, List.filter_map]
    _ = rules.filter (holdsAt doc target) := by
        rw [List.map_get_finRange]

end Rule

namespace Table

variable {table : Table α}

/-- A table with its rules in another order. -/
def rearranged (table : Table α) (places : Equiv.Perm (Fin table.rules.length)) : Table α :=
  { table with rules := Rule.rearranged table.rules places }

theorem ruleFor_eq (h : Rule.Decided doc target table.rules) :
    table.ruleFor doc target =
      .ok (table.rules.filter (Rule.holdsAt doc target)).head? :=
  Rule.first_eq_head? h

theorem resolveAll_eq (h : Rule.Decided doc target table.rules) :
    table.resolveAll doc target =
      .ok (if table.accumulating then
          (table.rules.filter (Rule.holdsAt doc target)).map (·.action)
        else ((table.rules.filter (Rule.holdsAt doc target)).head?.map (·.action)).toList) := by
  rw [resolveAll, ruleFor_eq h, Rule.matching_eq_filter h]
  split <;> rfl

theorem ruleFor_rearranged {places : Equiv.Perm (Fin table.rules.length)}
    (h : Rule.Decided doc target table.rules)
    (hplaces : Rule.KeepsOrder doc target table.rules places) :
    (table.rearranged places).ruleFor doc target = table.ruleFor doc target := by
  have hdecided : Rule.Decided doc target (table.rearranged places).rules :=
    Rule.decided_rearranged h
  rw [ruleFor_eq hdecided, ruleFor_eq h, rearranged, Rule.filter_rearranged hplaces]

theorem resolveAll_rearranged {places : Equiv.Perm (Fin table.rules.length)}
    (h : Rule.Decided doc target table.rules)
    (hplaces : Rule.KeepsOrder doc target table.rules places) :
    (table.rearranged places).resolveAll doc target = table.resolveAll doc target := by
  have hdecided : Rule.Decided doc target (table.rearranged places).rules :=
    Rule.decided_rearranged h
  rw [resolveAll_eq hdecided, resolveAll_eq h, rearranged, Rule.filter_rearranged hplaces]

/-- An accumulating table refuses to name one action. Where no predicate fails on a target, the rule
that decides is the one of least index that holds, and there is none only if no rule holds; rules
that change places without passing one another where both hold change neither this rule nor the
actions. A table that does not accumulate has the action of this rule or none, and an accumulating
one the actions of all rules that hold, in order, with that of this rule at the head. -/
theorem resolution (table : Table α) :
    (table.accumulating = true → ∀ doc target,
      table.resolve doc target = .error (.predicate (.accumulating table.name))) ∧
    ∀ doc target, Rule.Decided doc target table.rules → ∃ decides,
      table.ruleFor doc target = .ok decides ∧
      (∀ rule, decides = some rule ↔
        ∃ index, Rule.Leads doc target table.rules index ∧ table.rules.get index = rule) ∧
      (decides = none ↔
        ∀ rule ∈ table.rules, rule.predicate.holds doc target = .ok false) ∧
      (∀ places, Rule.KeepsOrder doc target table.rules places →
        (table.rearranged places).ruleFor doc target = table.ruleFor doc target ∧
        (table.rearranged places).resolveAll doc target = table.resolveAll doc target) ∧
      (table.accumulating = false →
        table.resolveAll doc target = .ok (decides.map (·.action)).toList ∧
        table.resolve doc target = .ok (decides.map (·.action))) ∧
      (table.accumulating = true → ∃ actions, table.resolveAll doc target = .ok actions ∧
        actions = (table.rules.filter (Rule.holdsAt doc target)).map (·.action) ∧
        actions.head? = decides.map (·.action)) := by
  constructor
  · intro haccumulating doc target
    rw [resolve, if_pos haccumulating]
  · intro doc target h
    refine ⟨_, ruleFor_eq h, fun _ => Rule.head?_eq_some_iff h, Rule.head?_eq_none_iff h, ?_, ?_,
      ?_⟩
    · intro places hplaces
      exact ⟨ruleFor_rearranged h hplaces, resolveAll_rearranged h hplaces⟩
    · intro hsingle
      rw [resolveAll_eq h, resolve, ruleFor_eq h, hsingle]
      exact ⟨rfl, rfl⟩
    · intro haccumulating
      refine ⟨_, resolveAll_eq h, ?_, ?_⟩
      · rw [if_pos haccumulating]
      · rw [if_pos haccumulating, List.head?_map]

/-! ### Two rules that hold behind one that does not -/

open Predicate (truthDocument truthNamed)

def truthTarget : Target := Target.ofNode truthDocument truthNamed

def capturedRule : Rule String :=
  ⟨.captured (.text "(true) @value") (.text "value"), "value", .null⟩

def truthTable : Table String where
  name := "truths"
  rules := [⟨.noNode, "gap", .null⟩, capturedRule, ⟨.always, "rest", .null⟩]
  accumulating := true

theorem capturedRule_holds : capturedRule.predicate.holds truthDocument truthTarget = .ok true := by
  cbv

theorem decided_truth : Rule.Decided truthDocument truthTarget truthTable.rules := by
  simp only [Rule.Decided, truthTable, List.forall_mem_cons]
  exact ⟨⟨false, rfl⟩, ⟨true, capturedRule_holds⟩, ⟨true, rfl⟩, nofun⟩

/-- The first two rules change places. -/
def truthPlaces : Equiv.Perm (Fin 3) := Equiv.swap 0 1

theorem keepsOrder_truth :
    Rule.KeepsOrder truthDocument truthTarget truthTable.rules truthPlaces := by
  have hgap : (truthTable.rules.get (truthPlaces 1)).predicate.holds truthDocument truthTarget =
      .ok false := rfl
  have hsecond : ∀ index : Fin 3,
      (truthTable.rules.get (truthPlaces index)).predicate.holds truthDocument truthTarget =
        .ok true → index ≠ 1 := by
    rintro index hholds rfl
    rw [hgap] at hholds
    cases hholds
  have hplaces : ∀ i j : Fin 3, i < j → i ≠ 1 → j ≠ 1 → truthPlaces i < truthPlaces j := by decide
  intro i j hij hleft hright
  exact hplaces i j hij (hsecond i hleft) (hsecond j hright)

theorem leads_truth : Rule.Leads truthDocument truthTarget truthTable.rules (1 : Fin 3) := by
  have hearlier : ∀ other : Fin 3, other < 1 → other = 0 := by decide
  refine ⟨capturedRule_holds, ?_⟩
  intro other hother
  obtain rfl := hearlier other hother
  rfl

/-- The table refuses to name one action, and what it lists does not change with the places of its
first two rules. -/
theorem resolution_truth :
    Rule.Decided truthDocument truthTarget truthTable.rules ∧
    Rule.KeepsOrder truthDocument truthTarget truthTable.rules truthPlaces ∧
    truthTable.resolve truthDocument truthTarget = .error (.predicate (.accumulating "truths")) ∧
    (truthTable.rearranged truthPlaces).ruleFor truthDocument truthTarget =
      .ok (some capturedRule) ∧
    (truthTable.rearranged truthPlaces).resolveAll truthDocument truthTarget =
      .ok ["value", "rest"] := by
  obtain ⟨hrefused, hdecided⟩ := resolution truthTable
  obtain ⟨decides, hrule, hleast, -, hplaces, -, hall⟩ := hdecided _ _ decided_truth
  obtain rfl := (hleast capturedRule).mpr ⟨(1 : Fin 3), leads_truth, rfl⟩
  obtain ⟨actions, hactions, rfl, -⟩ := hall rfl
  obtain ⟨hsame, hsameAll⟩ := hplaces truthPlaces keepsOrder_truth
  have hcaptured : Rule.holdsAt truthDocument truthTarget capturedRule = true :=
    Rule.holdsAt_eq_true_iff.mpr capturedRule_holds
  have hfilter : truthTable.rules.filter (Rule.holdsAt truthDocument truthTarget) =
      [capturedRule, ⟨.always, "rest", .null⟩] := by
    simp only [truthTable, List.filter_cons, hcaptured]
    rfl
  rw [hfilter] at hactions
  exact ⟨decided_truth, keepsOrder_truth, hrefused rfl _ _, hsame.trans hrule,
    hsameAll.trans hactions⟩

end Table

end TreeRules
