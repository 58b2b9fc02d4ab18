import Mathlib.Data.List.Basic
import Mathlib.Tactic.Common
import TreeRules.Table

/-! # First matches

The rule that decides a target is the first one that holds of it. A table that is put together from
parts is therefore decided by the first part that has an answer, as long as no predicate fails.
-/
namespace TreeRules

variable {α : Type} {doc : Document} {target : Target}

namespace Rule

/-- No predicate of some rules fails on a target. -/
def Decided (doc : Document) (target : Target) (rules : List (Rule α)) : Prop :=
  ∀ rule ∈ rules, ∃ answer, rule.predicate.holds doc target = .ok answer

theorem decided_cons {rule : Rule α} {rest : List (Rule α)} :
    Decided doc target (rule :: rest) ↔
      (∃ answer, rule.predicate.holds doc target = .ok answer) ∧ Decided doc target rest :=
  List.forall_mem_cons

theorem decided_append {front back : List (Rule α)} :
    Decided doc target (front ++ back) ↔
      Decided doc target front ∧ Decided doc target back :=
  List.forall_mem_append

theorem first_succeeds {rules : List (Rule α)} (h : Decided doc target rules) :
    ∃ answer, first doc target rules = .ok answer := by
  induction rules with
  | nil => exact ⟨none, rfl⟩
  | cons rule rest ih =>
    obtain ⟨⟨answer, hanswer⟩, hrest⟩ := decided_cons.1 h
    cases answer with
    | true => exact ⟨some rule, by simp [first, hanswer]⟩
    | false => simpa [first, hanswer] using ih hrest

/-- The first rule that holds stands behind rules that do not. -/
theorem first_eq_some_iff {rules : List (Rule α)} {rule : Rule α} :
    first doc target rules = .ok (some rule) ↔
      ∃ front back, rules = front ++ rule :: back ∧
        (∀ earlier ∈ front, earlier.predicate.holds doc target = .ok false) ∧
        rule.predicate.holds doc target = .ok true := by
  induction rules with
  | nil =>
    constructor
    · intro h
      cases h
    · rintro ⟨front, back, hrules, -⟩
      simp at hrules
  | cons head rest ih =>
    rw [first]
    constructor
    · intro h
      split at h
      next hhead =>
        cases h
        exact ⟨[], rest, rfl, nofun, hhead⟩
      next hhead =>
        obtain ⟨front, back, rfl, hfront, hrule⟩ := ih.1 h
        exact ⟨head :: front, back, rfl, List.forall_mem_cons.2 ⟨hhead, hfront⟩, hrule⟩
      next => cases h
    · rintro ⟨front, back, hrules, hfront, hrule⟩
      cases front with
      | nil =>
        cases hrules
        rw [hrule]
      | cons earlier front =>
        cases hrules
        obtain ⟨hhead, hfront⟩ := List.forall_mem_cons.1 hfront
        rw [hhead]
        exact ih.2 ⟨front, back, rfl, hfront, hrule⟩

theorem mem_of_first {rules : List (Rule α)} {rule : Rule α}
    (h : first doc target rules = .ok (some rule)) : rule ∈ rules := by
  obtain ⟨front, back, rfl, -⟩ := first_eq_some_iff.1 h
  exact List.mem_append_right _ List.mem_cons_self

theorem mem_of_matching {rules found : List (Rule α)} (h : matching doc target rules = .ok found)
    {rule : Rule α} (hrule : rule ∈ found) :
    rule ∈ rules ∧ rule.predicate.holds doc target = .ok true := by
  induction rules generalizing found with
  | nil =>
    cases h
    cases hrule
  | cons head rest ih =>
    rw [matching] at h
    split at h
    next hhead =>
      obtain ⟨others, hothers, rfl⟩ := Outcome.map_eq_ok.1 h
      rcases List.mem_cons.1 hrule with rfl | hrule
      · exact ⟨List.mem_cons_self, hhead⟩
      · have hrest := ih hothers hrule
        exact ⟨List.mem_cons_of_mem _ hrest.1, hrest.2⟩
    next =>
      have hrest := ih h hrule
      exact ⟨List.mem_cons_of_mem _ hrest.1, hrest.2⟩
    next => cases h

section Congruence

variable {other : Document} {twin : Target} {rules : List (Rule α)}

theorem first_congr
    (h : ∀ rule ∈ rules, rule.predicate.holds other twin = rule.predicate.holds doc target) :
    first other twin rules = first doc target rules := by
  induction rules with
  | nil => rfl
  | cons rule rest ih =>
    obtain ⟨hrule, hrest⟩ := List.forall_mem_cons.1 h
    rw [first, first, hrule, ih hrest]

theorem matching_congr
    (h : ∀ rule ∈ rules, rule.predicate.holds other twin = rule.predicate.holds doc target) :
    matching other twin rules = matching doc target rules := by
  induction rules with
  | nil => rfl
  | cons rule rest ih =>
    obtain ⟨hrule, hrest⟩ := List.forall_mem_cons.1 h
    rw [matching, matching, hrule, ih hrest]

end Congruence

/-- Whether a rule holds of a target; a predicate that fails does not hold. -/
def holdsAt (doc : Document) (target : Target) (rule : Rule α) : Bool :=
  match rule.predicate.holds doc target with
  | .ok answer => answer
  | .error _ => false

/-- Where no predicate fails, the rules that match are those that hold. -/
theorem matching_eq_filter {rules : List (Rule α)} (h : Decided doc target rules) :
    matching doc target rules = .ok (rules.filter (holdsAt doc target)) := by
  induction rules with
  | nil => rfl
  | cons rule rest ih =>
    obtain ⟨⟨answer, hanswer⟩, hrest⟩ := decided_cons.1 h
    have hholds : holdsAt doc target rule = answer := by
      rw [holdsAt, hanswer]
    rw [matching, hanswer, ih hrest, List.filter_cons, hholds]
    cases answer with
    | true => rfl
    | false => rfl

/-- The rules in front decide if they have an answer, and else those behind them. -/
theorem first_append {front back : List (Rule α)} {answer : Option (Rule α)}
    (h : first doc target front = .ok answer) :
    first doc target (front ++ back) =
      answer.elim (first doc target back) fun rule => .ok (some rule) := by
  induction front with
  | nil =>
    cases h
    rfl
  | cons rule rest ih =>
    rw [List.cons_append, first]
    rw [first] at h
    split at h
    · cases h
      rfl
    · exact ih h
    · cases h

/-- Rules in parts: the answer is the first one that a part has. -/
theorem first_flatten {parts : List (List (Rule α))} (h : Decided doc target parts.flatten) :
    ∃ answers, List.Forall₂ (fun part answer => first doc target part = .ok answer) parts answers ∧
      first doc target parts.flatten = .ok (answers.findSome? id) := by
  induction parts with
  | nil => exact ⟨[], .nil, rfl⟩
  | cons part rest ih =>
    rw [List.flatten_cons, decided_append] at h
    obtain ⟨answer, hanswer⟩ := first_succeeds h.1
    obtain ⟨answers, hanswers, hfirst⟩ := ih h.2
    refine ⟨answer :: answers, .cons hanswer hanswers, ?_⟩
    rw [List.flatten_cons, first_append hanswer, hfirst]
    cases answer with
    | none => rfl
    | some rule => rfl

end Rule

namespace Table

variable {table base : Table α}

/-- A rule of a table gives its action to a target: it holds of it, and unless the table
accumulates no rule before it does. -/
structure Chooses (table : Table α) (doc : Document) (target : Target) (rule : Rule α) : Prop where
  mem : rule ∈ table.rules
  holds : rule.predicate.holds doc target = .ok true
  first : table.accumulating = false → ∃ front back, table.rules = front ++ rule :: back ∧
    ∀ earlier ∈ front, earlier.predicate.holds doc target = .ok false

theorem chooses_of_mem_resolveAll {actions : List α} {action : α}
    (h : table.resolveAll doc target = .ok actions) (haction : action ∈ actions) :
    ∃ rule, table.Chooses doc target rule ∧ rule.action = action := by
  unfold resolveAll at h
  split at h
  next haccumulating =>
    obtain ⟨found, hfound, rfl⟩ := Outcome.map_eq_ok.1 h
    obtain ⟨rule, hrule, rfl⟩ := List.mem_map.1 haction
    obtain ⟨hmem, hholds⟩ := Rule.mem_of_matching hfound hrule
    refine ⟨rule, ⟨hmem, hholds, fun hsingle => ?_⟩, rfl⟩
    rw [haccumulating] at hsingle
    cases hsingle
  next =>
    obtain ⟨found, hfound, rfl⟩ := Outcome.map_eq_ok.1 h
    obtain ⟨rule, rfl, rfl⟩ := Option.map_eq_some_iff.1 (Option.mem_toList.1 haction)
    obtain ⟨front, back, hrules, hfront, hholds⟩ := Rule.first_eq_some_iff.1 hfound
    have hmem := Rule.mem_of_first hfound
    exact ⟨rule, ⟨hmem, hholds, fun _ => ⟨front, back, hrules, hfront⟩⟩, rfl⟩

theorem resolveAll_congr {other : Document} {twin : Target}
    (h : ∀ rule ∈ table.rules, rule.predicate.holds other twin = rule.predicate.holds doc target) :
    table.resolveAll other twin = table.resolveAll doc target := by
  rw [resolveAll, resolveAll, ruleFor, ruleFor, Rule.matching_congr h, Rule.first_congr h]

/-- The parts of a table answer one after the other: wherever no predicate fails, the rule that
decides is the first one that a part has. -/
def FallsThrough (table : Table α) (parts : List (List (Rule α))) : Prop :=
  ∀ doc target, Rule.Decided doc target table.rules → ∃ answers,
    List.Forall₂ (fun part answer => Rule.first doc target part = .ok answer) parts answers ∧
      table.ruleFor doc target = .ok (answers.findSome? id)

theorem fallsThrough_of_flatten {parts : List (List (Rule α))} (h : table.rules = parts.flatten) :
    table.FallsThrough parts := by
  intro doc target hdecided
  unfold ruleFor
  rw [h] at hdecided ⊢
  exact Rule.first_flatten hdecided

/-- Rules in front of a table leave its catch-all where it is. -/
theorem hasCatchAll_of_append {front : List (Rule α)} (h : table.rules = front ++ base.rules)
    (hbase : base.hasCatchAll) : table.hasCatchAll := by
  unfold hasCatchAll at *
  obtain ⟨last, hlast, halways⟩ := (Option.any_eq_true _ _).1 hbase
  rw [h, List.getLast?_append, hlast]
  exact halways

/-- A table with a catch-all has a rule for every target. -/
theorem ruleFor_of_hasCatchAll (h : table.hasCatchAll)
    (hdecided : Rule.Decided doc target table.rules) :
    ∃ rule, table.ruleFor doc target = .ok (some rule) := by
  unfold hasCatchAll at h
  unfold ruleFor
  obtain ⟨last, hlast, halways⟩ := (Option.any_eq_true _ _).1 h
  obtain ⟨front, hfront⟩ := List.getLast?_eq_some_iff.1 hlast
  rw [hfront] at hdecided ⊢
  obtain ⟨answer, hanswer⟩ := Rule.first_succeeds (Rule.decided_append.1 hdecided).1
  rw [Rule.first_append hanswer]
  cases answer with
  | some rule => exact ⟨rule, rfl⟩
  | none =>
    have hholds : last.predicate.holds doc target = .ok true := by
      cases hp : last.predicate with
      | always => simp [Predicate.holds, Predicate.evaluate]
      | _ => simp [hp, Predicate.isAlways] at halways
    exact ⟨last, by simp [Rule.first, hholds]⟩

end Table

end TreeRules
