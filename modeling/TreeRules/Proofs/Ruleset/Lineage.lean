import Mathlib.Data.List.Basic
import Mathlib.Tactic.Common
import TreeRules.Ruleset.Reader

/-! # Lineages of rulesets

The lineage of a ruleset holds the ruleset, the one that it extends, and so on up to one that extends
nothing. Following the links with a list of visited rulesets finds exactly the lineages in which no
name comes twice.
-/
namespace TreeRules.Ruleset

variable {rulesets : List (String × Value)}

/-- The rulesets that a link leads to, nearest first. -/
inductive Lineage (rulesets : List (String × Value)) : Value → List (String × Value) → Prop
  | root : Lineage rulesets .null []
  | step {name : String} {entries chain : List (String × Value)} :
      Value.under? name rulesets = some (.mapping entries) →
      Lineage rulesets ((Value.under? "extends" entries).getD .null) chain →
      Lineage rulesets (.text name) ((name, .mapping entries) :: chain)

abbrev namesOf (chain : List (String × Value)) : List String := chain.map Prod.fst

/-- Every ruleset of a lineage starts a lineage of its own. -/
theorem Lineage.suffix {link : Value} {front rest : List (String × Value)} {item : String × Value}
    (h : Lineage rulesets link (front ++ item :: rest)) :
    Lineage rulesets (.text item.1) (item :: rest) := by
  induction front generalizing link with
  | nil =>
    cases h with
    | step hname hrest => exact .step hname hrest
  | cons first front ih =>
    cases h with
    | step _ hrest => exact ih hrest

theorem Lineage.unique {link : Value} {chain other : List (String × Value)}
    (h : Lineage rulesets link chain) (hother : Lineage rulesets link other) : chain = other := by
  induction h generalizing other with
  | root =>
    cases hother
    rfl
  | step hname _ ih =>
    cases hother with
    | step hname' hrest =>
      rw [hname] at hname'
      cases hname'
      rw [ih hrest]

theorem under?_eq_find? (name : String) (rulesets : List (String × Value)) :
    Value.under? name rulesets = (rulesets.find? (·.1 == name)).map Prod.snd := by
  induction rulesets with
  | nil => rfl
  | cons first rest ih =>
    obtain ⟨key, value⟩ := first
    unfold Value.under? at ih ⊢
    by_cases hk : key = name
    · simp [hk]
    · have hk' : (name == key) = false := beq_eq_false_iff_ne.2 (Ne.symm hk)
      simp [List.lookup_cons, hk, hk', ih]

theorem find?_without {name other : String} (h : other ≠ name) :
    (without name rulesets).find? (·.1 == other) = rulesets.find? (·.1 == other) := by
  unfold without
  rw [List.find?_filter]
  congr 1
  funext item
  by_cases hi : item.1 = other
  · simp [hi, h]
  · simp [hi]

/-- The rulesets that are left are those that were not visited. -/
def LeftOf (rulesets visited left : List (String × Value)) : Prop :=
  ∀ name, name ∉ namesOf visited →
    left.find? (·.1 == name) = rulesets.find? (·.1 == name)

theorem leftOf_start : LeftOf rulesets [] rulesets := fun _ _ => rfl

theorem LeftOf.visit {visited left : List (String × Value)} (h : LeftOf rulesets visited left)
    (name : String) (ruleset : Value) :
    LeftOf rulesets ((name, ruleset) :: visited) (without name left) := by
  intro other hother
  simp only [namesOf, List.map_cons, List.mem_cons, not_or] at hother
  rw [find?_without hother.1]
  exact h other hother.2

theorem any_name_eq {visited : List (String × Value)} {name : String} :
    visited.any (·.1 == name) = true ↔ name ∈ namesOf visited := by
  simp [namesOf]

theorem ancestry_text_eq_ok {requested name : String} {visited left result : List (String × Value)}
    (h : ancestry requested visited left (.text name) = .ok result) :
    name ∉ namesOf visited ∧ ∃ key entries,
      left.find? (·.1 == name) = some (key, .mapping entries) ∧
      ancestry requested ((name, .mapping entries) :: visited) (without name left)
        ((Value.under? "extends" entries).getD .null) = .ok result := by
  rw [ancestry] at h
  split at h
  next => cases h
  next hnew =>
    refine ⟨fun hm => hnew (any_name_eq.2 hm), ?_⟩
    split at h
    next => split at h <;> cases h
    next key entries hfind => exact ⟨key, entries, hfind, h⟩
    next => cases h

theorem ancestry_eq_ok_cases {requested : String} {visited left result : List (String × Value)}
    {link : Value} (h : ancestry requested visited left link = .ok result) :
    (link = .null ∧ result = visited) ∨ ∃ name, link = .text name := by
  cases link with
  | null =>
    rw [ancestry] at h
    cases h
    exact .inl ⟨rfl, rfl⟩
  | text name => exact .inr ⟨name, rfl⟩
  | _ =>
    rw [ancestry.eq_def] at h
    dsimp only at h
    split at h
    · split at h <;> cases h
    · cases h

/-- What following the links finds is a lineage, base first, on top of what was visited. -/
theorem ancestry_sound {requested : String} {visited left : List (String × Value)} {link : Value}
    {result : List (String × Value)} (hleft : LeftOf rulesets visited left)
    (h : ancestry requested visited left link = .ok result) :
    ∃ chain, Lineage rulesets link chain ∧ result = chain.reverse ++ visited ∧
      (namesOf chain).Nodup ∧ ∀ name ∈ namesOf chain, name ∉ namesOf visited := by
  -- Every step takes a ruleset away from those that are left.
  induction hn : left.length using Nat.strongRecOn generalizing visited left link with
  | ind n ih =>
    obtain ⟨rfl, rfl⟩ | ⟨name, rfl⟩ := ancestry_eq_ok_cases h
    · exact ⟨[], .root, by simp⟩
    · obtain ⟨hname, key, entries, hfind, hnext⟩ := ancestry_text_eq_ok h
      obtain ⟨chain, hchain, rfl, hnodup, hdisjoint⟩ :=
        ih _ (hn ▸ length_without_lt hfind) (hleft.visit name _) hnext rfl
      rw [hleft name hname] at hfind
      have hfresh : name ∉ namesOf chain := fun hm => hdisjoint name hm List.mem_cons_self
      have hunder : Value.under? name rulesets = some (.mapping entries) := by
        rw [under?_eq_find?, hfind, Option.map_some]
      refine ⟨_, .step hunder hchain, by simp, List.nodup_cons.2 ⟨hfresh, hnodup⟩, ?_⟩
      refine List.forall_mem_cons.2 ⟨hname, fun other ho hv => ?_⟩
      exact hdisjoint other ho (List.mem_cons_of_mem _ hv)

/-- A lineage in which no name comes twice is found. -/
theorem ancestry_complete (requested : String) {visited left chain : List (String × Value)}
    {link : Value} (hchain : Lineage rulesets link chain) (hleft : LeftOf rulesets visited left)
    (hnodup : (namesOf chain).Nodup) (hnew : ∀ name ∈ namesOf chain, name ∉ namesOf visited) :
    ancestry requested visited left link = .ok (chain.reverse ++ visited) := by
  induction hchain generalizing visited left with
  | root => simp [ancestry]
  | @step name entries chain hunder _ ih =>
    obtain ⟨hname, hrest⟩ := List.forall_mem_cons.1 hnew
    obtain ⟨hfresh, hnodup⟩ := List.nodup_cons.1 hnodup
    have hvisited : visited.any (·.1 == name) = false := by
      rw [← Bool.not_eq_true, any_name_eq]
      exact hname
    rw [under?_eq_find?, ← hleft name hname] at hunder
    obtain ⟨⟨key, ruleset⟩, hfind, hruleset⟩ := Option.map_eq_some_iff.1 hunder
    dsimp only at hruleset
    subst hruleset
    have hnext := ih (hleft.visit name (.mapping entries)) hnodup fun other ho hv => by
      rcases List.mem_cons.1 hv with rfl | hv
      · exact hfresh ho
      · exact hrest other ho hv
    rw [ancestry]
    simp only [hvisited, Bool.false_eq_true, if_false]
    split
    next hnone => simp [hfind] at hnone
    next found hsome =>
      rw [hfind] at hsome
      cases hsome
      rw [hnext]
      simp
    next found hother hsome =>
      rw [hfind] at hsome
      cases hsome
      exact absurd rfl (hother key entries)

end TreeRules.Ruleset
