import Mathlib.Data.List.Nodup
import Mathlib.Tactic.Common
import TreeRules.Value.Basic

/-! # Entries under keys

What stands under a key among the entries of a mapping. As long as no key is given twice, this does
not depend on the order of the entries.
-/
namespace TreeRules.Entries

variable {α β : Type} {entries others : List (String × α)} {key : String} {value : α}

theorem mem_of_lookup (h : entries.lookup key = some value) : (key, value) ∈ entries := by
  obtain ⟨front, back, rfl, -⟩ := List.lookup_eq_some_iff.mp h
  exact List.mem_append_right _ List.mem_cons_self

theorem lookup_of_mem (hkeys : (entries.map Prod.fst).Nodup) (h : (key, value) ∈ entries) :
    entries.lookup key = some value := by
  obtain ⟨front, back, rfl⟩ := List.append_of_mem h
  refine List.lookup_eq_some_iff.mpr ⟨front, back, rfl, ?_⟩
  intro entry hentry
  rw [List.map_append, List.map_cons, List.nodup_append] at hkeys
  have hdiffers := hkeys.2.2 entry.1 (List.mem_map_of_mem hentry) key List.mem_cons_self
  simpa using hdiffers.symm

theorem lookup_perm (hkeys : (entries.map Prod.fst).Nodup) (hperm : entries.Perm others)
    (key : String) : others.lookup key = entries.lookup key := by
  have hkeys' : (others.map Prod.fst).Nodup := (hperm.map Prod.fst).nodup_iff.mp hkeys
  apply Option.ext
  intro value
  constructor
  · intro hothers
    exact lookup_of_mem hkeys (hperm.mem_iff.mpr (mem_of_lookup hothers))
  · intro hentries
    exact lookup_of_mem hkeys' (hperm.mem_iff.mp (mem_of_lookup hentries))

theorem lookup_map_value (f : String → α → β) (entries : List (String × α)) (key : String) :
    (entries.map fun entry => (entry.1, f entry.1 entry.2)).lookup key =
      (entries.lookup key).map (f key) := by
  induction entries with
  | nil => rfl
  | cons first rest ih =>
    obtain ⟨k, value⟩ := first
    by_cases hk : key = k
    · simp [hk]
    · have hk' : (key == k) = false := beq_eq_false_iff_ne.mpr hk
      simp [List.lookup_cons, hk', ih]

end TreeRules.Entries
