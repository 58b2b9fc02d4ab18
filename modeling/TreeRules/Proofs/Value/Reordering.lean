import Mathlib.Data.List.Forall2
import Mathlib.Tactic.Common
import TreeRules.Proofs.Predicate.Writing
import TreeRules.Proofs.Value.Entries

/-! # Values in another order

A mapping keeps the order in which its entries were given, but nothing that is looked up in it
depends on this order, as long as no key is given twice. Values that differ only in the order of
entries, in mappings at any depth, are equal as values.
-/
namespace TreeRules.Value

/-- Induction over values: what holds of the items of a list and of the values of a mapping holds of
the list and of the mapping. -/
@[elab_as_elim]
theorem nested_induction {motive : Value → Prop}
    (scalar : ∀ value, value.isKey = true → motive value)
    (list : ∀ items, (∀ item ∈ items, motive item) → motive (.list items))
    (mapping : ∀ entries, (∀ entry ∈ entries, motive entry.2) → motive (.mapping entries))
    (value : Value) : motive value := by
  match value with
  | .null | .bool _ | .int _ | .real _ | .text _ => exact scalar _ rfl
  | .list items =>
    refine list items fun item hitem => ?_
    exact nested_induction scalar list mapping item
  | .mapping entries =>
    refine mapping entries fun (key, inner) hentry => ?_
    have hsmaller : sizeOf inner < sizeOf entries := by
      have hpair := List.sizeOf_lt_of_mem hentry
      simp only [Prod.mk.sizeOf_spec] at hpair
      omega
    exact nested_induction scalar list mapping inner
termination_by sizeOf value

theorem under?_forall₂ {entries others : List (String × Value)} {same : Value → Value → Prop}
    (hkeys : entries.map Prod.fst = others.map Prod.fst)
    (hvalues : List.Forall₂ same (entries.map Prod.snd) (others.map Prod.snd)) (key : String) :
    Option.Rel same (under? key entries) (under? key others) := by
  induction entries generalizing others with
  | nil =>
    obtain rfl := List.map_eq_nil_iff.mp hkeys.symm
    exact .none
  | cons entry rest ih =>
    cases others with
    | nil => cases hkeys
    | cons other others =>
      obtain ⟨name, value⟩ := entry
      obtain ⟨name', value'⟩ := other
      simp only [List.map_cons, List.cons.injEq] at hkeys
      obtain ⟨rfl, hrest⟩ := hkeys
      obtain ⟨hvalue, hvalues⟩ := List.forall₂_cons.mp hvalues
      rw [under?, under?, List.lookup_cons, List.lookup_cons]
      cases key == name with
      | true => exact .some hvalue
      | false => exact ih hrest hvalues

theorem properItems_iff {items : List Value} :
    ProperItems items ↔ ∀ item ∈ items, item.Proper := by
  induction items with
  | nil => simp [ProperItems]
  | cons item rest ih => rw [ProperItems, ih, List.forall_mem_cons]

theorem properEntries_iff {entries : List (String × Value)} :
    ProperEntries entries ↔ ∀ entry ∈ entries, entry.2.Proper := by
  induction entries with
  | nil => simp [ProperEntries]
  | cons entry rest ih =>
    obtain ⟨key, value⟩ := entry
    rw [ProperEntries, ih, List.forall_mem_cons]

/-! ## Reordered values -/

/-- The entries of mappings, at any depth, are given in another order. -/
inductive Reordered : Value → Value → Prop
  | scalar {value : Value} : value.isKey = true → Reordered value value
  | list {items others : List Value} : List.Forall₂ Reordered items others →
      Reordered (.list items) (.list others)
  | mapping {entries others shuffled : List (String × Value)} :
      entries.map Prod.fst = others.map Prod.fst →
      List.Forall₂ Reordered (entries.map Prod.snd) (others.map Prod.snd) →
      others.Perm shuffled → Reordered (.mapping entries) (.mapping shuffled)

namespace Reordered

variable {entries others : List (String × Value)} {value other : Value}

theorem eq_of_isKey (hkey : value.isKey = true) (h : Reordered value other) :
    other = value := by
  cases h with
  | scalar _ => rfl
  | list _ => cases hkey
  | mapping _ _ _ => cases hkey

theorem keys_perm (h : Reordered (.mapping entries) (.mapping others)) :
    (entries.map Prod.fst).Perm (others.map Prod.fst) := by
  cases h with
  | scalar hkey => cases hkey
  | mapping hkeys _ hperm =>
    rw [hkeys]
    exact hperm.map Prod.fst

/-- What stands under a key is the same up to order. -/
theorem under? (hkeys : (entries.map Prod.fst).Nodup)
    (h : Reordered (.mapping entries) (.mapping others)) (key : String) :
    Option.Rel Reordered (Value.under? key entries) (Value.under? key others) := by
  cases h with
  | scalar hkey => cases hkey
  | mapping hsame hvalues hperm =>
    rw [Value.under?, Value.under?, Entries.lookup_perm (hsame ▸ hkeys) hperm]
    exact under?_forall₂ hsame hvalues key

theorem mapping_inv (h : Reordered (.mapping entries) other) :
    ∃ shuffled, other = .mapping shuffled := by
  cases h with
  | scalar hkey => cases hkey
  | mapping _ _ _ => exact ⟨_, rfl⟩

theorem list_inv {items : List Value} (h : Reordered (.list items) other) :
    ∃ shuffled, other = .list shuffled ∧ List.Forall₂ Reordered items shuffled := by
  cases h with
  | scalar hkey => cases hkey
  | list hitems => exact ⟨_, rfl, hitems⟩

theorem eq_of_items {items : List Value} (hkeys : ∀ item ∈ items, item.isKey = true)
    (h : Reordered (.list items) other) : other = .list items := by
  obtain ⟨others, rfl, hitems⟩ := h.list_inv
  have heq : List.Forall₂ Eq items others := by
    apply ((List.forall₂_and_left _ _).mpr ⟨hkeys, hitems⟩).imp
    rintro item twin ⟨hkey, htwin⟩
    exact (htwin.eq_of_isKey hkey).symm
  rw [List.forall₂_eq_eq_eq] at heq
  rw [heq]

theorem truthy_eq (h : Reordered value other) : other.truthy = value.truthy := by
  have hwhole := h
  cases h with
  | scalar _ => rfl
  | list hitems => cases hitems <;> rfl
  | mapping _ _ _ =>
    have hempty := hwhole.keys_perm.isEmpty_eq
    simp only [List.isEmpty_map] at hempty
    rw [truthy, truthy, hempty]

end Reordered

theorem equalItems_iff {items others : List Value} :
    equalItems items others = true ↔
      List.Forall₂ (fun x y => equal x y = true) items others := by
  induction items generalizing others with
  | nil => cases others <;> simp [equalItems]
  | cons item rest ih => cases others <;> simp [equalItems, ih]

theorem equalEntries_iff {entries others : List (String × Value)} :
    equalEntries entries others = true ↔
      ∀ entry ∈ entries, ∃ value, under? entry.1 others = some value ∧
        equal entry.2 value = true := by
  induction entries with
  | nil => simp [equalEntries]
  | cons entry rest ih =>
    obtain ⟨key, value⟩ := entry
    rw [equalEntries, Bool.and_eq_true, ih, List.forall_mem_cons]
    cases under? key others <;> simp

/-- A value is equal to any other that differs from it in the order of entries. -/
theorem Reordered.equal {value other : Value} (hproper : value.Proper)
    (h : Reordered value other) : value.equal other = true := by
  induction value using nested_induction generalizing other with
  | scalar value hkey =>
    rw [h.eq_of_isKey hkey]
    exact equal_self hkey
  | list items ih =>
    obtain ⟨shuffled, rfl, hitems⟩ := h.list_inv
    rw [Value.Proper, properItems_iff] at hproper
    rw [Value.equal, equalItems_iff]
    have heach : List.Forall₂ (fun item twin => item ∈ items ∧ Reordered item twin) items
        shuffled := (List.forall₂_and_left _ _).mpr ⟨fun _ hitem => hitem, hitems⟩
    apply heach.imp
    rintro item twin ⟨hitem, htwin⟩
    exact ih item hitem (hproper item hitem) htwin
  | mapping entries ih =>
    obtain ⟨shuffled, rfl⟩ := h.mapping_inv
    rw [Value.Proper, properEntries_iff] at hproper
    obtain ⟨hkeys, hvalues⟩ := hproper
    have hlength : entries.length = shuffled.length := by
      simpa using h.keys_perm.length_eq
    rw [Value.equal, Bool.and_eq_true, equalEntries_iff]
    refine ⟨by simpa using hlength, ?_⟩
    intro entry hentry
    have hunder := h.under? hkeys entry.1
    rw [Value.under?, Entries.lookup_of_mem hkeys hentry] at hunder
    obtain ⟨twin, htwin, hsame⟩ : ∃ twin, Value.under? entry.1 shuffled = some twin ∧
        Reordered entry.2 twin := by
      generalize Value.under? entry.1 shuffled = found at hunder
      cases hunder with
      | some hsame => exact ⟨_, rfl, hsame⟩
    exact ⟨twin, htwin, ih entry hentry (hvalues entry hentry) hsame⟩

end TreeRules.Value
