import TreeRules.Proofs.Outline.Tour

/-! # The smallest thing around a byte

The search around a byte starts at the node where the descent ends and goes up from there. In a tree
that is in order, it looks at all nodes around the byte and at no others, from the inside out. What
it finds first is therefore the thing that is inside all others around the byte.
-/
namespace TreeRules.Thing

variable {doc : Document} {things : Table Category} {category : Category} {byte : Nat}

/-- A thing of a category around a byte that is below all others around it. -/
structure Innermost (doc : Document) (things : Table Category) (category : Category) (byte : Nat)
    (place : Place) : Prop where
  mem : place ∈ doc.tree.places
  belongs : isA doc things category place = .ok true
  around : place.Around byte
  inside : ∀ other ∈ doc.tree.places, isA doc things category other = .ok true →
    other.Around byte →
      other ∈ place.upwards ∧ other.start ≤ place.start ∧ place.stop ≤ other.stop

theorem Innermost.unique {place other : Place} (h : Innermost doc things category byte place)
    (hother : Innermost doc things category byte other) : place = other := by
  have hup := (hother.inside place h.mem h.belongs h.around).1
  have hdown := (h.inside other hother.mem hother.belongs hother.around).1
  exact Place.mem_upwards_antisymm hup hdown

namespace Walkable

theorem enclosing_eq_first (h : Walkable doc things) (hblank : doc.source.isBlank = false)
    (category : Category) (hbyte : doc.root.Around byte) :
    enclosing doc things byte category =
      first doc things category (doc.tree.descend byte).upwards := by
  have hsize : doc.root.stop ≤ doc.source.size :=
    (Document.checkNode_eq_ok_iff.1 (h.checked _ doc.tree.root_mem_places)).2.1
  have hinside : byte ≤ doc.source.size := by
    have hstop := hbyte.2
    omega
  rw [enclosing, Source.checkByte_natCast hinside, Document.smallestAround, hblank]
  rfl

/-- The search comes by the things around the byte from the inside out. -/
theorem first_upwards (h : Walkable doc things) (category : Category)
    (hbyte : doc.root.Around byte) :
    (first doc things category (doc.tree.descend byte).upwards = .ok none ∧
        ∀ place ∈ doc.tree.places, isA doc things category place = .ok true →
          ¬place.Around byte) ∨
      ∃ place, first doc things category (doc.tree.descend byte).upwards = .ok (some place) ∧
        Innermost doc things category byte place := by
  have hway : ∀ place, place ∈ (doc.tree.descend byte).upwards ↔
      place ∈ doc.tree.places ∧ place.Around byte :=
    fun place => h.arranged.mem_upwards_descend_iff h.filled hbyte
  have hdecided : ∀ place ∈ (doc.tree.descend byte).upwards,
      ∃ answer, isA doc things category place = .ok answer :=
    fun place hplace => h.isA_succeeds category ((hway place).1 hplace).1
  rcases first_pairwise Place.self_mem_upwards (Place.upwards_pairwise _) hdecided with
    ⟨hnone, hall⟩ | ⟨found, hmem, hfound, hbelongs, hall⟩
  · refine .inl ⟨hnone, ?_⟩
    intro place hplace hthing haround
    have hfalse := hall place ((hway place).2 ⟨hplace, haround⟩)
    cases hfalse.symm.trans hthing
  · obtain ⟨hplace, haround⟩ := (hway found).1 hmem
    refine .inr ⟨found, hfound, hplace, hbelongs, haround, ?_⟩
    intro other hother hthing hbyte
    have hup := hall other ((hway other).2 ⟨hother, hbyte⟩) hthing
    exact ⟨hup, h.arranged.inside hplace hup⟩

end Walkable

/-- Inside the root of a document that is not blank, the search for the smallest thing around a byte
has an answer. It is the thing of the category that is below all others around the byte, and lies
inside them; and it is nothing just if there is no such thing around the byte. -/
theorem enclosing_innermost {doc : Document} {things : Table Category} (h : Walkable doc things)
    (hblank : doc.source.isBlank = false) (category : Category) {byte : Nat}
    (hbyte : doc.root.Around byte) :
    ∃ answer, enclosing doc things byte category = .ok answer ∧
      (∀ place, answer = some place ↔ Innermost doc things category byte place) ∧
      (answer = none ↔ ∀ place ∈ doc.tree.places, isA doc things category place = .ok true →
        ¬place.Around byte) := by
  rw [h.enclosing_eq_first hblank category hbyte]
  rcases h.first_upwards category hbyte with ⟨hnone, hall⟩ | ⟨found, hfound, hinner⟩
  · refine ⟨none, hnone, fun place => ⟨nofun, fun hplace => ?_⟩, fun _ => hall, fun _ => rfl⟩
    exact absurd hplace.around (hall place hplace.mem hplace.belongs)
  · refine ⟨some found, hfound, fun place => ⟨?_, ?_⟩, nofun, fun hnot => ?_⟩
    · rintro ⟨rfl⟩
      exact hinner
    · intro hplace
      rw [hinner.unique hplace]
    · exact absurd hinner.around (hnot found hinner.mem hinner.belongs)

/-- Between the two words of a pair only the pair is around. -/
theorem enclosing_innermost_pair : Walkable pairDocument pairThings ∧
    pairDocument.source.isBlank = false ∧ pairDocument.root.Around 3 ∧
    ∃ place, enclosing pairDocument pairThings 3 .expression = .ok (some place) ∧
      Innermost pairDocument pairThings .expression 3 place ∧ pairPlace ∈ place.upwards := by
  have hblank : pairDocument.source.isBlank = false := by decide
  have hbyte : pairDocument.root.Around 3 := by decide
  obtain ⟨answer, hanswer, hsome, hnone⟩ :=
    enclosing_innermost walkable_pair hblank .expression hbyte
  have hplace : pairPlace ∈ pairDocument.tree.places :=
    List.mem_cons_of_mem _ (List.mem_cons_of_mem _ List.mem_cons_self)
  have hbelongs : isA pairDocument pairThings .expression pairPlace = .ok true := by cbv
  have haround : pairPlace.Around 3 := by decide
  cases answer with
  | none => exact absurd haround (hnone.1 rfl pairPlace hplace hbelongs)
  | some place =>
    have hinner := (hsome place).1 rfl
    exact ⟨walkable_pair, hblank, hbyte, place, hanswer, hinner,
      (hinner.inside pairPlace hplace hbelongs haround).1⟩

end TreeRules.Thing
